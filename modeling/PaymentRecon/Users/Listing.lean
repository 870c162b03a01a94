import PaymentRecon.Requests.Deletions
import PaymentRecon.Users.Dashboard
import PaymentRecon.Waits.Orderly

/-!
# Listing — the orders of a user

`GET /orders/all-orders` joins the orders of the caller with their intents, in no particular order, and
`GET /orders/get-order/{order_id}` selects one of them.  The response model reads the intent of an order as
an attribute; where the query did not load it, the `AsyncSession` refuses to load it then.
-/

namespace PaymentRecon

open Interleave Lts Rely

namespace Listing

open Requests (SiteState SiteLabel SiteSteps undeleted undeleted_later)
open Users (OrderRow PaymentIntentRow Validated validateItems)

/-! ## The endpoints -/

/-- A row of `payment_intent`, with the column that only this response shows. -/
structure IntentRow extends PaymentIntentRow where
  expiredAt : ℕ
  deriving DecidableEq

/-- The tables that a request reads: those of the state, with the columns that only responses show. -/
structure Tables (db : Db) where
  orders : List OrderRow
  intents : List IntentRow
  orders_eq : orders.map (·.toOrder) = db.orders
  intents_eq : intents.map (·.toPaymentIntent) = db.intents

/-- An order of a session.  The relationship is `none` until it is loaded. -/
structure OrderObject extends OrderRow where
  paymentIntent : Option (Option IntentRow)

variable {db : Db}

/-- `orders LEFT OUTER JOIN payment_intent`, for the orders of a user. -/
def Tables.joined (t : Tables db) (userId : Id) : List (OrderRow × Option IntentRow) :=
  (t.orders.filter fun o => o.userId = userId).flatMap fun o =>
    match t.intents.filter fun i => i.orderId = o.id with
    | [] => [(o, none)]
    | is => is.map fun i => (o, some i)

/-- One object for each row; an order has the intent of its first row. -/
def objects (rows : List (OrderRow × Option IntentRow)) : List OrderObject :=
  rows.map fun x => ⟨x.1, some ((rows.find? fun y => y.1.id = x.1.id).bind (·.2))⟩

/-- `get_all_orders`: the query has no `ORDER BY`. -/
def GetAllOrders (userId : Id) (t : Tables db) (orders : List OrderObject) : Prop :=
  ∃ rows, rows.Perm (t.joined userId) ∧ orders = objects rows

def getOrderService (orderId userId : Id) (t : Tables db) : Except Exc (Option OrderObject) :=
  if inInt4 orderId ∧ inInt4 userId then
    .ok ((t.orders.find? fun o => o.id = orderId ∧ o.userId = userId).map fun o => ⟨o, none⟩)
  else .error DataError

/-- The schema `PaymentIntentResponseSchema`. -/
structure PaymentIntentResponseSchema where
  id : Id
  status : OrderStatus
  baseAmount : Amount
  exactAmount : Amount
  createdAt : ℕ
  expiredAt : ℕ

/-- The schema `OrderResponseSchema`. -/
structure OrderResponseSchema where
  id : Id
  userId : Id
  amount : Amount
  status : OrderStatus
  createdAt : ℕ
  paymentIntent : Option PaymentIntentResponseSchema

def PaymentIntentResponseSchema.of (i : IntentRow) : PaymentIntentResponseSchema :=
  ⟨i.id, i.status, i.baseAmount, i.exactAmount, i.createdAt, i.expiredAt⟩

def OrderResponseSchema.validate (o : OrderObject) : Validated OrderResponseSchema :=
  match o.paymentIntent with
  | none => .error [⟨["payment_intent"], "Error extracting attribute: MissingGreenlet"⟩]
  | some i => .ok ⟨o.id, o.userId, o.amount, o.status, o.createdAt, i.map .of⟩

/-- The errors of the two endpoints. -/
inductive HttpError
  | notFound (detail : String)
  | responseValidation (errors : List Users.ValidationError)
  | internal (e : Exc)

/-- The endpoint `GET /orders/get-order/{order_id}`. -/
def getOrder (userId orderId : Id) (t : Tables db) : Except HttpError OrderResponseSchema := do
  let order ← (getOrderService orderId userId t).mapError .internal
  match order with
  | none => .error (.notFound "Order not found")
  | some order => (OrderResponseSchema.validate order).mapError fun errors =>
    .responseValidation (errors.map (·.within ["response"]))

/-- The endpoint `GET /orders/all-orders`, with what the query answered. -/
def getOrders (orders : List OrderObject) : Except HttpError (List OrderResponseSchema) :=
  if orders = [] then .error (.notFound "There is no orders")
  else (validateItems OrderResponseSchema.validate "response" 0 orders).mapError .responseValidation

/-- The query for one order does not load its intent, so no order is ever shown by its id. -/
theorem getOrder_fails {orderId userId : Id} (t : Tables db) :
    ∃ e, getOrder userId orderId t = .error e := by
  unfold getOrder getOrderService
  split_ifs
  · cases t.orders.find? fun o => o.id = orderId ∧ o.userId = userId with
    | none => exact ⟨_, rfl⟩
    | some o => exact ⟨_, rfl⟩
  · exact ⟨_, rfl⟩

/-! ## Orders in the tables -/

/-- The same order, in whatever status. -/
structure Same (o o' : Order) : Prop where
  id : o'.id = o.id
  user : o'.userId = o.userId
  amount : o'.amount = o.amount

theorem Same.refl (o : Order) : Same o o := ⟨rfl, rfl, rfl⟩

theorem Same.trans {o o' o'' : Order} (h : Same o o') (h' : Same o' o'') : Same o o'' :=
  ⟨h'.id.trans h.id, h'.user.trans h.user, h'.amount.trans h.amount⟩

/-- One write leaves every order there, and adds the one it inserts. -/
theorem apply_orders (db : Db) (x : Write) :
    (∀ o ∈ db.orders, ∃ o' ∈ (x.apply db).orders, Same o o') ∧
      (∀ o, x = .insOrder o → o ∈ (x.apply db).orders) ∧
      ∀ o' ∈ (x.apply db).orders, ∃ o, (o ∈ db.orders ∨ x = .insOrder o) ∧ Same o o' := by
  cases x with
  | insOrder o₁ =>
    refine ⟨fun o ho => ⟨o, List.mem_append_left _ ho, .refl o⟩, ?_, fun o ho => ?_⟩
    · rintro o ⟨⟩
      exact List.mem_append_right _ (List.mem_singleton_self _)
    · rcases List.mem_append.mp ho with ho | ho
      · exact ⟨o, Or.inl ho, .refl o⟩
      · obtain rfl := List.mem_singleton.mp ho
        exact ⟨o, Or.inr rfl, .refl o⟩
  | payOrder id =>
    have hpay : ∀ o : Order, Same o (if o.id = id then { o with status := .PAID } else o) := by
      intro o
      split_ifs
      · exact ⟨rfl, rfl, rfl⟩
      · exact .refl o
    refine ⟨fun o ho => ⟨_, List.mem_map_of_mem ho, hpay o⟩, fun o ho => (nomatch ho), fun o' ho' => ?_⟩
    obtain ⟨o, ho, rfl⟩ := List.mem_map.mp ho'
    exact ⟨o, Or.inl ho, hpay o⟩
  | _ =>
    exact ⟨fun o ho => ⟨o, ho, .refl o⟩, fun o ho => (nomatch ho), fun o ho => ⟨o, Or.inl ho, .refl o⟩⟩

/-- A commit leaves every order there, and adds those that it inserts. -/
theorem commit_orders (db : Db) (ws : List Write) :
    (∀ o, o ∈ db.orders ∨ .insOrder o ∈ ws → ∃ o' ∈ (db.commit ws).orders, Same o o') ∧
      ∀ o' ∈ (db.commit ws).orders, ∃ o, (o ∈ db.orders ∨ .insOrder o ∈ ws) ∧ Same o o' := by
  induction ws using List.reverseRecOn with
  | nil =>
    refine ⟨fun o ho => ⟨o, ?_, .refl o⟩, fun o ho => ⟨o, Or.inl ho, .refl o⟩⟩
    simpa using ho
  | append_singleton ws x ih =>
    obtain ⟨hkept, hfrom⟩ := ih
    obtain ⟨hkept', hnew, hfrom'⟩ := apply_orders (db.commit ws) x
    rw [Db.commit_append]
    refine ⟨fun o ho => ?_, fun o' ho' => ?_⟩
    · by_cases hx : x = .insOrder o
      · exact ⟨o, hnew o hx, .refl o⟩
      · have hold : o ∈ db.orders ∨ .insOrder o ∈ ws := ho.imp_right fun h =>
          (List.mem_append.mp h).resolve_right fun h => hx (List.mem_singleton.mp h).symm
        obtain ⟨o₁, ho₁, hs⟩ := hkept o hold
        obtain ⟨o₂, ho₂, hs'⟩ := hkept' o₁ ho₁
        exact ⟨o₂, ho₂, hs.trans hs'⟩
    · obtain ⟨o₁, ho₁, hs⟩ := hfrom' o' ho'
      rcases ho₁ with ho₁ | rfl
      · obtain ⟨o, ho, hs'⟩ := hfrom o₁ ho₁
        exact ⟨o, ho.imp_right (List.mem_append_left _), hs'.trans hs⟩
      · exact ⟨o₁, Or.inr (by simp), hs⟩

variable {p q : Pid} {w w' : World} {past : List Label} {a : Label} {u : Id} {m : Amount}

/-- The tables of orders change with commits only. -/
theorem exec_orders {f : Fault} {op : Op} {r : Except Exc op.Ret} (h : exec f p op w r w') :
    w'.db.orders = w.db.orders ∨ op = .commit ∧ w' = w.commit p := by
  have hrun : ∀ r₀, op.run p w r₀ w' →
      w'.db.orders = w.db.orders ∨ op = .commit ∧ w' = w.commit p := by
    intro r₀ h
    rcases run_orders h with hcommit | ⟨horders, -⟩
    · exact Or.inr hcommit
    · exact Or.inl horders
  rcases exec_cases h with h | ⟨rfl, -⟩ | ⟨-, r₀, h, -⟩
  · exact hrun r h
  · exact Or.inl rfl
  · exact hrun r₀ h

/-- After a step: the same orders, or those of a commit. -/
theorem wstep_orders (h : system.WStep w a w') :
    w'.db.orders = w.db.orders ∨ ∃ q, w'.db.orders = (w.db.commit (w.txn q).writes).orders := by
  cases a with
  | spawn q r =>
    obtain rfl : w' = w := h
    exact Or.inl rfl
  | run q f op r =>
    rcases exec_orders h with h | ⟨-, rfl⟩
    · exact Or.inl h
    · exact Or.inr ⟨q, rfl⟩
  | crash q =>
    obtain rfl : w' = w.rollback q := h
    exact Or.inl rfl
  | outer x =>
    obtain rfl : w' = w.tick x := h
    cases x
    exact Or.inl rfl

/-- The order is in the table. -/
def Recorded (w : World) (o : Order) : Prop := ∃ o' ∈ w.db.orders, Same o o'

/-- An order that was recorded stays so. -/
theorem Recorded.step (hw : system.WStep w a w') {o : Order} (h : Recorded w o) : Recorded w' o := by
  obtain ⟨o₁, ho₁, hs⟩ := h
  rcases wstep_orders hw with heq | ⟨q, heq⟩
  · exact ⟨o₁, heq ▸ ho₁, hs⟩
  · obtain ⟨o₂, ho₂, hs'⟩ := (commit_orders w.db (w.txn q).writes).1 o₁ (Or.inl ho₁)
    exact ⟨o₂, heq ▸ ho₂, hs.trans hs'⟩

/-- An order that is stored, or about to be. -/
def Stored (w : World) (o : Order) : Prop := o ∈ w.db.orders ∨ ∃ p, .insOrder o ∈ (w.txn p).writes

/-- A stored order was stored before, or the step inserts it. -/
theorem stored_from (hw : system.WStep w a w') {o' : Order} (h : Stored w' o') :
    (∃ o, Stored w o ∧ Same o o') ∨
      ∃ p f e r, a = .run p f (.insertOrder o'.userId o'.amount e) r := by
  rcases h with h | ⟨p, h⟩
  · refine Or.inl ?_
    rcases wstep_orders hw with heq | ⟨q, heq⟩
    · exact ⟨o', Or.inl (heq ▸ h), .refl o'⟩
    · obtain ⟨o, ho, hs⟩ := (commit_orders w.db (w.txn q).writes).2 o' (heq ▸ h)
      exact ⟨o, ho.imp_right fun h => ⟨q, h⟩, hs⟩
  · rcases wstep_writes hw h with h | ⟨f, op, r, r₀, rfl, h⟩
    · exact Or.inl ⟨o', Or.inr ⟨p, h⟩, .refl o'⟩
    · cases op with
      | insertOrder u m e =>
        cases r₀ with
        | ok o =>
          obtain rfl : o' = w.newOrder u m := by simpa [Op.flushed] using h
          exact Or.inr ⟨p, f, e, r, rfl⟩
        | error e => simp [Op.flushed] at h
      | flushPaid _ _ | insertSms _ _ _ _ _ | insertEvent _ => cases r₀ <;> simp [Op.flushed] at h
      | _ => simp [Op.flushed] at h

/-! ## Who creates orders -/

/-- Every order that is stored was asked for. -/
def Placed (w : World) (past : List Label) : Prop :=
  ∀ o, Stored w o → ∃ p, .spawn p (.createOrder o.userId o.amount) ∈ past

/-- An order is inserted for a request that asked for it. -/
def Fulfils (p : Pid) (past : List Label) : Op → Prop
  | .insertOrder u m _ => .spawn p (.createOrder u m) ∈ past
  | _ => True

/-- An order that a request answered is the one it asked for, and recorded. -/
def Answers : Request → Except Exc Response → World → Prop
  | .createOrder u m, .ok (.order o), w => o.userId = u ∧ o.amount = m ∧ Recorded w o
  | _, _, _ => True

def logic : Rely sig Exc Response World Request Tick where
  machine := system
  cond := fun _ _ _ _ => True
  inv := Placed
  start := fun _ => top
  guard := fun p _ past op => Fulfils p past op
  final := fun p r w past => ∃ q, .spawn p q ∈ past ∧ Answers q r w

/-- **Step lemma.** -/
theorem Placed.step (h : Placed w past) (hw : system.WStep w a w')
    (hg : ∀ p f op r, a = .run p f op r → Fulfils p past op) : Placed w' (past ++ [a]) := by
  intro o' ho'
  rcases stored_from hw ho' with ⟨o, ho, hs⟩ | ⟨p, f, e, r, rfl⟩
  · obtain ⟨p, hp⟩ := h o ho
    exact ⟨p, List.mem_append_left _ (hs.user ▸ hs.amount ▸ hp)⟩
  · exact ⟨p, List.mem_append_left _ (hg p f _ r rfl)⟩

abbrev Facts := Assertion sig Exc World Request Tick

abbrev Keeps {β : Type} (p : Pid) (K : Facts) (x : App β) (post : Except Exc β → Facts) : Prop :=
  logic.Ensures p K x post

/-- The thread was started for the request. -/
def Called (p : Pid) (q : Request) : Facts := fun _ past => .spawn p q ∈ past

theorem persistent_called {q : Request} : logic.Persistent (Called p q) :=
  fun _ _ _ _ _ _ _ h => List.mem_append_left _ h

/-- An operation other than an insertion of an order. -/
def Plain : Op → Prop
  | .insertOrder _ _ _ => False
  | _ => True

theorem keeps_plain {K : Facts} (hK : logic.Persistent K) (op : Op) (h : Plain op) :
    Keeps p K (await op) fun _ => K :=
  Ensures.skip hK fun _ _ _ _ => by cases op <;> first | exact h.elim | trivial

theorem keeps_all {β : Type} {K : Facts} (hK : logic.Persistent K) {x : App β} {A : Op → Prop}
    {R : Except Exc β → Prop} (hx : x.All A R) (hA : ∀ op, A op → Plain op) : Keeps p K x fun _ => K :=
  Ensures.all (fun op h => keeps_plain hK op (hA op h)) hx

/-- The session is about to store the order, which was asked for. -/
def Holding (p : Pid) (u : Id) (m : Amount) (o : Order) : Facts := fun w _ =>
  .insOrder o ∈ (w.txn p).writes ∧ o.userId = u ∧ o.amount = m

theorem stable_holding {o : Order} : logic.Stable p (Holding p u m o) := by
  intro w past a w' _ hw _ hp h
  refine ⟨?_, h.2⟩
  rw [wstep_txn hw hp]
  exact h.1

/-- What the insertion of the order leaves. -/
def Inserted (p : Pid) (u : Id) (m : Amount) : Except Exc Order → Facts
  | .ok o => Holding p u m o
  | .error _ => Called p (.createOrder u m)

theorem keeps_insert {e : Amount} : Keeps p (Called p (.createOrder u m)) (await (.insertOrder u m e))
    (Inserted p u m) := by
  refine Ensures.perform (fun r => ?_) (fun _ _ _ h => h) ?_
  · cases r with
    | ok o => exact stable_holding
    | error e => exact persistent_called.stable
  · intro f w past r w' hI hk hx hc
    cases r with
    | error e => exact List.mem_append_left _ hk
    | ok o =>
      rcases exec_cases hx with h | ⟨-, e, -, he⟩ | ⟨-, -, -, e, -, he⟩
      · simp only [Op.run] at h
        split_ifs at h
        · obtain ⟨-, ⟨-, hr, -⟩ | ⟨-, hr, rfl⟩⟩ := h
          · cases hr
          · obtain rfl := Except.ok.inj hr
            refine ⟨?_, rfl, rfl⟩
            rw [flush_writes]
            simp
        · cases h.1
      · cases he
      · cases he

theorem keeps_createOrderLoop (n : ℕ) :
    Keeps p (Called p (.createOrder u m)) (createOrderLoop u m n)
      (whenOk fun order w past => ∀ o, order = some o → Holding p u m o w past) := by
  have hdraws : ∀ {β : Type} {x : App β}, x.All Waits.Draws (fun _ => True) →
      Keeps p (Called p (.createOrder u m)) x fun _ => Called p (.createOrder u m) := fun hx =>
    keeps_all persistent_called hx fun op h => by cases op <;> first | exact h.elim | trivial
  induction n with
  | zero => exact fun _ _ _ _ h => nomatch h
  | succ n ih =>
    unfold createOrderLoop
    refine Ensures.bind (hdraws (Waits.all_getUniqueAmount _)) ?_ fun _ _ _ _ => trivial
    intro unique
    split
    · refine Ensures.bind (hdraws Waits.all_logStatistics) ?_ fun _ _ _ _ => trivial
      exact fun _ _ _ _ _ h => nomatch h
    · rename_i amount _
      refine Ensures.tryCatch (m := fun r => match r with
        | .ok order => fun w past => ∀ o, order = some o → Holding p u m o w past
        | .error _ => Called p (.createOrder u m)) ?_ (fun _ _ _ h => h) ?_
      · refine Ensures.bind keeps_insert ?_ fun _ _ _ h => h
        rintro o w past h o' heq
        obtain rfl := Option.some.inj heq
        exact h
      · intro e
        have hrefund : ∀ e' : Exc, Keeps p (Called p (.createOrder u m))
            (do compensate amount.value; throw e' : App (Option Order))
            (whenOk fun order w past => ∀ o, order = some o → Holding p u m o w past) := fun e' =>
          Ensures.bind (hdraws (Waits.all_compensate _)) (fun _ _ _ _ => trivial) fun _ _ _ _ => trivial
        split_ifs
        · exact hrefund _
        · exact ih
        · exact fun _ _ _ => trivial
        · exact hrefund _
        · exact fun _ _ _ => trivial

/-- The order that was asked for is recorded. -/
def Done (u : Id) (m : Amount) (o : Order) : Facts := fun w _ =>
  o.userId = u ∧ o.amount = m ∧ Recorded w o

theorem persistent_done {o : Order} : logic.Persistent (Done u m o) :=
  fun _ _ _ _ _ hw _ h => ⟨h.1, h.2.1, h.2.2.step hw⟩

/-- A commit that is acknowledged records the order. -/
theorem keeps_commit {o : Order} :
    Keeps p (Holding p u m o) (await .commit) (whenOk fun _ => Done u m o) := by
  refine Ensures.perform (stable_whenOk fun _ => persistent_done.stable) (fun _ _ _ _ => trivial) ?_
  intro f w past r w' _ hk hx _
  cases r with
  | error e => trivial
  | ok a =>
    rcases exec_cases hx with h | ⟨-, e, -, he⟩ | ⟨-, -, -, e, -, he⟩
    · obtain ⟨-, rfl⟩ := h
      exact ⟨hk.2.1, hk.2.2, (commit_orders w.db (w.txn p).writes).1 o (Or.inr hk.1)⟩
    · cases he
    · cases he

/-- An error after a rollback. -/
theorem keeps_rollback_throw {β : Type} {K : Facts} {J : β → Facts} (e : Exc) :
    Keeps p K (do await .rollback; throw e : App β) (whenOk J) :=
  Ensures.bind ((keeps_plain Persistent.true .rollback trivial).pre fun _ _ _ => trivial)
    (fun _ _ _ _ => trivial) fun _ _ _ _ => trivial

/-- What a response of `create_order` tells. -/
def Confirmed (u : Id) (m : Amount) (response : Response) : Facts := fun w past =>
  ∀ o, response = .order o → Done u m o w past

theorem keeps_createOrder : Keeps p (Called p (.createOrder u m)) (createOrder u m)
    (whenOk (Confirmed u m)) := by
  refine Ensures.tryCatch (m := whenOk (Confirmed u m)) ?_ (fun _ _ _ h => h) fun e =>
    keeps_rollback_throw e
  refine Ensures.tryCatch (m := whenOk (Confirmed u m)) ?_ (fun _ _ _ h => h) fun e => ?_
  · refine Ensures.bind (keeps_createOrderLoop 3) ?_ fun _ _ _ _ => trivial
    intro order
    cases order with
    | none => exact fun _ _ _ => trivial
    | some o =>
      refine Ensures.bind (keeps_commit.pre fun _ _ h => h o rfl) ?_ fun _ _ _ _ => trivial
      intro _
      refine Ensures.bind (keeps_plain persistent_done (.refreshOrder o.id) trivial) ?_
        fun _ _ _ _ => trivial
      rintro _ w past h o' heq
      obtain rfl := Response.order.inj heq
      exact h
  · split
    · exact fun _ _ _ => trivial
    · exact keeps_rollback_throw _
    · exact keeps_rollback_throw _

theorem keeps_prog (q : Request) : Keeps p (Called p q) q.prog (logic.final p) := by
  -- what the other requests answer is no order
  have hother : (∀ u m, q ≠ .createOrder u m) → Keeps p (Called p q) q.prog (fun _ => Called p q) →
      Keeps p (Called p q) q.prog (logic.final p) := by
    intro hne h
    refine h.mono fun r w past hk => ⟨q, hk, ?_⟩
    cases q with
    | createOrder u m => exact absurd rfl (hne u m)
    | _ => trivial
  have hall : ∀ {A : Op → Prop} {R : Except Exc Response → Prop}, q.prog.All A R →
      (∀ op, A op → Plain op) → Keeps p (Called p q) q.prog (fun _ => Called p q) := fun hx hA =>
    keeps_all persistent_called hx hA
  cases q with
  | createOrder u m =>
    refine ((keeps_createOrder.frame persistent_called).pre fun _ _ h => ⟨h, h⟩).mono ?_
    rintro r w past ⟨h, hk⟩
    refine ⟨_, hk, ?_⟩
    cases r with
    | error e => trivial
    | ok response =>
      cases response with
      | order o => exact h o rfl
      | _ => trivial
  | confirmPayment orderId paymentId =>
    refine hother (fun _ _ => nofun) (hall (all_confirmPayment orderId paymentId) fun op h => ?_)
    cases op <;> first | exact h.elim | trivial
  | handlePayment m =>
    have hx : (Request.handlePayment m).prog.All Collects fun _ => True :=
      all_seq (all_handlePayment m) fun _ => trivial
    refine hother (fun _ _ => nofun) (hall hx fun op h => ?_)
    cases op <;> first | exact h.elim | trivial
  | receiveTransaction s =>
    refine hother (fun _ _ => nofun) (hall (all_receiveTransaction s) fun op h => ?_)
    cases op <;> first | exact h.elim | trivial
  | processOutboxEvent =>
    refine hother (fun _ _ => nofun) (hall all_processOutboxEvent fun op h => ?_)
    cases op <;> first | exact h.elim | trivial
  | work workerId =>
    refine hother (fun _ _ => nofun) (ensures_turn (fun op h => ?_) (fun m => ?_) workerId)
    · exact keeps_plain persistent_called op (by cases op <;> first | exact h.elim | trivial)
    · exact keeps_all persistent_called (all_handlePayment m) fun op h => by
        cases op <;> first | exact h.elim | trivial
  | replayDlq x =>
    refine hother (fun _ _ => nofun) (hall (all_replayDlqDashboard x) fun op h => ?_)
    cases op <;> first | exact h.elim | trivial
  | lifespan fuel =>
    refine hother (fun _ _ => nofun) (hall (seeds_lifespan fuel) fun op h => ?_)
    rcases h with h | h <;> cases op <;> first | exact h.elim | trivial

/-- **Orders are stored for those who asked for them**, and answered when they are. -/
theorem sound : logic.Sound where
  prog p q w past w' _ _ := (keeps_prog q).pre fun _ _ h => h.2
  start _ := Persistent.true.stable
  begin _ _ _ _ _ := trivial
  spawn w past p q h _ := h.step (a := .spawn p q) rfl fun _ _ _ _ heq => nomatch heq
  run f w past p op r w' h hg hx _ := h.step (a := .run p f op r) hx fun _ _ _ _ heq => by
    cases heq
    exact hg
  crash w past p h _ := h.step (a := .crash p) rfl fun _ _ _ _ heq => nomatch heq
  outer w past x h _ := h.step (a := .outer x) rfl fun _ _ _ _ heq => nomatch heq

theorem Placed.empty : Placed World.empty [] := by
  rintro o (ho | ⟨p, ho⟩)
  · simp [World.empty, Db.empty] at ho
  · simp [World.empty, Txn.empty] at ho

variable {c c' : State} {tr tr' : List Label}

/-- **Run lemma.** -/
theorem holds_reached (h₀ : Run Steps (.init World.empty) tr c) : logic.Holds c :=
  (sound.derive (P := fun _ _ _ => True) (J := fun _ => True)
    (h₀.mono fun _ _ _ hs => ⟨hs, trivial, trivial⟩) (Holds.init Placed.empty fun _ => trivial) trivial
    fun _ _ _ _ _ _ _ _ => trivial).1

/-- Every order in the table was asked for by its user. -/
theorem asked (h₀ : Run Steps (.init World.empty) tr c) {o : Order} (ho : o ∈ c.world.db.orders) :
    ∃ p, .spawn p (.createOrder o.userId o.amount) ∈ tr := by
  have hpast : c.past = tr := by simpa [Config.init] using run_past h₀
  rw [← hpast]
  exact (holds_reached h₀).inv o (Or.inl ho)

/-- What was answered is in the table. -/
theorem answered (h₀ : Run Steps (.init World.empty) tr c) (hp : .spawn p (.createOrder u m) ∈ tr)
    {o : Order} (hret : c.thread p = .live (.ret (.order o))) :
    o.userId = u ∧ o.amount = m ∧ Recorded c.world o := by
  have hpast : c.past = tr := by simpa [Config.init] using run_past h₀
  obtain ⟨q, hq, hans⟩ := (holds_reached h₀).final hret
  rw [hpast] at hq
  obtain rfl := spawn_unique h₀ hq hp
  exact hans

theorem Recorded.run (hr : Run Steps c tr' c') {o : Order} (h : Recorded c.world o) :
    Recorded c'.world o :=
  hr.inv (fun c => Recorded c.world o) h fun _ _ _ h hs => h.step hs.wstep.1

/-- Only the status of an intent changes, and the transfer recorded on it. -/
structure Follows (i j : PaymentIntent) : Prop where
  id : j.id = i.id
  order : j.orderId = i.orderId
  base : j.baseAmount = i.baseAmount
  exact : j.exactAmount = i.exactAmount

theorem intent_follows (hr : Run Steps c tr' c') {i : PaymentIntent} (hi : i ∈ c.world.db.intents) :
    ∃ j ∈ c'.world.db.intents, Follows i j := by
  refine hr.inv (fun c => ∃ j ∈ c.world.db.intents, Follows i j) ⟨i, hi, rfl, rfl, rfl, rfl⟩ ?_
  rintro c a c' ⟨j, hj, hf⟩ hs
  obtain ⟨q, hstep, -⟩ := wstep_tableStep (p := 0) hs.wstep.1
  rcases hstep.intents with heq | heq
  · exact ⟨j, heq ▸ hj, hf⟩
  · obtain ⟨k, hk, he⟩ := Db.commit_keeps (c.world.txn q).writes hj
    exact ⟨k, heq ▸ hk, he.id.trans hf.id, he.order.trans hf.order, he.base.trans hf.base,
      he.exact.trans hf.exact⟩

/-! ## What the query answers -/

/-- One order for each id, one intent for each order. -/
structure Matched (db : Db) : Prop where
  agrees : Settle.Agrees db
  orders : (db.orders.map (·.id)).Nodup
  intents : (db.intents.map (·.orderId)).Nodup

theorem aligned_ids (h : db.Aligned) : db.orders.map (·.id) = db.intents.map (·.orderId) := by
  have hmap : ∀ {os : List Order} {is : List PaymentIntent},
      List.Forall₂ (fun o i => PaymentIntent.Of i o) os is → os.map (·.id) = is.map (·.orderId) := by
    intro os is h
    induction h with
    | nil => rfl
    | cons hof _ ih => rw [List.map_cons, List.map_cons, hof.id, ih]
  exact hmap h

theorem matched (h₀ : Run Steps (.init World.empty) tr c) : Matched c.world.db := by
  obtain ⟨hH, hA⟩ := Settle.Agree.reached h₀ (Holds.init Consistent.empty fun _ => rfl) Settle.Agree.empty
  have hagrees := hA.agrees hH.inv
  have hintents : (c.world.db.intents.map (·.orderId)).Nodup :=
    (List.Nodup.of_map _ hH.inv.intents.nodup).map_on fun i hi j hj => hagrees.one i hi j hj
  exact ⟨hagrees, aligned_ids hA.aligned ▸ hintents, hintents⟩

variable {t : Tables db} {userId : Id}

theorem Tables.order_ids (t : Tables db) : t.orders.map (·.id) = db.orders.map (·.id) := by
  rw [← t.orders_eq, List.map_map]
  rfl

theorem Tables.intent_orders (t : Tables db) : t.intents.map (·.orderId) = db.intents.map (·.orderId) := by
  rw [← t.intents_eq, List.map_map]
  rfl

/-- An order and its one intent. -/
theorem Matched.intent (h : Matched db) {o : OrderRow} (ho : o ∈ t.orders) :
    ∃ i ∈ t.intents, i.orderId = o.id ∧ (t.intents.filter fun i => i.orderId = o.id) = [i] := by
  have horder : o.toOrder ∈ db.orders := t.orders_eq ▸ List.mem_map_of_mem ho
  obtain ⟨i, hi, hid⟩ := h.agrees.intent _ horder
  rw [← t.intents_eq] at hi
  obtain ⟨row, hrow, rfl⟩ := List.mem_map.mp hi
  have hnd : (t.intents.map (·.orderId)).Nodup := t.intent_orders ▸ h.intents
  have hid' : row.orderId = o.id := hid
  exact ⟨row, hrow, hid', hid' ▸ Streams.filter_key hnd hrow⟩

/-- The rows of an order. -/
theorem Matched.rows (h : Matched db) {o : OrderRow} (ho : o ∈ t.orders) :
    ∃ i ∈ t.intents, i.orderId = o.id ∧ (match t.intents.filter fun i => i.orderId = o.id with
      | [] => [(o, none)]
      | is => is.map fun i => (o, some i)) = [(o, some i)] := by
  obtain ⟨i, hi, hid, hfilter⟩ := h.intent ho
  exact ⟨i, hi, hid, by rw [hfilter]; rfl⟩

/-- The join has one row for each order of the user. -/
theorem Matched.joined_orders (h : Matched db) :
    (t.joined userId).map (·.1) = t.orders.filter fun o => o.userId = userId := by
  have hone : ∀ os : List OrderRow, (∀ o ∈ os, o ∈ t.orders) →
      (os.flatMap fun o => match t.intents.filter fun i => i.orderId = o.id with
        | [] => [(o, none)]
        | is => is.map fun i => (o, some i)).map (·.1) = os := by
    intro os hos
    induction os with
    | nil => rfl
    | cons o os ih =>
      obtain ⟨i, -, -, hrows⟩ := h.rows (hos o List.mem_cons_self)
      rw [List.flatMap_cons, hrows, List.map_append, ih fun o ho => hos o (List.mem_cons_of_mem _ ho)]
      rfl
  exact hone _ fun o ho => List.mem_of_mem_filter ho

theorem Matched.mem_joined (h : Matched db) {x : OrderRow × Option IntentRow} (hx : x ∈ t.joined userId) :
    x.1 ∈ t.orders ∧ x.1.userId = userId ∧ ∃ i ∈ t.intents, i.orderId = x.1.id ∧ x.2 = some i := by
  obtain ⟨o, ho, hx⟩ := List.mem_flatMap.mp hx
  obtain ⟨hmem, huser⟩ := List.mem_filter.mp ho
  obtain ⟨i, hi, hid, hrows⟩ := h.rows hmem
  rw [hrows] at hx
  obtain rfl := List.mem_singleton.mp hx
  exact ⟨hmem, of_decide_eq_true huser, i, hi, hid, rfl⟩

/-- **The query** answers each order of the user once, with its intent. -/
theorem Matched.answers (h : Matched db) {orders : List OrderObject} (ho : GetAllOrders userId t orders) :
    (orders.map (·.id)).Nodup ∧
      (∀ x ∈ orders, x.toOrderRow ∈ t.orders ∧ x.userId = userId ∧
        ∃ i ∈ t.intents, i.orderId = x.id ∧ x.paymentIntent = some (some i)) ∧
      ∀ o ∈ t.orders, o.userId = userId → ∃ x ∈ orders, x.toOrderRow = o := by
  obtain ⟨rows, hperm, rfl⟩ := ho
  have hids : ((t.joined userId).map fun x => x.1.id).Nodup := by
    have heq : ((t.joined userId).map fun x => x.1.id) =
        (t.orders.filter fun o => o.userId = userId).map (·.id) := by
      rw [← h.joined_orders, List.map_map]
      rfl
    have hnd : (t.orders.map (·.id)).Nodup := t.order_ids ▸ h.orders
    rw [heq]
    exact hnd.sublist (List.filter_sublist.map _)
  have hnd : (rows.map fun x => x.1.id).Nodup := (hperm.map _).nodup_iff.mpr hids
  have hfind : ∀ x ∈ rows, rows.find? (fun y => y.1.id = x.1.id) = some x := fun x hx =>
    (Users.find?_key hnd hx rfl :)
  refine ⟨?_, fun x hx => ?_, fun o ho huser => ?_⟩
  · have heq : (objects rows).map (·.id) = rows.map fun x => x.1.id := by
      rw [objects, List.map_map]
      rfl
    rw [heq]
    exact hnd
  · obtain ⟨row, hrow, rfl⟩ := List.mem_map.mp hx
    obtain ⟨hmem, huser, i, hi, hid, hsome⟩ := h.mem_joined (hperm.mem_iff.mp hrow)
    refine ⟨hmem, huser, i, hi, hid, ?_⟩
    rw [hfind row hrow]
    simp [hsome]
  · have hmem : o ∈ (t.joined userId).map (·.1) := by
      rw [h.joined_orders]
      exact List.mem_filter.mpr ⟨ho, decide_eq_true huser⟩
    obtain ⟨row, hrow, rfl⟩ := List.mem_map.mp hmem
    exact ⟨_, List.mem_map_of_mem (hperm.mem_iff.mpr hrow), rfl⟩

/-! ## What the response shows -/

/-- The item shows the order and its intent, which are in one status. -/
structure Shows (db : Db) (x : OrderResponseSchema) (o : Order) (i : PaymentIntent) : Prop where
  order : o ∈ db.orders
  intent : i ∈ db.intents
  of : i.orderId = o.id
  status : o.status = i.status
  item : ∃ createdAt intentAt expiredAt, x = ⟨o.id, o.userId, o.amount, o.status, createdAt,
    some ⟨i.id, i.status, i.baseAmount, i.exactAmount, intentAt, expiredAt⟩⟩

/-- The items are the orders of the user, each of them once. -/
structure Lists (db : Db) (userId : Id) (xs : List OrderResponseSchema) : Prop where
  once : (xs.map (·.id)).Nodup
  own : ∀ x ∈ xs, x.userId = userId ∧ ∃ o i, Shows db x o i
  all : ∀ o ∈ db.orders, o.userId = userId → ∃ x ∈ xs, x.id = o.id

theorem validate_id {o : OrderObject} {x : OrderResponseSchema}
    (h : OrderResponseSchema.validate o = .ok x) : x.id = o.id := by
  unfold OrderResponseSchema.validate at h
  split at h
  · cases h
  · obtain rfl := Except.ok.inj h
    rfl

variable {orders orders' : List OrderObject} {xs : List OrderResponseSchema}

/-- The item of an order of the answer. -/
theorem Matched.shows (h : Matched db) (ho : GetAllOrders userId t orders) {o : OrderObject}
    (hmem : o ∈ orders) : ∃ x, OrderResponseSchema.validate o = .ok x ∧ x.userId = userId ∧
      ∃ i, Shows db x o.toOrder i := by
  obtain ⟨hrow, huser, i, hi, hid, hsome⟩ := (h.answers ho).2.1 o hmem
  have horder : o.toOrder ∈ db.orders := t.orders_eq ▸ List.mem_map_of_mem hrow
  have hintent : i.toPaymentIntent ∈ db.intents := t.intents_eq ▸ List.mem_map_of_mem hi
  refine ⟨⟨o.id, o.userId, o.amount, o.status, o.createdAt, some (.of i)⟩, ?_, huser, i.toPaymentIntent,
    horder, hintent, hid, h.agrees.status _ horder _ hintent hid, _, _, _, rfl⟩
  rw [OrderResponseSchema.validate, hsome]
  rfl

/-- **The response** is the orders of the user, or says that there are none. -/
theorem Matched.response (h : Matched db) (ho : GetAllOrders userId t orders) :
    (getOrders orders = .error (.notFound "There is no orders") ∧ ∀ o ∈ db.orders, o.userId ≠ userId) ∨
      ∃ xs, getOrders orders = .ok xs ∧ Lists db userId xs := by
  have hall : ∀ o ∈ db.orders, o.userId = userId → ∃ x ∈ orders, x.id = o.id := by
    intro o hmem huser
    rw [← t.orders_eq] at hmem
    obtain ⟨row, hrow, rfl⟩ := List.mem_map.mp hmem
    obtain ⟨x, hx, rfl⟩ := (h.answers ho).2.2 row hrow huser
    exact ⟨x, hx, rfl⟩
  by_cases hempty : orders = []
  · refine Or.inl ⟨if_pos hempty, fun o hmem huser => ?_⟩
    obtain ⟨x, hx, -⟩ := hall o hmem huser
    rw [hempty] at hx
    cases hx
  · have hvalid : ∃ xs, Users.validateItems OrderResponseSchema.validate "response" 0 orders = .ok xs :=
      Users.validateItems_ok.mpr fun o hmem => (h.shows ho hmem).imp fun _ hx => hx.1
    obtain ⟨xs, hxs⟩ := hvalid
    have hitems := Users.validateItems_forall₂ hxs
    have hids : xs.map (·.id) = orders.map (·.id) := by
      have hmap : ∀ {os : List OrderObject} {xs : List OrderResponseSchema},
          List.Forall₂ (fun o x => OrderResponseSchema.validate o = .ok x) os xs →
            xs.map (·.id) = os.map (·.id) := by
        intro os xs hitems
        induction hitems with
        | nil => rfl
        | cons hx _ ih => rw [List.map_cons, List.map_cons, validate_id hx, ih]
      exact hmap hitems
    refine Or.inr ⟨xs, ?_, ?_, fun x hx => ?_, fun o hmem huser => ?_⟩
    · rw [getOrders, if_neg hempty, hxs]
      rfl
    · rw [hids]
      exact (h.answers ho).1
    · obtain ⟨o, hmem, hox⟩ := forall₂_mem hitems.flip hx
      obtain ⟨x', hx', huser, i, hshows⟩ := h.shows ho hmem
      obtain rfl := Except.ok.inj (hox.symm.trans hx')
      exact ⟨huser, o.toOrder, i, hshows⟩
    · obtain ⟨y, hy, hid⟩ := hall o hmem huser
      obtain ⟨x, hx, hyx⟩ := forall₂_mem hitems hy
      exact ⟨x, hx, (validate_id hyx).trans hid⟩

/-- An order in the table is listed. -/
theorem Matched.lists (h : Matched db) (ho : GetAllOrders userId t orders) {o : Order}
    (hmem : o ∈ db.orders) (huser : o.userId = userId) :
    ∃ xs x i, getOrders orders = .ok xs ∧ x ∈ xs ∧ x.id = o.id ∧ Shows db x o i := by
  rcases h.response ho with ⟨-, hnone⟩ | ⟨xs, hxs, hlists⟩
  · exact absurd huser (hnone o hmem)
  · obtain ⟨x, hx, hid⟩ := hlists.all o hmem huser
    obtain ⟨-, o', i, hshows⟩ := hlists.own x hx
    obtain ⟨_, _, _, rfl⟩ := hshows.item
    obtain rfl := List.inj_on_of_nodup_map h.orders hshows.order hmem hid
    exact ⟨xs, _, i, hxs, hx, rfl, hshows⟩

/-- The later item shows the same order with the same intent; what is PAID stays so. -/
def Remains (x x' : OrderResponseSchema) : Prop :=
  x'.id = x.id ∧ x'.userId = x.userId ∧ x'.amount = x.amount ∧ ∃ pi pi', x.paymentIntent = some pi ∧
    x'.paymentIntent = some pi' ∧ pi'.id = pi.id ∧ pi'.baseAmount = pi.baseAmount ∧
    pi'.exactAmount = pi.exactAmount ∧ (x.status = .PAID → x'.status = .PAID)

/-- What is listed once is listed ever after. -/
theorem listed_later (h₀ : Run Steps (.init World.empty) tr c) (hr : Run Steps c tr' c')
    {t' : Tables c'.world.db} (ho : GetAllOrders userId t' orders') {x : OrderResponseSchema} {o : Order}
    {i : PaymentIntent} (huser : o.userId = userId) (hx : Shows c.world.db x o i) :
    ∃ xs x', getOrders orders' = .ok xs ∧ x' ∈ xs ∧ Remains x x' := by
  obtain ⟨_, _, _, rfl⟩ := hx.item
  have hmatched := matched (h₀.append hr)
  obtain ⟨o', ho', hsame⟩ := Recorded.run hr ⟨o, hx.order, .refl o⟩
  obtain ⟨xs, x', i', hxs, hx', hid, hshows⟩ := hmatched.lists ho ho' (hsame.user.trans huser)
  obtain ⟨_, _, _, rfl⟩ := hshows.item
  -- the intent of the order is still the same one
  obtain ⟨j, hj, hf⟩ := intent_follows hr hx.intent
  have horder : i'.orderId = j.orderId := by rw [hshows.of, hf.order, hx.of, hsame.id]
  obtain rfl := hmatched.agrees.one i' hshows.intent j hj horder
  refine ⟨xs, _, hxs, hx', hsame.id, hsame.user, hsame.amount, _, _, rfl, rfl, hf.id, hf.base, hf.exact,
    fun hpaid => ?_⟩
  obtain ⟨hH, hA⟩ := Settle.Agree.reached h₀ (Holds.init Consistent.empty fun _ => rfl) Settle.Agree.empty
  obtain ⟨-, hi⟩ := Settle.Agree.paid_stays hr hH hA hx.intent (hx.status.symm.trans hpaid)
  obtain rfl := hmatched.agrees.one i hi i' hj hf.order.symm
  exact hshows.status.trans (hx.status.symm.trans hpaid)

/-- **A user sees the own orders, and never loses one.**  Whatever fails, in every state that is reached
`GET /orders/all-orders` lists exactly the orders of the caller, each of them once with its own intent in
the same status, and answers 404 when there are none.  Each was asked for by the caller; each that a request
answered is listed; and each that was listed once is listed ever after, because requests to delete orders,
which run among the others, end in errors.  `GET /orders/get-order` shows none. -/
theorem orders_listed {tr : List SiteLabel} {d : SiteState} (h₀ : Run SiteSteps (.init .init) tr d)
    (t : Tables d.world.service.world.db) (ho : GetAllOrders userId t orders) :
    ((getOrders orders = .error (.notFound "There is no orders") ∧
        ∀ o ∈ d.world.service.world.db.orders, o.userId ≠ userId) ∨
      ∃ xs, getOrders orders = .ok xs ∧ Lists d.world.service.world.db userId xs) ∧
    (∀ p m o, .spawn p (.createOrder userId m) ∈ d.world.service.past →
      d.world.service.thread p = .live (.ret (.order o)) →
        ∃ xs x, getOrders orders = .ok xs ∧ x ∈ xs ∧ x.id = o.id ∧ x.amount = m) ∧
    (∀ p, d.thread p ≠ .live (.ret ())) ∧
    (∀ orderId, ∃ e, getOrder userId orderId t = .error e) ∧
    ∀ xs, getOrders orders = .ok xs → ∀ x ∈ xs,
      (∃ p, .spawn p (.createOrder userId x.amount) ∈ d.world.service.past) ∧
      ∀ tr' d' (t' : Tables d'.world.service.world.db) orders', Run SiteSteps d tr' d' →
        GetAllOrders userId t' orders' → ∃ xs' x', getOrders orders' = .ok xs' ∧ x' ∈ xs' ∧ Remains x x' := by
  obtain ⟨⟨past, hr⟩, hrefused⟩ := undeleted h₀
  have hpast : d.world.service.past = past := by simpa [Config.init] using run_past hr
  have hmatched := matched hr
  refine ⟨hmatched.response ho, fun p m o hp hret => ?_, hrefused, fun orderId => getOrder_fails t,
    fun xs hxs x hx => ?_⟩
  · obtain ⟨huser, hamount, o', ho', hsame⟩ := answered hr (hpast ▸ hp) hret
    obtain ⟨xs, x, i, hxs, hx, hid, hshows⟩ := hmatched.lists ho ho' (hsame.user.trans huser)
    obtain ⟨_, _, _, rfl⟩ := hshows.item
    exact ⟨xs, _, hxs, hx, hsame.id, hsame.amount.trans hamount⟩
  · rcases hmatched.response ho with ⟨hnone, -⟩ | ⟨xs', hxs', hlists⟩
    · rw [hnone] at hxs
      cases hxs
    · obtain rfl := Except.ok.inj (hxs.symm.trans hxs')
      obtain ⟨huser, o, i, hshows⟩ := hlists.own x hx
      refine ⟨?_, fun tr' d' t' orders' hlater ho' => ?_⟩
      · obtain ⟨p, hp⟩ := asked hr hshows.order
        obtain ⟨_, _, _, rfl⟩ := hshows.item
        obtain rfl : o.userId = userId := huser
        exact ⟨p, hpast ▸ hp⟩
      · obtain ⟨tr'', hr''⟩ := undeleted_later h₀ hlater
        refine listed_later hr hr'' ho' ?_ hshows
        obtain ⟨_, _, _, rfl⟩ := hshows.item
        exact huser

/-- Tables with some creation times. -/
def Tables.of (db : Db) : Tables db where
  orders := db.orders.map fun o => ⟨o, 0⟩
  intents := db.intents.map fun i => ⟨⟨i, 0⟩, 86400⟩
  orders_eq := by rw [List.map_map]; exact List.map_id _
  intents_eq := by rw [List.map_map]; exact List.map_id _

/-- What the query answers over these tables. -/
theorem Tables.all (t : Tables db) (userId : Id) : GetAllOrders userId t (objects (t.joined userId)) :=
  ⟨_, .refl _, rfl⟩

/-- A user has a confirmed order and one that waits, and tries to delete the first. -/
theorem orders_listed_sample : ∃ (tr tr' : List SiteLabel) (d d' : SiteState)
    (t : Tables d.world.service.world.db) (t' : Tables d'.world.service.world.db)
    (xs xs' : List OrderResponseSchema) (x x' : OrderResponseSchema),
    Run SiteSteps (.init .init) tr d ∧ Run SiteSteps d tr' d' ∧ .spawn 0 (1, 1) ∈ tr' ∧
    d.world.service.world.db.orders = [⟨1, 1, .PAID, 1500000⟩, ⟨2, 1, .PENDING, 1500000⟩] ∧
    getOrders (objects (t.joined 1)) = .ok xs ∧ Lists d.world.service.world.db 1 xs ∧
    d'.thread 0 ≠ .live (.ret ()) ∧ getOrders (objects (t'.joined 1)) = .ok xs' ∧
    x ∈ xs ∧ x.id = 1 ∧ x' ∈ xs' ∧ Remains x x' := by
  obtain ⟨tr, c, hr, htest, -⟩ := plays_run 3 .none
    (Script.createDown 0 1500001 ++ Script.confirm 1 1 1 ++ Script.createDown 2 1500001)
    (fun c => c.world.db.orders = [⟨1, 1, .PAID, 1500000⟩, ⟨2, 1, .PENDING, 1500000⟩]) (by decide +kernel)
    World.empty_closed
  have horders := of_decide_eq_true htest
  obtain ⟨tr₁, d, h₀, hworld, hthread⟩ := Requests.service_run (d := .init .init) hr.of_restrict rfl
  obtain ⟨tr₂, d', r, hdelete, -⟩ := Requests.deletion_run (d := d) (p := 0) (1, 1) (by rw [hthread]; rfl)
  have hdb : d.world.service.world.db.orders = [⟨1, 1, .PAID, 1500000⟩, ⟨2, 1, .PENDING, 1500000⟩] := by
    rw [hworld]
    exact horders
  let t := Tables.of d.world.service.world.db
  let t' := Tables.of d'.world.service.world.db
  obtain ⟨hlisted, -, -, -, hlater⟩ := orders_listed h₀ t (t.all 1)
  obtain ⟨-, -, hrefused, -⟩ := orders_listed (h₀.append hdelete) t' (t'.all 1)
  have hmem : (⟨1, 1, .PAID, 1500000⟩ : Order) ∈ d.world.service.world.db.orders := by
    rw [hdb]
    exact List.mem_cons_self
  rcases hlisted with ⟨-, hnone⟩ | ⟨xs, hxs, hlists⟩
  · exact absurd rfl (hnone _ hmem)
  · obtain ⟨x, hx, hid⟩ := hlists.all _ hmem rfl
    obtain ⟨xs', x', hxs', hx', hremains⟩ := (hlater xs hxs x hx).2 _ d' t' _ hdelete (t'.all 1)
    exact ⟨tr₁, _, d, d', t, t', xs, xs', x, x', h₀, hdelete, List.mem_cons_self, hdb, hxs, hlists, hrefused 0,
      hxs', hx, hid, hx', hremains⟩

end Listing

end PaymentRecon
