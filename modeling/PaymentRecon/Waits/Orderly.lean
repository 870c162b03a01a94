import PaymentRecon.Model.Ordinary
import PaymentRecon.Tables.Growth

/-!
# Orderly — what a session holds when it may have to wait

A statement that waits for another session may itself be waited for.  Every request waits with as little as
possible: it inserts, selects for update and marks published events in a session that holds nothing yet
(`Bare`), settles a row that it locked and nothing else, and marks failed events after published ones
only.  `Orderly` is that discipline; `sound` shows that every request keeps it, whatever fails.
-/

namespace PaymentRecon

open Interleave Rely

namespace Waits

variable {p q : Pid} {w w' : World} {past : List Label}

/-- The session holds neither locks nor writes. -/
structure Bare (p : Pid) (w : World) : Prop where
  locks : (w.txn p).locks = []
  writes : (w.txn p).writes = []

/-- What the session of `p` may hold when it performs the operation. -/
def Orderly (p : Pid) (w : World) : Op → Prop
  | .insertOrder _ _ _ | .lockPending _ | .lockById _ _ | .insertSms _ _ _ _ _ | .publishEvents _
  | .outOfFuel => Bare p w
  | .flushPaid i _ => i.id ∈ (w.txn p).locks ∧ (w.txn p).writes = []
  | .failEvents _ => (w.txn p).locks = [] ∧ ∀ x ∈ (w.txn p).writes, ∃ ids, x = .publish ids
  | _ => True

def logic : Rely sig Exc Response World Request Tick where
  machine := system
  cond := fun _ _ _ _ => True
  inv := fun w _ => Consistent w
  start := fun p w _ => Bare p w
  guard := fun p w _ op => Orderly p w op
  final := fun p _ w _ => Bare p w

/-! ## Assertions -/

abbrev Facts := Assertion sig Exc World Request Tick

abbrev Keeps {β : Type} (p : Pid) (K : Facts) (x : App β) (post : Except Exc β → Facts) : Prop :=
  logic.Ensures p K x post

def AtRest (p : Pid) : Facts := fun w _ => Bare p w

/-- An assertion about the own session is stable. -/
theorem stable_session {K : Txn → Prop} : logic.Stable p fun w _ => K (w.txn p) := by
  intro w past a w' _ hw _ hp h
  rw [wstep_txn hw hp]
  exact h

theorem Bare.congr (h : Bare p w) (ht : w'.txn p = w.txn p) : Bare p w' :=
  ⟨by rw [ht]; exact h.locks, by rw [ht]; exact h.writes⟩

theorem stable_atRest : logic.Stable p (AtRest p) := by
  intro w past a w' _ hw _ hp h
  exact Bare.congr h (wstep_txn hw hp)

theorem Bare.over (h : SessionIs p w w' [] []) : Bare p w' := ⟨h.locks, h.writes⟩

theorem Bare.of_closed (h : w.Closed) (p : Pid) : Bare p w := by
  constructor <;> rw [h p] <;> rfl

/-! ## Operations -/

/-- An operation that leaves a session that holds nothing as it is. -/
def Tame : Op → Prop
  | .insertOrder _ _ _ | .lockPending _ | .lockById _ _ | .flushPaid _ _ | .insertSms _ _ _ _ _
  | .insertEvent _ | .publishEvents _ | .failEvents _ => False
  | _ => True

theorem tame_run {op : Op} {r : Except Exc op.Ret} (ht : Tame op) (h : op.run p w r w')
    (hb : Bare p w) : Bare p w' := by
  cases op with
  | insertOrder _ _ _ | lockPending _ | lockById _ _ | flushPaid _ _ | insertSms _ _ _ _ _
  | insertEvent _ | publishEvents _ | failEvents _ => exact ht.elim
  | spop k =>
    rcases h with ⟨a, -, -, rfl⟩ | ⟨-, -, rfl⟩
    · exact hb.congr rfl
    · exact hb
  | beginSelect =>
    obtain ⟨-, rfl⟩ := h
    exact ⟨by simpa using hb.locks, by simpa using hb.writes⟩
  | claimEvents t s l =>
    obtain ⟨sel, -, -, rfl⟩ := h
    exact hb.congr rfl
  | commit =>
    obtain ⟨-, rfl⟩ := h
    exact .over (SessionIs.setTxn rfl)
  | rollback =>
    obtain ⟨-, rfl⟩ := h
    exact .over (SessionIs.setTxn rfl)
  | xclaim consumer minIdle id =>
    simp only [Op.run] at h
    split_ifs at h
    · obtain ⟨-, rfl⟩ := h
      exact hb.congr rfl
    · obtain ⟨-, rfl⟩ := h
      exact hb
  | intentBySms t => rw [h.1]; exact hb
  | candidate lo hi => rw [h.1]; exact hb
  | outOfFuel => exact h.elim
  | _ =>
    obtain ⟨-, rfl⟩ := h
    exact hb.congr rfl

/-- **One operation** of a session that holds nothing. -/
theorem keeps_tame (op : Op) (ht : Tame op) :
    Keeps p (AtRest p) (await op) fun _ => AtRest p := by
  refine Ensures.perform (fun _ => stable_atRest) ?_ ?_
  · intro w past _ hK
    cases op with
    | insertOrder _ _ _ | lockPending _ | lockById _ _ | flushPaid _ _ | insertSms _ _ _ _ _
    | insertEvent _ | publishEvents _ | failEvents _ => exact ht.elim
    | outOfFuel => exact hK
    | _ => trivial
  · intro f w past r w' _ hK hx _
    rcases exec_cases hx with h | ⟨rfl, -⟩ | ⟨-, r₀, h, -⟩
    · exact tame_run ht h hK
    · exact hK
    · exact tame_run ht h hK

theorem keeps_all {β : Type} {x : App β} {A : Op → Prop} {R : Except Exc β → Prop} (hx : x.All A R)
    (hA : ∀ op, A op → Tame op) : Keeps p (AtRest p) x fun _ => AtRest p :=
  Ensures.all (fun op h => keeps_tame op (hA op h)) hx

theorem keeps_rollback : Keeps p top (await .rollback) fun _ => AtRest p := by
  refine Ensures.perform (fun _ => stable_atRest) (fun _ _ _ _ => trivial) ?_
  intro f w past r w' _ _ hx _
  rcases exec_cases hx with h | ⟨-, e, he, -⟩ | ⟨hl, -⟩
  · obtain ⟨-, rfl⟩ := h
    exact .over (SessionIs.setTxn rfl)
  · exact he.elim
  · simp [Op.Loses, Op.OnRedis] at hl

theorem keeps_rollback_throw {β : Type} (e : Exc) :
    Keeps p top (do await .rollback; throw e : App β) fun _ => AtRest p :=
  Ensures.bind keeps_rollback (fun _ _ _ h => h) fun _ _ _ h => h

/-- The session is over when its commit is acknowledged. -/
theorem keeps_commit : Keeps p top (await .commit) (whenOk fun _ => AtRest p) := by
  refine Ensures.perform (fun r => stable_whenOk (fun _ => stable_atRest) r)
    (fun _ _ _ _ => trivial) ?_
  intro f w past r w' _ _ hx _
  cases r with
  | error e => exact trivial
  | ok a =>
    rcases exec_cases hx with h | ⟨-, e, -, he⟩ | ⟨-, r₀, -, e, -, he⟩
    · obtain ⟨-, rfl⟩ := h
      exact .over (SessionIs.setTxn rfl)
    · cases he
    · cases he

/-- An operation with a guard, of which nothing is needed afterwards. -/
theorem keeps_any {K : Facts} (op : Op) (hg : ∀ w past, K w past → Orderly p w op) :
    Keeps p K (await op) fun _ => top :=
  Ensures.perform (fun _ => Persistent.true.stable) (fun w past _ hK => hg w past hK)
    fun _ _ _ _ _ _ _ _ _ => trivial

/-- An operation that a session holding nothing may perform; an error means that it still holds
nothing. -/
theorem keeps_first (op : Op) (hg : ∀ w, Bare p w → Orderly p w op)
    (hx : ∀ w e w', op.run p w (.error e) w' → Bare p w → Bare p w') (hl : ¬ op.Loses) :
    Keeps p (AtRest p) (await op) fun r => match r with
      | .ok _ => top
      | .error _ => AtRest p := by
  refine Ensures.perform ?_ (fun w _ _ hK => hg w hK) ?_
  · intro r
    cases r with
    | ok _ => exact Persistent.true.stable
    | error _ => exact stable_atRest
  · intro f w past r w' _ hK hex _
    cases r with
    | ok _ => exact trivial
    | error e =>
      rcases exec_cases hex with h | ⟨rfl, -⟩ | ⟨hlost, -⟩
      · exact hx w e w' h hK
      · exact hK
      · exact (hl hlost).elim

/-! ## Creating an order -/

/-- An operation on the pool. -/
def Draws : Op → Prop
  | .spop _ | .smove _ _ _ | .sadd _ _ | .scard _ | .candidate _ _ => True
  | _ => False

theorem Draws.tame {op : Op} (h : Draws op) : Tame op := by
  cases op <;> first
    | exact h.elim
    | trivial

theorem all_getUniqueAmount (b : Option Amount) : (getUniqueAmount b).All Draws fun _ => True := by
  unfold getUniqueAmount
  refine all_try (all_seq (all_await trivial) fun given => ?_) fun e => ?_
  · cases given with
    | none => trivial
    | some a => exact all_seq (all_await trivial) fun _ => trivial
  · split_ifs
    · exact all_seq (all_await trivial) fun _ => trivial
    · trivial

theorem all_logStatistics : logStatistics.All Draws fun _ => True :=
  all_try (all_seq (all_await trivial) fun _ => all_seq (all_await trivial) fun _ => trivial)
    fun _ => trivial

theorem all_compensate (a : Amount) : (compensate a).All Draws fun _ => True :=
  all_try (all_seq (all_await trivial) fun _ => all_await trivial) fun _ => trivial

theorem insertOrder_refused {userId : Id} {amount a : Amount} {e : Exc}
    (h : (Op.insertOrder userId amount a).run p w (.error e) w') (hb : Bare p w) : Bare p w' := by
  simp only [Op.run] at h
  split_ifs at h
  · obtain ⟨-, ⟨-, -, rfl⟩ | ⟨-, hr, -⟩⟩ := h
    · exact hb.congr rfl
    · cases hr
  · rw [h.2]
    exact hb

theorem keeps_createOrderLoop (userId : Id) (amount : Amount) (n : ℕ) :
    Keeps p (AtRest p) (createOrderLoop userId amount n) fun _ => top := by
  induction n with
  | zero => exact fun _ _ _ => trivial
  | succ n ih =>
    unfold createOrderLoop
    refine Ensures.bind (keeps_all (all_getUniqueAmount _) fun _ => Draws.tame) ?_
      fun _ _ _ _ => trivial
    intro unique
    split
    · exact Ensures.bind (keeps_all all_logStatistics fun _ => Draws.tame) (fun _ _ _ _ => trivial)
        fun _ _ _ _ => trivial
    · rename_i u _
      refine Ensures.tryCatch (m := fun r => match r with
        | .ok _ => top
        | .error _ => AtRest p) ?_ (fun _ _ _ h => h) ?_
      · refine Ensures.bind (keeps_first (.insertOrder userId amount u.value) (fun _ h => h)
          (fun _ _ _ => insertOrder_refused) (by simp [Op.Loses, Op.OnRedis])) ?_ fun _ _ _ h => h
        exact fun _ _ _ _ => trivial
      · intro e
        have hrefund : ∀ e' : Exc, Keeps p (AtRest p)
            (do compensate u.value; throw e' : App (Option Order)) fun _ => top := fun e' =>
          Ensures.bind (keeps_all (all_compensate _) fun _ => Draws.tame) (fun _ _ _ _ => trivial)
            fun _ _ _ _ => trivial
        split_ifs
        · exact hrefund _
        · exact ih
        · exact fun _ _ _ => trivial
        · exact hrefund _
        · exact fun _ _ _ => trivial

/-- The endpoint ends its session, whatever its body left open. -/
theorem keeps_withDb {β : Type} {body : App β}
    (h : Keeps p (AtRest p) body (whenOk fun _ => AtRest p)) :
    Keeps p (AtRest p) (withDb body) fun _ => AtRest p :=
  Ensures.tryCatch (m := whenOk fun _ => AtRest p) h (fun _ _ _ h => h) fun e =>
    (keeps_rollback_throw e).pre fun _ _ _ => trivial

theorem keeps_createOrder (userId : Id) (amount : Amount) :
    Keeps p (AtRest p) (createOrder userId amount) fun _ => AtRest p := by
  refine keeps_withDb (Ensures.tryCatch (m := whenOk fun _ => AtRest p) ?_ (fun _ _ _ h => h) ?_)
  · refine Ensures.bind (keeps_createOrderLoop userId amount 3) ?_ fun _ _ _ _ => trivial
    intro order
    cases order with
    | none => exact fun _ _ _ => trivial
    | some o =>
      refine Ensures.bind keeps_commit ?_ fun _ _ _ _ => trivial
      intro _
      exact Ensures.bind (keeps_tame (.refreshOrder o.id) trivial) (fun _ _ _ h => h)
        fun _ _ _ _ => trivial
  · intro e
    have herr : ∀ e' : Exc, Keeps p top (do await .rollback; throw e' : App Response)
        (whenOk fun _ => AtRest p) := fun e' =>
      (keeps_rollback_throw e').mono fun r _ _ h => by
        cases r with
        | ok _ => exact h
        | error _ => trivial
    split
    · exact fun _ _ _ => trivial
    · exact herr _
    · exact herr _

/-! ## The webhook -/

theorem keeps_createTransactionService (s : SmsData) :
    Keeps p (AtRest p) (createTransactionService s) fun _ => top := by
  unfold createTransactionService
  split
  · refine Ensures.tryCatch (m := fun _ => top) (keeps_any _ fun _ _ h => h) (fun _ _ _ h => h) ?_
    intro e
    split_ifs <;> exact fun _ _ h => h
  · exact fun _ _ _ => trivial

theorem keeps_createOutboxEventService (data : Json) :
    Keeps p top (createOutboxEventService data) fun _ => top := by
  unfold createOutboxEventService
  split_ifs
  · exact fun _ _ h => h
  · refine Ensures.tryCatch (m := fun _ => top) (keeps_any _ fun _ _ _ => trivial)
      (fun _ _ _ h => h) ?_
    intro e
    split_ifs <;> exact fun _ _ h => h

theorem keeps_handleTransactionService (s : SmsData) :
    Keeps p (AtRest p) (handleTransactionService s) (whenOk fun _ => AtRest p) := by
  unfold handleTransactionService
  have herr : ∀ e : Exc, Keeps p top (do await .rollback; throw e : App Id)
      (whenOk fun _ => AtRest p) := fun e =>
    (keeps_rollback_throw e).mono fun r _ _ h => by
      cases r with
      | ok _ => exact h
      | error _ => trivial
  refine Ensures.tryCatch (m := whenOk fun _ => AtRest p) ?_ (fun _ _ _ h => h) ?_
  · refine Ensures.bind (keeps_createTransactionService s) ?_ fun _ _ _ h => h
    intro transaction
    cases traceIdOf s with
    | error e => exact fun _ _ h => h
    | ok traceId =>
      simp only [Prog.ofExcept_ok, Prog.ret_bind]
      refine Ensures.bind (keeps_createOutboxEventService _) ?_ fun _ _ _ h => h
      intro _
      exact Ensures.bind keeps_commit (fun _ _ _ h => h) fun _ _ _ h => h
  · intro e
    split
    · exact herr _
    · exact herr _
    · exact herr _
    · exact herr _
    · exact fun _ _ h => h

theorem keeps_receiveTransaction (s : SmsData) :
    Keeps p (AtRest p) (receiveTransaction s) fun _ => AtRest p := by
  refine keeps_withDb (Ensures.tryCatch (m := whenOk fun _ => AtRest p) ?_ (fun _ _ _ h => h) ?_)
  · exact Ensures.bind (keeps_handleTransactionService s) (fun _ _ _ h => h) fun _ _ _ h => h
  · intro e
    split <;> exact fun _ _ h => h

/-! ## Settling an order -/

/-- The session locked the rows and wrote nothing. -/
def HasLocked (p : Pid) (rows : List PaymentIntent) : Facts := fun w _ =>
  (∀ i ∈ rows, i.id ∈ (w.txn p).locks) ∧ (w.txn p).writes = []

theorem stable_hasLocked (rows : List PaymentIntent) : logic.Stable p (HasLocked p rows) :=
  stable_session (K := fun t => (∀ i ∈ rows, i.id ∈ t.locks) ∧ t.writes = [])

theorem locks_hasLocked (past : List Label) {sel : PaymentIntent → Bool}
    {r : Except Exc (List PaymentIntent)} (h : w.Locks p sel r w') (hb : Bare p w) : ∃ rows, r = .ok rows ∧ HasLocked p rows w' past := by
  obtain ⟨-, rfl, rfl⟩ := h
  refine ⟨_, rfl, fun i hi => ?_, ?_⟩
  · rw [lock_locks, if_pos rfl]
    exact List.mem_append_right _ (List.mem_map_of_mem hi)
  · rw [lock_writes]
    exact hb.writes

/-- The locking SELECT of a settlement. -/
theorem keeps_lock (op : Op) (hret : op.Ret = List PaymentIntent)
    (hg : ∀ w, Bare p w → Orderly p w op)
    (hx : ∀ f w (rows : op.Ret) w' past, exec f p op w (.ok rows) w' → Bare p w →
      HasLocked p (cast hret rows) w' past) :
    Keeps p (AtRest p) (await op) (whenOk fun rows => HasLocked p (cast hret rows)) := by
  refine Ensures.perform (fun r => stable_whenOk (fun _ => stable_hasLocked _) r)
    (fun w _ _ hK => hg w hK) ?_
  intro f w past r w' _ hK hex _
  cases r with
  | ok rows => exact hx f w rows w' past hex hK
  | error e => exact trivial

theorem exec_ok {f : Fault} {op : Op} {a : op.Ret} (h : exec f p op w (.ok a) w') :
    op.run p w (.ok a) w' := by
  rcases exec_cases h with h | ⟨-, e, -, he⟩ | ⟨-, r₀, -, e, -, he⟩
  · exact h
  · cases he
  · cases he

theorem keeps_lockPending (a : Json) :
    Keeps p (AtRest p) (await (.lockPending a)) (whenOk (HasLocked p)) := by
  refine keeps_lock (.lockPending a) rfl (fun _ h => h) ?_
  intro f w rows w' past hex hb
  have h := exec_ok hex
  simp only [Op.run] at h
  split at h
  · obtain ⟨hr, rfl⟩ := h
    cases hr
    exact ⟨by simp, hb.writes⟩
  · split at h
    · obtain ⟨rows', hr, hl⟩ := locks_hasLocked past h hb
      cases hr
      exact hl
    · cases h.1

theorem keeps_lockById (paymentId orderId : Id) :
    Keeps p (AtRest p) (await (.lockById paymentId orderId)) (whenOk (HasLocked p)) := by
  refine keeps_lock (.lockById paymentId orderId) rfl (fun _ h => h) ?_
  intro f w rows w' past hex hb
  have h := exec_ok hex
  simp only [Op.run] at h
  split_ifs at h
  · obtain ⟨rows', hr, hl⟩ := locks_hasLocked past h hb
    cases hr
    exact hl
  · cases h.1

theorem keeps_scalarOne (rows : List PaymentIntent) :
    Keeps p (HasLocked p rows) (scalarOne rows) (whenOk fun i => HasLocked p [i]) := by
  match rows with
  | [] => exact fun _ _ _ => trivial
  | [i] => exact fun _ _ h => h
  | _ :: _ :: _ => exact fun _ _ _ => trivial

/-- The settlement of the row that was locked. -/
theorem keeps_flushPaid (i : PaymentIntent) (t : Option Id) :
    Keeps p (HasLocked p [i]) (await (.flushPaid i t)) fun _ => top :=
  keeps_any _ fun _ _ h => ⟨h.1 i (List.mem_singleton_self i), h.2⟩

theorem keeps_processPendingPayment (amount t : Json) :
    Keeps p (AtRest p) (processPendingPayment amount t) fun _ => top := by
  unfold processPendingPayment
  split_ifs
  · exact fun _ _ _ => trivial
  · refine Ensures.bind (keeps_tame (.intentBySms t) trivial) ?_ fun _ _ _ _ => trivial
    intro already
    cases already with
    | some i => exact fun _ _ _ => trivial
    | none =>
      refine Ensures.bind (keeps_tame .beginSelect trivial) ?_ fun _ _ _ _ => trivial
      intro _
      refine Ensures.bind (keeps_lockPending amount) ?_ fun _ _ _ _ => trivial
      intro rows
      refine Ensures.tryCatch (m := fun _ => top) ?_ (fun _ _ _ h => h) fun e _ _ h => h
      refine Ensures.bind (keeps_scalarOne rows) ?_ fun _ _ _ _ => trivial
      intro i
      exact Ensures.bind (keeps_flushPaid i _) (fun _ _ _ h => h) fun _ _ _ h => h

/-- **The handler of payment messages** ends its session. -/
theorem keeps_handlePayment (m : Message) :
    Keeps p (AtRest p) (handlePayment m) fun _ => AtRest p := by
  unfold handlePayment
  refine Ensures.tryCatch (m := whenOk fun _ => AtRest p) ?_ (fun _ _ _ h => h) fun e =>
    keeps_rollback_throw _
  cases m.data.get "amount" with
  | error e => exact fun _ _ _ => trivial
  | ok amount =>
    cases m.data.get "transaction_id" with
    | error e => exact fun _ _ _ => trivial
    | ok t =>
      simp only [Prog.ofExcept_ok, Prog.ret_bind]
      refine Ensures.bind (keeps_processPendingPayment amount t) ?_ fun _ _ _ h => h
      rintro ⟨i, settled⟩
      refine Ensures.bind keeps_commit ?_ fun _ _ _ h => h
      intro _
      cases settled with
      | false => exact fun _ _ h => h
      | true =>
        exact Ensures.bind (keeps_tame (.smove .pendingOrders .freeAmounts amount.asInt) trivial)
          (fun _ _ _ h => h) fun _ _ _ _ => trivial

theorem keeps_handlePendingPayment (orderId paymentId : Id) :
    Keeps p (AtRest p) (handlePendingPayment orderId paymentId) fun _ => top := by
  unfold handlePendingPayment
  refine Ensures.bind (keeps_tame .beginSelect trivial) ?_ fun _ _ _ _ => trivial
  intro _
  refine Ensures.bind (keeps_lockById paymentId orderId) ?_ fun _ _ _ _ => trivial
  intro rows
  refine Ensures.tryCatch (m := fun _ => top) ?_ (fun _ _ _ h => h) ?_
  · refine Ensures.bind (keeps_scalarOne rows) ?_ fun _ _ _ _ => trivial
    intro i
    refine Ensures.bind (keeps_flushPaid i none) ?_ fun _ _ _ h => h
    intro _
    exact Ensures.bind (keeps_any (.smove .pendingOrders .freeAmounts i.exactAmount)
      fun _ _ _ => trivial) (fun _ _ _ h => h) fun _ _ _ h => h
  · intro e
    split_ifs <;> exact fun _ _ h => h

theorem keeps_confirmPayment (orderId paymentId : Id) :
    Keeps p (AtRest p) (confirmPayment orderId paymentId) fun _ => AtRest p := by
  refine keeps_withDb (Ensures.tryCatch (m := whenOk fun _ => AtRest p) ?_ (fun _ _ _ h => h) ?_)
  · refine Ensures.bind (keeps_handlePendingPayment orderId paymentId) ?_ fun _ _ _ _ => trivial
    intro i
    exact Ensures.bind keeps_commit (fun _ _ _ h => h) fun _ _ _ h => h
  · intro e
    refine Ensures.bind keeps_rollback ?_ fun _ _ _ _ => trivial
    intro _
    split_ifs <;> exact fun _ _ _ => trivial

/-! ## The relay -/

/-- An operation of the relay before it updates the events. -/
def Announces : Op → Prop
  | .xadd _ | .xaddDead _ | .now => True
  | _ => False

theorem Announces.tame {op : Op} (h : Announces op) : Tame op := by
  cases op <;> first
    | exact h.elim
    | trivial

theorem all_processEvents (events : List ClaimedEvent) :
    (processEvents events).All Announces fun _ => True := by
  induction events with
  | nil => trivial
  | cons event events ih =>
    refine all_seq ?_ fun _ => all_seq ih fun _ => trivial
    unfold processSingleOutboxEvent
    split
    · refine all_try (all_seq (all_seq (all_await trivial) fun _ => all_await trivial)
        fun _ => trivial) fun e => ?_
      split_ifs <;> trivial
    · refine all_try (all_seq (all_seq (all_await trivial) fun _ => all_await trivial)
        fun _ => trivial) fun e => ?_
      split_ifs <;> trivial

/-- The session marked events as published, and nothing else. -/
def HasPublished (p : Pid) : Facts := fun w _ =>
  (w.txn p).locks = [] ∧ ∀ x ∈ (w.txn p).writes, ∃ ids, x = .publish ids

theorem keeps_publishStmt (ids : List Id) :
    Keeps p (AtRest p) (publishStmt ids) (whenOk fun _ => HasPublished p) := by
  unfold publishStmt
  split_ifs
  · exact fun w _ h => ⟨h.locks, by rw [h.writes]; simp⟩
  · refine Ensures.perform (fun r => stable_whenOk (fun _ => stable_session
      (K := fun t => t.locks = [] ∧ ∀ x ∈ t.writes, ∃ ids, x = .publish ids)) r)
      (fun _ _ _ h => h) ?_
    intro f w past r w' _ hK hex _
    cases r with
    | error e => exact trivial
    | ok a =>
      obtain ⟨-, -, rfl⟩ := exec_ok hex
      refine ⟨?_, fun x hx => ?_⟩
      · have hl : ((w.flush p [.publish ids]).txn p).locks = (w.txn p).locks := by simp [World.flush]
        rw [hl]
        exact hK.locks
      · rw [flush_writes, if_pos rfl, hK.writes] at hx
        exact ⟨ids, List.mem_singleton.mp hx⟩

theorem keeps_processOutboxUpdates (updates : List EventUpdate) :
    Keeps p (AtRest p) (processOutboxUpdates updates) fun _ => AtRest p := by
  unfold processOutboxUpdates
  split_ifs
  · exact fun _ _ h => h
  · refine Ensures.tryCatch (m := whenOk fun _ => AtRest p) ?_ (fun _ _ _ h => h) fun e =>
      keeps_rollback_throw e
    refine Ensures.bind (keeps_publishStmt _) ?_ fun _ _ _ h => h
    intro _
    refine Ensures.bind (m := fun _ => top) ?_ (fun _ => keeps_commit) fun _ _ _ h => h
    unfold errorStmt
    split_ifs
    · exact fun _ _ _ => trivial
    · exact keeps_any _ fun _ _ h => h

theorem keeps_processOutboxEvent :
    Keeps p (AtRest p) processOutboxEvent fun _ => AtRest p := by
  unfold processOutboxEvent
  refine Ensures.bind (m := fun _ => AtRest p) ?_ ?_ fun _ _ _ h => h
  · unfold claimProcessEvents
    exact Ensures.bind (keeps_tame .now trivial) (fun _ => keeps_tame _ trivial) fun _ _ _ h => h
  · intro events
    split_ifs
    · exact fun _ _ h => h
    · refine Ensures.bind (keeps_all (all_processEvents events) fun _ => Announces.tame) ?_
        fun _ _ _ h => h
      intro updates
      exact Ensures.bind (keeps_processOutboxUpdates updates) (fun _ _ _ h => h) fun _ _ _ h => h

/-! ## The startup -/

theorem tame_seeds {op : Op} (h : Seeds op) : Tame op := by
  rcases h with h | h <;> cases op <;> first
    | exact h.elim
    | trivial

/-! ## All requests -/

theorem keeps_prog (q : Request) : Keeps p (AtRest p) q.prog fun _ => AtRest p := by
  cases q with
  | createOrder userId amount => exact keeps_createOrder userId amount
  | confirmPayment orderId paymentId => exact keeps_confirmPayment orderId paymentId
  | handlePayment m =>
    exact Ensures.bind (keeps_handlePayment m) (fun _ _ _ h => h) fun _ _ _ h => h
  | receiveTransaction s => exact keeps_receiveTransaction s
  | processOutboxEvent => exact keeps_processOutboxEvent
  | work workerId =>
    refine ensures_turn (fun op h => keeps_tame op ?_) (fun m => keeps_handlePayment m) workerId
    cases op <;> first
      | exact h.elim
      | trivial
  | replayDlq y =>
    refine keeps_all (all_replayDlqDashboard y) fun op h => ?_
    cases op <;> first
      | exact h.elim
      | trivial
  | lifespan fuel => exact keeps_all (seeds_lifespan fuel) fun _ => tame_seeds

/-- **Every request waits with as little as possible.** -/
theorem sound : logic.Sound where
  prog p q w past w' _ _ := (keeps_prog q).pre fun _ _ h => h.1
  start p := stable_atRest
  begin w past p q h := h
  spawn w past p q h _ := h
  run f w past p op r w' h _ hx _ := h.tableStep (exec_tableStep hx)
  crash w past p h _ := h.tableStep (.rollback (p := p) rfl (SessionIs.setTxn rfl))
  outer w past x h _ := by
    cases x
    exact h.tableStep (.same (p := 0) rfl rfl)

end Waits

end PaymentRecon
