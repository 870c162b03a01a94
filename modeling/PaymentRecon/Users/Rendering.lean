import PaymentRecon.Users.Paging
import PaymentRecon.Users.Signup

/-!
# Rendering — which users a response schema can show

`GET /users/get-users` and `GET /admin/users-orders` show users by schemas that require different columns.
A page with one user that lacks such a column fails as a whole.
-/

namespace PaymentRecon

namespace Users

open Paging

/-! ## Response schemas -/

/-- A column that the schema requires. -/
def required {α : Type} (field msg : String) : Option α → Validated α
  | some x => .ok x
  | none => .error [⟨[field], msg⟩]

/-- The schema `UserTelegramResponseSchema`. -/
structure UserTelegramResponseSchema where
  telegramId : ℤ
  username : Option String
  name : String
  admin : Option Bool
  isActive : Option Bool
  joinedAt : Option ℕ

def UserTelegramResponseSchema.validate (u : User) : Validated UserTelegramResponseSchema := do
  let telegramId ← required "telegram_id" "Input should be a valid integer" u.telegramId
  pure ⟨telegramId, u.username, u.name, some u.admin, some u.isActive, some u.joinedAt⟩

/-- The schema `UserSchema`. -/
structure UserSchema where
  id : Id
  username : String
  name : String
  isActive : Bool

def UserSchema.validate (u : User) : Validated UserSchema := do
  let username ← required "username" "Input should be a valid string" u.username
  pure ⟨u.id, username, u.name, u.isActive⟩

/-- The error of an item, with its path in the list. -/
def ValidationError.within (path : List String) (e : ValidationError) : ValidationError :=
  { e with loc := path ++ e.loc }

/-- A list of a schema, from the index `k` on: the errors of all its items. -/
def validateItems {α β : Type} (validate : α → Validated β) (field : String) :
    ℕ → List α → Validated (List β)
  | _, [] => .ok []
  | k, x :: xs =>
    match validate x, validateItems validate field (k + 1) xs with
    | .ok y, .ok ys => .ok (y :: ys)
    | .ok _, .error errors => .error errors
    | .error errors, .ok _ => .error (errors.map (·.within [field, toString k]))
    | .error errors, .error later => .error (errors.map (·.within [field, toString k]) ++ later)

/-- FastAPI answers 500 when the response does not pass its model. -/
def respond {α : Type} (r : Validated α) : Except HttpError α := r.mapError .responseValidation

/-! ## `GET /users/get-users` -/

def getUsers (params : CursorParams) (t : UserTable) :
    Except HttpError (CursorResponse UserTelegramResponseSchema) := do
  let (users, nextCursor, hasMore) ← (getAllUsers params.cursor params.limit t).mapError .internal
  let items ← respond (validateItems UserTelegramResponseSchema.validate "items" 0 users)
  pure ⟨items, nextCursor, hasMore⟩

/-! ## `GET /admin/users-orders` -/

structure OrderRow extends Order where
  createdAt : ℕ
  deriving DecidableEq

structure PaymentIntentRow extends PaymentIntent where
  createdAt : ℕ
  deriving DecidableEq

/-- Orders of the users, and intents of the orders. -/
structure OrderTables (users : List User) where
  orders : List OrderRow
  intents : List PaymentIntentRow
  orderIds : (orders.map (·.id)).Nodup
  intentIds : (intents.map (·.id)).Nodup
  userId : ∀ o ∈ orders, ∃ u ∈ users, u.id = o.userId
  orderId : ∀ i ∈ intents, 1 ≤ i.id ∧ ∃ o ∈ orders, o.id = i.orderId

/-- One of `formatted_orders`. -/
structure FormattedOrder where
  id : Id
  status : OrderStatus
  user : Option User
  createdAt : ℕ
  amount : Amount
  payment : PaymentIntentRow

/-- `if cursor: stmt.where(PaymentIntent.id > cursor)`. -/
def afterIntent (cursor : Option ℤ) (i : PaymentIntentRow) : Bool :=
  match cursor with
  | none => true
  | some c => c = 0 ∨ c < i.id

variable {users : List User}

/-- `SELECT .. WHERE status = 'PENDING' ORDER BY id`, without its bounds. -/
def OrderTables.pending (db : OrderTables users) : List PaymentIntentRow :=
  (db.intents.filter fun i => i.status = .PENDING).mergeSort fun i j => i.id ≤ j.id

def formatOrder (db : OrderTables users) (pi : PaymentIntentRow) : Except Exc FormattedOrder :=
  match db.orders.find? fun o => o.id = pi.orderId with
  | some o => .ok ⟨o.id, o.status, users.find? fun u => u.id = o.userId, o.createdAt, o.amount, pi⟩
  | none => .error ⟨.attributeError, "'NoneType' object has no attribute 'id'"⟩

/-- `orders` and `next_cursor`. -/
def getPendingOrders (limit : ℕ) (cursor : Option ℤ) (db : OrderTables users) :
    Except Exc (List FormattedOrder × Option Id) := do
  let paymentIntents := (db.pending.filter (afterIntent cursor)).take limit
  let formattedOrders ← paymentIntents.mapM (formatOrder db)
  pure (formattedOrders, paymentIntents.getLast?.map (·.id))

/-- The schema `PaymentIntentSchema`. -/
structure PaymentIntentSchema where
  id : Id
  status : OrderStatus
  exactAmount : Amount
  baseAmount : Amount
  createdAt : ℕ

/-- The schema `OrderResponseSchema`. -/
structure OrderResponseSchema where
  id : Id
  status : OrderStatus
  user : UserSchema
  createdAt : ℕ
  amount : Amount
  payment : PaymentIntentSchema

def OrderResponseSchema.validate (o : FormattedOrder) : Validated OrderResponseSchema := do
  let row ← required "user" "Input should be a valid dictionary or object to extract fields from" o.user
  let user ← (UserSchema.validate row).mapError (List.map (·.within ["user"]))
  let pi := o.payment
  pure ⟨o.id, o.status, user, o.createdAt, o.amount,
    ⟨pi.id, pi.status, pi.exactAmount, pi.baseAmount, pi.createdAt⟩⟩

/-- The schema `PaginatedOrdersResponse`. -/
structure PaginatedOrdersResponse where
  orders : List OrderResponseSchema
  nextCursor : Option Id

def getAllUsersOrders (cursor : Option ℤ) (limit : ℤ) (db : OrderTables users) :
    Except HttpError PaginatedOrdersResponse :=
  let errors := checkInt "limit" (some 1) (some 100) limit
  if errors = [] then do
    let (formatted, nextCursor) ← (getPendingOrders limit.toNat cursor db).mapError .internal
    let orders ← respond (validateItems OrderResponseSchema.validate "orders" 0 formatted)
    pure ⟨orders, nextCursor⟩
  else .error (.unprocessable errors)

/-- Every page of both endpoints passes its response model. -/
structure Rendered (t : UserTable) (db : OrderTables t.rows) : Prop where
  users : ∀ params : CursorParams, 1 ≤ params.limit → ∃ out, getUsers params t = .ok out
  orders : ∀ cursor limit, 1 ≤ limit → limit ≤ 100 → ∃ out, getAllUsersOrders cursor limit db = .ok out

/-! ## Items -/

section Items

variable {α β : Type} {validate : α → Validated β} {field : String}

/-- A list passes when every item does. -/
theorem validateItems_ok {k : ℕ} {xs : List α} :
    (∃ ys, validateItems validate field k xs = .ok ys) ↔ ∀ x ∈ xs, ∃ y, validate x = .ok y := by
  induction xs generalizing k with
  | nil => simp [validateItems]
  | cons x xs ih =>
    rw [List.forall_mem_cons, ← ih (k := k + 1)]
    cases hx : validate x with
    | ok y =>
      cases hxs : validateItems validate field (k + 1) xs with
      | ok ys => simp [validateItems, hx, hxs]
      | error errors => simp [validateItems, hx, hxs]
    | error errors =>
      cases hxs : validateItems validate field (k + 1) xs with
      | ok ys => simp [validateItems, hx, hxs]
      | error later => simp [validateItems, hx, hxs]

/-- An endpoint answers when its response passes. -/
theorem respond_ok {r : Validated α} {g : α → β} :
    (∃ out, (respond r >>= fun x => pure (g x)) = .ok out) ↔ ∃ x, r = .ok x := by
  cases r with
  | ok x => exact ⟨fun _ => ⟨x, rfl⟩, fun _ => ⟨_, rfl⟩⟩
  | error errors => exact ⟨fun ⟨_, h⟩ => (nomatch h), fun ⟨_, h⟩ => (nomatch h)⟩

end Items

theorem telegramResponse_ok {u : User} :
    (∃ out, UserTelegramResponseSchema.validate u = .ok out) ↔ u.telegramId ≠ none := by
  unfold UserTelegramResponseSchema.validate
  cases h : u.telegramId with
  | none => exact ⟨fun ⟨_, hout⟩ => (nomatch hout), fun hne => absurd rfl hne⟩
  | some i => exact ⟨fun _ => by simp, fun _ => ⟨_, rfl⟩⟩

theorem userSchema_ok {u : User} : (∃ out, UserSchema.validate u = .ok out) ↔ u.username ≠ none := by
  unfold UserSchema.validate
  cases h : u.username with
  | none => exact ⟨fun ⟨_, hout⟩ => (nomatch hout), fun hne => absurd rfl hne⟩
  | some i => exact ⟨fun _ => by simp, fun _ => ⟨_, rfl⟩⟩

/-- A page of users passes when each of them has a `telegram_id`. -/
theorem getUsers_ok {params : CursorParams} {t : UserTable} (hn : 1 ≤ params.limit) :
    (∃ out, getUsers params t = .ok out) ↔
      ∀ u ∈ page (fun u : User => u.id) params.limit params.cursor t.ordered, u.telegramId ≠ none := by
  have heq : getUsers params t =
      respond (validateItems UserTelegramResponseSchema.validate "items" 0
        (page (fun u : User => u.id) params.limit params.cursor t.ordered)) >>= fun items =>
      pure ⟨items, if (lookAhead (fun u : User => u.id) hn).more params.cursor t.ordered then
          (page (fun u : User => u.id) params.limit params.cursor t.ordered).getLast?.map (·.id)
        else none,
        (lookAhead (fun u : User => u.id) hn).more params.cursor t.ordered⟩ := by
    unfold getUsers
    rw [getAllUsers_eq hn]
    rfl
  rw [heq, respond_ok, validateItems_ok]
  exact forall₂_congr fun u _ => telegramResponse_ok

/-! ## Users that a page shows -/

/-- A user is on a page of `GET /users/get-users` when less than a hundred have an id between the last
cursor that `CursorParams` accepts and its own. -/
theorem shown_iff {t : UserTable} {u : User} (hu : u ∈ t.rows) :
    (∃ params : CursorParams, 1 ≤ params.limit ∧
      u ∈ page (fun u : User => u.id) params.limit params.cursor t.ordered) ↔
      t.rows.countP (fun v => 20000 < v.id ∧ v.id < u.id) < 100 := by
  have hcount : ∀ cursor : Option ℤ,
      (rest (fun u : User => u.id) cursor t.ordered).countP (fun v => v.id < u.id) =
        t.rows.countP fun v => v.id < u.id && Past (fun u : User => u.id) cursor v := by
    intro cursor
    rw [rest, List.countP_filter, (ordered_perm t).countP_eq]
  constructor
  · rintro ⟨params, -, hpage⟩
    obtain ⟨-, hlt⟩ := (mem_page_iff (ordered_sorted t)).mp hpage
    rw [hcount] at hlt
    refine lt_of_le_of_lt (List.countP_mono_left fun v _ hv => ?_) (hlt.trans_le params.limit_le)
    obtain ⟨hlate, hbefore⟩ := of_decide_eq_true hv
    have hpast : Past (fun u : User => u.id) params.cursor v := fun c hc =>
      (params.cursor_le c hc).trans_lt hlate
    simp [hbefore, hpast]
  · intro h
    refine ⟨⟨some (min 20000 (u.id - 1)), 100, ?_, le_rfl⟩, Nat.le_add_left 1 99, ?_⟩
    · intro c hc
      obtain rfl := Option.some.inj hc
      exact min_le_left _ _
    · have hlast : min 20000 (u.id - 1) < u.id := (min_le_right _ _).trans_lt (Int.sub_lt_self _ one_pos)
      refine (mem_page_iff (ordered_sorted t)).mpr ⟨?_, ?_⟩
      · exact mem_rest.mpr ⟨(ordered_perm t).mem_iff.mpr hu, past_some.mpr hlast⟩
      · rw [hcount]
        refine lt_of_le_of_lt (List.countP_mono_left fun v _ hv => ?_) h
        obtain ⟨hbefore, hpast⟩ : v.id < u.id ∧ min 20000 (u.id - 1) < v.id := by simpa using hv
        refine decide_eq_true ⟨?_, hbefore⟩
        -- nothing is between `u.id - 1` and `u.id`
        rcases min_lt_iff.mp hpast with hlt | hlt
        · exact hlt
        · exact absurd hbefore (not_lt.mpr (Int.le_of_sub_one_lt hlt))

/-- `GET /users/get-users` shows every user it reaches. -/
theorem getUsers_iff (t : UserTable) :
    (∀ params : CursorParams, 1 ≤ params.limit → ∃ out, getUsers params t = .ok out) ↔
      ∀ u ∈ t.rows, u.telegramId = none →
        100 ≤ t.rows.countP fun v => 20000 < v.id ∧ v.id < u.id := by
  constructor
  · intro h u hu hnone
    by_contra hfew
    obtain ⟨params, hn, hpage⟩ := (shown_iff hu).mpr (not_le.mp hfew)
    exact (getUsers_ok hn).mp (h params hn) u hpage hnone
  · intro h params hn
    refine (getUsers_ok hn).mpr fun u hpage hnone => ?_
    have hu : u ∈ t.rows := (ordered_perm t).mem_iff.mp (mem_of_page hpage).1
    exact absurd ((shown_iff hu).mp ⟨params, hn, hpage⟩) (not_lt.mpr (h u hu hnone))

/-! ## Orders that a page shows -/

/-- The user of the intent's order has a username. -/
def Named (db : OrderTables users) (i : PaymentIntentRow) : Prop :=
  ∀ o ∈ db.orders, o.id = i.orderId → ∀ u ∈ users, u.id = o.userId → u.username ≠ none

theorem orderResponse_ok {f : FormattedOrder} {u : User} (hu : f.user = some u) :
    (∃ out, OrderResponseSchema.validate f = .ok out) ↔ u.username ≠ none := by
  rw [← userSchema_ok]
  unfold OrderResponseSchema.validate
  rw [hu]
  change (∃ out, ((UserSchema.validate u).mapError _ >>= _) = .ok out) ↔ _
  cases UserSchema.validate u with
  | ok user => exact ⟨fun _ => ⟨_, rfl⟩, fun _ => ⟨_, rfl⟩⟩
  | error errors => exact ⟨fun ⟨_, h⟩ => (nomatch h), fun ⟨_, h⟩ => (nomatch h)⟩

/-- A key that identifies the rows finds its row. -/
theorem find?_key {α : Type} {key : α → Id} {xs : List α} {x : α} {k : Id} (hnd : (xs.map key).Nodup)
    (hx : x ∈ xs) (hk : key x = k) : xs.find? (fun y => key y = k) = some x := by
  subst hk
  rw [← List.head?_filter, Streams.filter_key hnd hx, List.head?_cons]

/-- An intent has its order and its user; it passes when the user has a username. -/
theorem formatOrder_ok (hnd : (users.map (·.id)).Nodup) {db : OrderTables users} {i : PaymentIntentRow}
    (hi : i ∈ db.intents) :
    ∃ f, formatOrder db i = .ok f ∧ ((∃ out, OrderResponseSchema.validate f = .ok out) ↔ Named db i) := by
  obtain ⟨-, o, ho, hid⟩ := db.orderId i hi
  obtain ⟨u, hu, huid⟩ := db.userId o ho
  have horder : db.orders.find? (fun o => o.id = i.orderId) = some o :=
    find?_key db.orderIds ho hid
  have huser : users.find? (fun v => v.id = o.userId) = some u := find?_key hnd hu huid
  refine ⟨⟨o.id, o.status, some u, o.createdAt, o.amount, i⟩, ?_, ?_⟩
  · unfold formatOrder
    rw [horder, ← huser]
  · rw [orderResponse_ok rfl]
    constructor
    · intro hname o' ho' hid' u' hu' huid'
      obtain rfl := List.inj_on_of_nodup_map db.orderIds ho' ho (hid'.trans hid.symm)
      obtain rfl := List.inj_on_of_nodup_map hnd hu' hu (huid'.trans huid.symm)
      exact hname
    · exact fun hnamed => hnamed o ho hid u hu huid

theorem formatOrders_ok (hnd : (users.map (·.id)).Nodup) {db : OrderTables users}
    {is : List PaymentIntentRow} (h : ∀ i ∈ is, i ∈ db.intents) :
    ∃ fs, is.mapM (formatOrder db) = .ok fs ∧
      ((∀ f ∈ fs, ∃ out, OrderResponseSchema.validate f = .ok out) ↔ ∀ i ∈ is, Named db i) := by
  induction is with
  | nil => exact ⟨[], rfl, by simp⟩
  | cons i is ih =>
    rw [List.forall_mem_cons] at h
    obtain ⟨f, hf, hnamed⟩ := formatOrder_ok hnd h.1
    obtain ⟨fs, hfs, hall⟩ := ih h.2
    refine ⟨f :: fs, ?_, ?_⟩
    · rw [List.mapM_cons, hf, hfs]
      rfl
    · rw [List.forall_mem_cons, List.forall_mem_cons, hnamed, hall]

theorem mem_pending {db : OrderTables users} {i : PaymentIntentRow} :
    i ∈ db.pending ↔ i ∈ db.intents ∧ i.status = .PENDING := by
  simp [OrderTables.pending]

theorem pending_sorted (db : OrderTables users) :
    Sorted (fun i : PaymentIntentRow => i.id) db.pending :=
  sorted_mergeSort (db.intentIds.sublist (List.filter_sublist.map _))

/-- A page of orders passes when all of its users have a username. -/
theorem getAllUsersOrders_ok (hnd : (users.map (·.id)).Nodup) {db : OrderTables users}
    {cursor : Option ℤ} {limit : ℤ} (hlo : 1 ≤ limit) (hhi : limit ≤ 100) :
    (∃ out, getAllUsersOrders cursor limit db = .ok out) ↔
      ∀ i ∈ (db.pending.filter (afterIntent cursor)).take limit.toNat, Named db i := by
  have hmem : ∀ i ∈ (db.pending.filter (afterIntent cursor)).take limit.toNat, i ∈ db.intents :=
    fun i hi => (mem_pending.mp (List.mem_of_mem_filter (List.mem_of_mem_take hi))).1
  obtain ⟨fs, hfs, hall⟩ := formatOrders_ok hnd hmem
  have hlimit : checkInt "limit" (some 1) (some 100) limit = [] := by simp [hlo, hhi]
  have heq : getAllUsersOrders cursor limit db =
      respond (validateItems OrderResponseSchema.validate "orders" 0 fs) >>= fun orders =>
      pure ⟨orders, ((db.pending.filter (afterIntent cursor)).take limit.toNat).getLast?.map (·.id)⟩ := by
    unfold getAllUsersOrders getPendingOrders
    simp only [hlimit, hfs]
    rfl
  rw [heq, respond_ok, validateItems_ok, hall]

/-- `GET /admin/users-orders` shows every PENDING intent: it is the first one after the id before its
own. -/
theorem first_after {db : OrderTables users} {i : PaymentIntentRow} (hi : i ∈ db.intents)
    (hs : i.status = .PENDING) :
    i ∈ (db.pending.filter (afterIntent (some (i.id - 1)))).take 1 := by
  have hsorted : Sorted (fun i : PaymentIntentRow => i.id)
      (db.pending.filter (afterIntent (some (i.id - 1)))) :=
    (pending_sorted db).sublist List.filter_sublist
  have hin : i ∈ db.pending.filter (afterIntent (some (i.id - 1))) := by
    refine List.mem_filter.mpr ⟨mem_pending.mpr ⟨hi, hs⟩, ?_⟩
    exact decide_eq_true (Or.inr (Int.sub_lt_self _ one_pos))
  have hleast : ∀ j ∈ db.pending.filter (afterIntent (some (i.id - 1))), ¬ j.id < i.id := by
    intro j hj hlt
    obtain ⟨hpending, hafter⟩ := List.mem_filter.mp hj
    have hpos : 1 ≤ j.id := (db.orderId j (mem_pending.mp hpending).1).1
    rcases of_decide_eq_true hafter with hzero | hgt
    · -- the cursor 0 is no bound, and the id is 1
      exact absurd (hpos.trans_lt hlt) (by rw [Int.eq_of_sub_eq_zero hzero]; exact lt_irrefl _)
    · exact absurd (Int.le_of_sub_one_lt hgt) (not_le.mpr hlt)
  have hrest : rest (fun i : PaymentIntentRow => i.id) none
      (db.pending.filter (afterIntent (some (i.id - 1)))) =
        db.pending.filter (afterIntent (some (i.id - 1))) := by simp [rest]
  have hpage : i ∈ page (fun i : PaymentIntentRow => i.id) 1 none
      (db.pending.filter (afterIntent (some (i.id - 1)))) := by
    rw [mem_page_iff hsorted, hrest, Nat.lt_one_iff, List.countP_eq_zero]
    exact ⟨hin, fun j hj hlt => hleast j hj (of_decide_eq_true hlt)⟩
  rwa [page, hrest] at hpage

theorem getAllUsersOrders_iff (hnd : (users.map (·.id)).Nodup) (db : OrderTables users) :
    (∀ cursor limit, 1 ≤ limit → limit ≤ 100 → ∃ out, getAllUsersOrders cursor limit db = .ok out) ↔
      ∀ i ∈ db.intents, i.status = .PENDING → Named db i := by
  constructor
  · intro h i hi hs
    refine (getAllUsersOrders_ok hnd le_rfl (by decide)).mp (h (some (i.id - 1)) 1 le_rfl (by decide)) i ?_
    exact first_after hi hs
  · intro h cursor limit hlo hhi
    refine (getAllUsersOrders_ok hnd hlo hhi).mpr fun i hi => ?_
    obtain ⟨hin, hs⟩ := mem_pending.mp (List.mem_of_mem_filter (List.mem_of_mem_take hi))
    exact h i hin hs

/-! ## Every user can be shown -/

/-- The columns that the schemas require, on the rows. -/
theorem rendered_iff_rows (t : UserTable) (db : OrderTables t.rows) :
    Rendered t db ↔
      (∀ u ∈ t.rows, u.telegramId = none → 100 ≤ t.rows.countP fun v => 20000 < v.id ∧ v.id < u.id) ∧
      ∀ i ∈ db.intents, i.status = .PENDING → Named db i := by
  rw [← getUsers_iff, ← getAllUsersOrders_iff t.nodup]
  exact ⟨fun h => ⟨h.users, h.orders⟩, fun h => ⟨h.1, h.2⟩⟩

/-- **Every page can be rendered** exactly when no page reaches a user that `POST /users/register` created,
and no user of an order with a PENDING intent was created by `POST /users/telegram` without a username. -/
theorem users_rendered_iff (calls : List UserCall) (db : OrderTables (runCalls calls).rows) :
    Rendered (runCalls calls) db ↔
      (∀ id, Created calls UserCall.IsRegister id →
        100 ≤ (runCalls calls).rows.countP fun v => 20000 < v.id ∧ v.id < id) ∧
      ∀ i ∈ db.intents, i.status = .PENDING → ∀ o ∈ db.orders, o.id = i.orderId →
        ¬ Created calls UserCall.Nameless o.userId := by
  rw [rendered_iff_rows]
  refine and_congr ⟨fun h id hid => ?_, fun h u hu hnone => ?_⟩
    (forall₄_congr fun i _ _ o => forall₂_congr fun ho _ => ⟨fun h hc => ?_, fun h u hu huid hnone => ?_⟩)
  · obtain ⟨c, u, hc, hu, rfl, hnulls⟩ := exists_user hid
    exact h u hu (hnulls.1.mpr hc)
  · exact h u.id ((registered_iff hu).mpr hnone)
  · obtain ⟨c, u, hnameless, hu, huid, hnulls⟩ := exists_user hc
    exact h u hu huid (hnulls.2.mpr hnameless)
  · exact h (huid ▸ (nameless_iff hu).mpr hnone)

/-- No orders. -/
def noOrders (users : List User) : OrderTables users :=
  ⟨[], [], by simp, by simp, by simp, by simp⟩

/-- One PENDING order of a user. -/
def oneOrder {users : List User} {u : User} (hu : u ∈ users) : OrderTables users where
  orders := [⟨⟨1, u.id, .PENDING, 1500000⟩, 0⟩]
  intents := [⟨⟨1, 1, .PENDING, 1500000, 1500000, none⟩, 0⟩]
  orderIds := by simp
  intentIds := by simp
  userId := by simpa using ⟨u, hu, rfl⟩
  orderId := by simp

/-- A registered user fails `GET /users/get-users`; a Telegram user without a username and with an order
fails `GET /admin/users-orders`. -/
theorem users_unrendered :
    ¬ Rendered (runCalls [.register "moraveji" "password" "Ms" "hash" 0]) (noOrders _) ∧
      ∃ u, ∃ hu : u ∈ (runCalls [.telegram 101 none "moraveji" 0]).rows,
        ¬ Rendered (runCalls [.telegram 101 none "moraveji" 0]) (oneOrder hu) := by
  have hregistered : (runCalls [.register "moraveji" "password" "Ms" "hash" 0]).rows =
      [(⟨none, some "moraveji", some "hash", "Ms"⟩ : NewUser).row 1 0] := rfl
  have htelegram : (runCalls [.telegram 101 none "moraveji" 0]).rows =
      [(⟨some 101, none, none, "moraveji"⟩ : NewUser).row 1 0] := rfl
  constructor
  · intro h
    obtain ⟨hshown, -⟩ := (rendered_iff_rows _ _).mp h
    rw [hregistered] at hshown
    exact absurd (hshown _ (List.mem_singleton_self _) rfl) (by decide)
  · refine ⟨_, htelegram ▸ List.mem_singleton_self _, fun h => ?_⟩
    obtain ⟨-, hnamed⟩ := (rendered_iff_rows _ _).mp h
    exact hnamed _ (List.mem_singleton_self _) rfl _ (List.mem_singleton_self _) rfl _
      (htelegram ▸ List.mem_singleton_self _) rfl rfl

end Users

end PaymentRecon
