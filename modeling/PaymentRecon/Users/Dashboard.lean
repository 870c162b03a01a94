import PaymentRecon.Settle.Agree
import PaymentRecon.Users.Rendering

/-!
# Dashboard — the pending orders page by page, while the service goes on

`GET /admin/users-orders` answers one page of the PENDING intents, and the id of its last intent as the
next cursor; an empty page has none.  Between two pages orders are created and settled.
-/

namespace PaymentRecon

open Interleave Lts Paging

namespace Users

/-! ## What a page shows -/

variable {users : List User} {rows : OrderTables users} {i : PaymentIntentRow} {cursor : Option ℤ}
  {limit : ℤ} {next : Option Id} {orders : List OrderResponseSchema} {o : OrderResponseSchema}

/-- The item of the response for an intent: the intent, its order and the user of the order. -/
structure Shown (rows : OrderTables users) (i : PaymentIntentRow) (o : OrderResponseSchema) : Prop where
  payment : o.payment = ⟨i.id, i.status, i.exactAmount, i.baseAmount, i.createdAt⟩
  order : ∃ row ∈ rows.orders, row.id = i.orderId ∧ o.id = row.id ∧ o.status = row.status ∧
    o.amount = row.amount ∧ o.user.id = row.userId

theorem mapM_forall₂ {α β : Type} {f : α → Except Exc β} {xs : List α} {ys : List β}
    (h : xs.mapM f = .ok ys) : List.Forall₂ (fun x y => f x = .ok y) xs ys := by
  induction xs generalizing ys with
  | nil =>
    obtain rfl := Except.ok.inj h
    exact .nil
  | cons x xs ih =>
    rw [List.mapM_cons] at h
    cases hx : f x with
    | error e =>
      rw [hx] at h
      cases h
    | ok y =>
      cases hxs : xs.mapM f with
      | error e =>
        rw [hx, hxs] at h
        cases h
      | ok zs =>
        rw [hx, hxs] at h
        obtain rfl := Except.ok.inj h
        exact .cons hx (ih hxs)

theorem validateItems_forall₂ {α β : Type} {validate : α → Validated β} {field : String} {k : ℕ}
    {xs : List α} {ys : List β} (h : validateItems validate field k xs = .ok ys) :
    List.Forall₂ (fun x y => validate x = .ok y) xs ys := by
  induction xs generalizing k ys with
  | nil =>
    obtain rfl := Except.ok.inj h
    exact .nil
  | cons x xs ih =>
    unfold validateItems at h
    split at h
    · rename_i y zs hx hxs
      obtain rfl := Except.ok.inj h
      exact .cons hx (ih hxs)
    all_goals cases h

theorem userSchema_id {u : User} {v : UserSchema} (h : UserSchema.validate u = .ok v) : v.id = u.id := by
  unfold UserSchema.validate at h
  cases hname : u.username with
  | none =>
    rw [hname] at h
    cases h
  | some username =>
    rw [hname] at h
    exact (UserSchema.mk.inj (Except.ok.inj h)).1.symm

theorem shown_of {f : FormattedOrder} (hf : formatOrder rows i = .ok f)
    (ho : OrderResponseSchema.validate f = .ok o) : Shown rows i o := by
  unfold formatOrder at hf
  split at hf
  · rename_i row hrow
    obtain rfl := Except.ok.inj hf
    have hid : row.id = i.orderId := by simpa using List.find?_some hrow
    unfold OrderResponseSchema.validate at ho
    cases huser : users.find? fun u => u.id = row.userId with
    | none =>
      simp only [huser] at ho
      cases ho
    | some u =>
      simp only [huser] at ho
      change ((UserSchema.validate u).mapError _ >>= _) = .ok o at ho
      cases hv : UserSchema.validate u with
      | error errors =>
        rw [hv] at ho
        cases ho
      | ok v =>
        rw [hv] at ho
        obtain rfl := Except.ok.inj ho
        have hu : u.id = row.userId := by simpa using List.find?_some huser
        exact ⟨rfl, row, List.mem_of_find?_eq_some hrow, hid, rfl, rfl, rfl, (userSchema_id hv).trans hu⟩
  · cases hf

theorem shown_all {is : List PaymentIntentRow} {fs : List FormattedOrder}
    (hf : List.Forall₂ (fun i f => formatOrder rows i = .ok f) is fs)
    (ho : List.Forall₂ (fun f o => OrderResponseSchema.validate f = .ok o) fs orders) :
    List.Forall₂ (Shown rows) is orders := by
  induction hf generalizing orders with
  | nil =>
    cases ho
    exact .nil
  | cons hi _ ih =>
    cases ho with
    | cons hx hxs => exact .cons (shown_of hi hx) (ih hxs)

/-- The intents on a page: the first ones after the cursor. -/
def onPage (cursor : Option ℤ) (limit : ℤ) (rows : OrderTables users) : List PaymentIntentRow :=
  (rows.pending.filter (afterIntent cursor)).take limit.toNat

/-- **A page** shows its intents, and answers the id of the last one. -/
theorem getAllUsersOrders_shown (h : getAllUsersOrders cursor limit rows = .ok ⟨orders, next⟩) :
    (1 ≤ limit ∧ limit ≤ 100) ∧ List.Forall₂ (Shown rows) (onPage cursor limit rows) orders ∧
      next = (onPage cursor limit rows).getLast?.map (·.id) := by
  unfold getAllUsersOrders at h
  dsimp only at h
  split_ifs at h with hlimit
  have hbounds : 1 ≤ limit ∧ limit ≤ 100 := by simpa using hlimit
  change (((onPage cursor limit rows).mapM (formatOrder rows) >>= fun fs =>
    pure (fs, (onPage cursor limit rows).getLast?.map (·.id))).mapError HttpError.internal >>= _) = _ at h
  cases hformat : (onPage cursor limit rows).mapM (formatOrder rows) with
  | error e =>
    rw [hformat] at h
    cases h
  | ok fs =>
    have hfs := mapM_forall₂ hformat
    rw [hformat] at h
    change (respond (validateItems OrderResponseSchema.validate "orders" 0 fs) >>= _) = _ at h
    cases hitems : validateItems OrderResponseSchema.validate "orders" 0 fs with
    | error errors =>
      rw [hitems] at h
      cases h
    | ok items =>
      rw [hitems] at h
      obtain ⟨rfl, rfl⟩ := PaginatedOrdersResponse.mk.inj (Except.ok.inj h)
      exact ⟨hbounds, shown_all hfs (validateItems_forall₂ hitems), rfl⟩

/-! ## Reading the pages -/

/-- The tables that a request reads: those of the state, with the columns that only responses show. -/
structure Tables (db : Db) where
  users : List User
  rows : OrderTables users
  userIds : (users.map (·.id)).Nodup
  orders : rows.orders.map (·.toOrder) = db.orders
  intents : rows.intents.map (·.toPaymentIntent) = db.intents

/-- A page, and the state that it was read in. -/
structure Reading where
  state : State
  orders : List OrderResponseSchema

/-- The readings of the requests from a cursor on, up to the one without a next cursor; the service goes
on from `c` to `c'` between them. -/
inductive Browses (limit : ℤ) : Option ℤ → State → List Reading → State → Prop
  | last {cursor : Option ℤ} {c : State} {orders : List OrderResponseSchema} (t : Tables c.world.db)
      (h : getAllUsersOrders cursor limit t.rows = .ok ⟨orders, none⟩) :
      Browses limit cursor c [⟨c, orders⟩] c
  | next {cursor : Option ℤ} {c c₁ c' : State} {orders : List OrderResponseSchema} {nextCursor : Id}
      {tr : List Label} {pages : List Reading} (t : Tables c.world.db)
      (h : getAllUsersOrders cursor limit t.rows = .ok ⟨orders, some nextCursor⟩)
      (hr : Run Steps c tr c₁) (hb : Browses limit (some nextCursor) c₁ pages c') :
      Browses limit cursor c (⟨c, orders⟩ :: pages) c'

variable {c c' : State} {tr : List Label} {pages : List Reading} {id : Id}

/-- The ids of the PENDING intents, in order. -/
def Tables.pendingIds {db : Db} (t : Tables db) : List Id := t.rows.pending.map (·.id)

theorem Tables.mem_pending {db : Db} (t : Tables db) {i : PaymentIntentRow} (hi : i ∈ t.rows.pending) :
    i.toPaymentIntent ∈ db.intents ∧ i.status = .PENDING := by
  obtain ⟨hi, hs⟩ := Users.mem_pending.mp hi
  exact ⟨t.intents ▸ List.mem_map_of_mem hi, hs⟩

theorem Tables.mem_pendingIds {db : Db} (t : Tables db) :
    id ∈ t.pendingIds ↔ ∃ i ∈ db.intents, i.status = .PENDING ∧ i.id = id := by
  constructor
  · intro h
    obtain ⟨i, hi, rfl⟩ := List.mem_map.mp h
    obtain ⟨hmem, hs⟩ := t.mem_pending hi
    exact ⟨i.toPaymentIntent, hmem, hs, rfl⟩
  · rintro ⟨i, hi, hs, rfl⟩
    rw [← t.intents] at hi
    obtain ⟨row, hrow, rfl⟩ := List.mem_map.mp hi
    exact List.mem_map.mpr ⟨row, Users.mem_pending.mpr ⟨hrow, hs⟩, rfl⟩

theorem Tables.sorted {db : Db} (t : Tables db) : Sorted (fun k : Id => k) t.pendingIds := by
  have hid : t.pendingIds.map (fun k => k) = t.pendingIds := List.map_id' _
  rw [Sorted, hid]
  exact pending_sorted t.rows

/-- A cursor other than 0, which a request would take for none. -/
def Proper (cursor : Option ℤ) : Prop := ∀ c ∈ cursor, 1 ≤ c

theorem proper_none : Proper none := by simp [Proper]

/-- The ids on a page. -/
theorem onPage_ids {db : Db} (t : Tables db) (hc : Proper cursor) :
    (onPage cursor limit t.rows).map (·.id) =
      page (fun k : Id => k) limit.toNat cursor t.pendingIds := by
  have hfilter : t.rows.pending.filter (afterIntent cursor) =
      rest (fun i : PaymentIntentRow => i.id) cursor t.rows.pending := by
    refine List.filter_congr fun i _ => ?_
    cases cursor with
    | none => simp [afterIntent]
    | some k =>
      have hk : k ≠ 0 := by
        have := hc k rfl
        omega
      simp [afterIntent, hk]
  rw [onPage, hfilter]
  exact page_keys

theorem shown_ids {is : List PaymentIntentRow} (h : List.Forall₂ (Shown rows) is orders) :
    orders.map (·.payment.id) = is.map (·.id) := by
  induction h with
  | nil => rfl
  | cons hi _ ih => rw [List.map_cons, List.map_cons, ih, hi.payment]

/-- A page of ids, and the cursor after it. -/
theorem page_ids {db : Db} (t : Tables db) (hc : Proper cursor)
    (h : getAllUsersOrders cursor limit t.rows = .ok ⟨orders, next⟩) :
    0 < limit.toNat ∧
      orders.map (·.payment.id) = page (fun k : Id => k) limit.toNat cursor t.pendingIds ∧
      next = (page (fun k : Id => k) limit.toNat cursor t.pendingIds).getLast? := by
  obtain ⟨hlimit, hshown, hnext⟩ := getAllUsersOrders_shown h
  refine ⟨by omega, (shown_ids hshown).trans (onPage_ids t hc), ?_⟩
  rw [hnext, ← onPage_ids t hc, List.getLast?_map]

/-- The next cursor is an id. -/
theorem next_proper {db : Db} (t : Tables db) (hc : Proper cursor)
    (h : getAllUsersOrders cursor limit t.rows = .ok ⟨orders, next⟩) : Proper next := by
  intro k hk
  rw [(page_ids t hc h).2.2] at hk
  obtain ⟨hmem, -⟩ := mem_of_page (List.mem_of_getLast? hk)
  obtain ⟨i, hi, rfl⟩ := List.mem_map.mp hmem
  exact (t.rows.orderId i (Users.mem_pending.mp hi).1).1

theorem Browses.run (h : Browses limit cursor c pages c') : ∃ tr, Run Steps c tr c' := by
  induction h with
  | last _ _ => exact ⟨[], .nil⟩
  | next _ _ hr _ ih =>
    obtain ⟨tr', hr'⟩ := ih
    exact ⟨_, hr.append hr'⟩

/-- **A walk over the ids**: one list for every state that a page was read in. -/
theorem Browses.walk (h : Browses limit cursor c pages c') (hc : Proper cursor) :
    ∃ (hn : 0 < limit.toNat) (lists : List (List Id)),
      Walk (nonempty (fun k : Id => k) hn) cursor lists
        (pages.map fun x => x.orders.map (·.payment.id)) ∧
      ∀ xs ∈ lists, Sorted (fun k : Id => k) xs ∧ ∃ tr c₁ tr₁, Run Steps c tr c₁ ∧
        Run Steps c₁ tr₁ c' ∧ ∀ id, id ∈ xs ↔ ∃ i ∈ c₁.world.db.intents, i.status = .PENDING ∧ i.id = id := by
  induction h with
  | @last cursor c orders t h =>
    obtain ⟨hn, hids, hnext⟩ := page_ids t hc h
    refine ⟨hn, [t.pendingIds], ?_, ?_⟩
    · have hempty : page (fun k : Id => k) limit.toNat cursor t.pendingIds = [] :=
        List.getLast?_eq_none_iff.mp hnext.symm
      rw [List.map_singleton, hids]
      exact .stop (by simp [nonempty, hempty])
    · intro xs hxs
      obtain rfl := List.mem_singleton.mp hxs
      exact ⟨t.sorted, [], c, [], .nil, .nil, fun id => t.mem_pendingIds⟩
  | @next cursor c c₁ c' orders nextCursor tr pages t h hr hb ih =>
    obtain ⟨hn, hids, hnext⟩ := page_ids t hc h
    obtain ⟨hn', lists, hw, hlists⟩ := ih (next_proper t hc h)
    refine ⟨hn, t.pendingIds :: lists, ?_, ?_⟩
    · rw [List.map_cons, hids]
      refine .go ?_ hnext.symm hw
      have hne : page (fun k : Id => k) limit.toNat cursor t.pendingIds ≠ [] := by
        intro hempty
        rw [hempty] at hnext
        cases hnext
      simpa [nonempty] using hne
    · intro xs hxs
      obtain ⟨tr', hrun⟩ := hb.run
      rcases List.mem_cons.mp hxs with rfl | hxs
      · exact ⟨t.sorted, [], c, tr ++ tr', .nil, hr.append hrun, fun id => t.mem_pendingIds⟩
      · obtain ⟨hs, tr₁, c₂, tr₂, hr₁, hr₂, hmem⟩ := hlists xs hxs
        exact ⟨hs, tr ++ tr₁, c₂, tr₂, hr.append hr₁, hr₂, hmem⟩

/-! ## Intents over a run -/

/-- An intent keeps its id, its order and its amount. -/
theorem intent_kept (hr : Run Steps c tr c') {i : PaymentIntent} (hi : i ∈ c.world.db.intents) :
    ∃ j ∈ c'.world.db.intents, j.id = i.id ∧ j.exactAmount = i.exactAmount := by
  induction hr with
  | nil => exact ⟨i, hi, rfl, rfl⟩
  | @snoc tr c₁ c₂ a _ hs ih =>
    obtain ⟨j, hj, hid, hexact⟩ := ih
    obtain ⟨q, hstep, -⟩ := wstep_tableStep (p := 0) hs.wstep.1
    obtain ⟨k, hk, hid', hexact'⟩ := hstep.intent_mono hj
    exact ⟨k, hk, hid'.trans hid, hexact'.trans hexact⟩

/-- What is PENDING in the end was PENDING all the time since it was created. -/
theorem pending_since (h₀ : Run Steps (.init World.empty) tr c) {tr₁ tr₂ : List Label} {c₁ : State}
    (hr₁ : Run Steps c tr₁ c₁) (hr₂ : Run Steps c₁ tr₂ c') {i : PaymentIntent}
    (hi : i ∈ c'.world.db.intents) (hs : i.status = .PENDING)
    (hold : ∃ j ∈ c.world.db.intents, j.id = i.id) :
    ∃ j ∈ c₁.world.db.intents, j.status = .PENDING ∧ j.id = i.id := by
  obtain ⟨j₀, hj₀, hid₀⟩ := hold
  obtain ⟨j, hj, hid, -⟩ := intent_kept hr₁ hj₀
  obtain ⟨hH, hA⟩ := Settle.Agree.reached (h₀.append hr₁) (Rely.Holds.init Consistent.empty fun _ => rfl)
    Settle.Agree.empty
  refine ⟨j, hj, (hA.status j hj).resolve_right fun hpaid => ?_, hid.trans hid₀⟩
  obtain ⟨⟨hH', -⟩, hj'⟩ := Settle.Agree.paid_stays hr₂ hH hA hj hpaid
  obtain rfl := hH'.inv.intent_eq hj' hi (hid.trans hid₀)
  rw [hpaid] at hs
  cases hs

/-- Every page is read in a state between the first and the last. -/
theorem Browses.states (h : Browses limit cursor c pages c') {x : Reading} (hx : x ∈ pages) :
    ∃ tr₁ tr₂, Run Steps c tr₁ x.state ∧ Run Steps x.state tr₂ c' := by
  induction h with
  | last _ _ =>
    obtain rfl := List.mem_singleton.mp hx
    exact ⟨[], [], .nil, .nil⟩
  | next _ _ hr hb ih =>
    rcases List.mem_cons.mp hx with rfl | hx
    · obtain ⟨tr', hr'⟩ := hb.run
      exact ⟨[], _, .nil, hr.append hr'⟩
    · obtain ⟨tr₁, tr₂, hr₁, hr₂⟩ := ih hx
      exact ⟨_, tr₂, hr.append hr₁, hr₂⟩

/-- What a page shows is PENDING when it is read, and so is its order. -/
theorem page_shown (t : Tables c.world.db) (h₀ : Run Steps (.init World.empty) tr c)
    (h : getAllUsersOrders cursor limit t.rows = .ok ⟨orders, next⟩) (ho : o ∈ orders) :
    o.status = .PENDING ∧
      ∃ i ∈ c.world.db.intents, ∃ order ∈ c.world.db.orders, i.status = .PENDING ∧
        i.id = o.payment.id ∧ i.exactAmount = o.payment.exactAmount ∧ order.id = i.orderId ∧
        order.id = o.id ∧ order.userId = o.user.id := by
  obtain ⟨-, hshown, -⟩ := getAllUsersOrders_shown h
  obtain ⟨i, hi, hio⟩ := forall₂_mem hshown.flip ho
  obtain ⟨hmem, hs⟩ := t.mem_pending (List.mem_of_mem_filter (List.mem_of_mem_take hi))
  obtain ⟨row, hrow, hid, hoid, hstatus, -, huser⟩ := hio.order
  have horder : row.toOrder ∈ c.world.db.orders := t.orders ▸ List.mem_map_of_mem hrow
  obtain ⟨hH, hA⟩ := Settle.Agree.reached h₀ (Rely.Holds.init Consistent.empty fun _ => rfl)
    Settle.Agree.empty
  have hagree := (hA.agrees hH.inv).status row.toOrder horder i.toPaymentIntent hmem hid.symm
  refine ⟨hstatus.trans (hagree.trans hs), i.toPaymentIntent, hmem, row.toOrder, horder, hs, ?_, ?_,
    hid, hoid.symm, huser.symm⟩ <;> rw [hio.payment]

theorem Browses.shown (h₀ : Run Steps (.init World.empty) tr c) (h : Browses limit cursor c pages c')
    {x : Reading} (hx : x ∈ pages) (ho : o ∈ x.orders) : o.status = .PENDING ∧
      ∃ i ∈ x.state.world.db.intents, ∃ order ∈ x.state.world.db.orders, i.status = .PENDING ∧
        i.id = o.payment.id ∧ i.exactAmount = o.payment.exactAmount ∧ order.id = i.orderId ∧
        order.id = o.id ∧ order.userId = o.user.id := by
  induction h generalizing tr with
  | last t h =>
    obtain rfl := List.mem_singleton.mp hx
    exact page_shown t h₀ h ho
  | next t h hr hb ih =>
    rcases List.mem_cons.mp hx with rfl | hx
    · exact page_shown t h₀ h ho
    · exact ih (h₀.append hr) hx

/-- A walk over the ids of one state is a walk over its pages, when every page can be shown. -/
theorem browses_of_walk {hn : 0 < limit.toNat} {lists idPages : List (List Id)} (t : Tables c.world.db)
    (hlimit : 1 ≤ limit ∧ limit ≤ 100) (hnamed : ∀ i ∈ t.rows.pending, Named t.rows i)
    (h : Walk (nonempty (fun k : Id => k) hn) cursor lists idPages) (hl : ∀ xs ∈ lists, xs = t.pendingIds)
    (hc : Proper cursor) : ∃ pages, Browses limit cursor c pages c := by
  have hanswer : ∀ cursor, ∃ orders next,
      getAllUsersOrders cursor limit t.rows = .ok ⟨orders, next⟩ := by
    intro cursor
    obtain ⟨⟨orders, next⟩, h⟩ := (getAllUsersOrders_ok t.userIds hlimit.1 hlimit.2).mpr fun i hi =>
      hnamed i (List.mem_of_mem_filter (List.mem_of_mem_take hi))
    exact ⟨orders, next, h⟩
  induction h with
  | @stop cursor xs hstop =>
    obtain rfl := hl xs (by simp)
    obtain ⟨orders, next, h⟩ := hanswer cursor
    have hempty : page (fun k : Id => k) limit.toNat cursor t.pendingIds = [] := by
      simpa [nonempty] using hstop
    have hnext := (page_ids t hc h).2.2
    rw [hempty] at hnext
    obtain rfl : next = none := hnext
    exact ⟨_, .last t h⟩
  | @go cursor xs lists idPages x _ hx _ ih =>
    rw [List.forall_mem_cons] at hl
    obtain rfl := hl.1
    obtain ⟨orders, next, h⟩ := hanswer cursor
    have hnext := (page_ids t hc h).2.2
    rw [hx] at hnext
    obtain rfl : next = some x := hnext
    obtain ⟨pages, hb⟩ := ih hl.2 (next_proper t hc h)
    exact ⟨_, .next t h .nil hb⟩

/-- A walk from a cursor on, while nothing changes. -/
theorem browses_exists (t : Tables c.world.db) (hlimit : 1 ≤ limit ∧ limit ≤ 100)
    (hnamed : ∀ i ∈ t.rows.pending, Named t.rows i) (hc : Proper cursor) :
    ∃ pages, Browses limit cursor c pages c := by
  have hn : 0 < limit.toNat := by omega
  obtain ⟨m, idPages, hw⟩ := Walk.exists_of_finite (nonempty (fun k : Id => k) hn)
    (fun _ => t.pendingIds) t.pendingIds.toFinset (fun _ k hk => List.mem_toFinset.mpr hk) cursor
  refine browses_of_walk t hlimit hnamed hw ?_ hc
  intro xs hxs
  obtain ⟨_, -, rfl⟩ := List.mem_map.mp hxs
  rfl

/-- **The pending orders, page by page.**  Whatever orders are created and settled between the pages, a
walk from no cursor to the end shows no order twice, and in the order of the intents; what a page shows
is PENDING in the state in which the page is read, with its order and the owner of the order; and the
walk shows every intent that was there when it began and is PENDING when it ends.  While nothing changes,
and when the users of the PENDING intents have usernames, there is such a walk. -/
theorem pending_browsed (limit : ℤ) (h₀ : Run Steps (.init World.empty) tr c) :
    (∀ pages c', Browses limit none c pages c' →
      ((pages.flatMap (·.orders)).map (·.payment.id)).Pairwise (· < ·) ∧
      (∀ x ∈ pages, (∃ tr₁ tr₂, Run Steps c tr₁ x.state ∧ Run Steps x.state tr₂ c') ∧
        ∀ o ∈ x.orders, o.status = .PENDING ∧
          ∃ i ∈ x.state.world.db.intents, ∃ order ∈ x.state.world.db.orders, i.status = .PENDING ∧
            i.id = o.payment.id ∧ i.exactAmount = o.payment.exactAmount ∧ order.id = i.orderId ∧
            order.id = o.id ∧ order.userId = o.user.id) ∧
      ∀ i ∈ c'.world.db.intents, i.status = .PENDING → (∃ j ∈ c.world.db.intents, j.id = i.id) →
        ∃ x ∈ pages, ∃ o ∈ x.orders, o.payment.id = i.id) ∧
    (1 ≤ limit → limit ≤ 100 → ∀ t : Tables c.world.db, (∀ i ∈ t.rows.pending, Named t.rows i) →
      ∃ pages, Browses limit none c pages c) := by
  constructor
  · intro pages c' h
    obtain ⟨hn, lists, hw, hlists⟩ := h.walk proper_none
    have hflat : (pages.map fun x => x.orders.map (·.payment.id)).flatten =
        (pages.flatMap (·.orders)).map (·.payment.id) := by
      rw [List.map_flatMap, List.flatMap_def]
    refine ⟨?_, fun x hx => ⟨h.states hx, fun o ho => h.shown h₀ hx ho⟩, fun i hi hs hold => ?_⟩
    · have hsorted := hw.sorted fun xs hxs => (hlists xs hxs).1
      rwa [hflat, Sorted, List.map_id'] at hsorted
    · have hmem : i.id ∈ (pages.map fun x => x.orders.map (·.payment.id)).flatten := by
        refine hw.complete (fun xs hxs => (hlists xs hxs).1) past_none fun xs hxs => ?_
        obtain ⟨-, tr₁, c₁, tr₂, hr₁, hr₂, hids⟩ := hlists xs hxs
        exact (hids i.id).mpr (pending_since h₀ hr₁ hr₂ hi hs hold)
      rw [hflat] at hmem
      obtain ⟨o, ho, hid⟩ := List.mem_map.mp hmem
      obtain ⟨x, hx, hox⟩ := List.mem_flatMap.mp ho
      exact ⟨x, hx, o, hox, hid⟩
  · intro hlo hhi t hnamed
    exact browses_exists t ⟨hlo, hhi⟩ hnamed proper_none

/-- The one customer of the service. -/
def customer : User := ⟨⟨1, some "moraveji", some "hash"⟩, none, "Ms", false, true, 0⟩

/-- The orders are the customer's, and the intents are of the orders. -/
def Owned (db : Db) : Prop :=
  (db.orders.map (·.id)).Nodup ∧ (db.intents.map (·.id)).Nodup ∧ (∀ o ∈ db.orders, o.userId = 1) ∧
    ∀ i ∈ db.intents, 1 ≤ i.id ∧ ∃ o ∈ db.orders, o.id = i.orderId

instance (db : Db) : Decidable (Owned db) := inferInstanceAs (Decidable (_ ∧ _ ∧ _ ∧ _))

def ownedTables {db : Db} (h : Owned db) : Tables db where
  users := [customer]
  rows :=
    { orders := db.orders.map (⟨·, 0⟩)
      intents := db.intents.map (⟨·, 0⟩)
      orderIds := by simpa [Function.comp_def] using h.1
      intentIds := by simpa [Function.comp_def] using h.2.1
      userId := by
        intro o ho
        obtain ⟨order, horder, rfl⟩ := List.mem_map.mp ho
        exact ⟨customer, by simp, (h.2.2.1 order horder).symm⟩
      orderId := by simpa using h.2.2.2 }
  userIds := by simp
  orders := by simp [Function.comp_def]
  intents := by simp [Function.comp_def]

theorem ownedTables_named {db : Db} (h : Owned db) : ∀ i ∈ (ownedTables h).rows.pending,
    Named (ownedTables h).rows i := by
  intro i _ o _ _ u hu _
  rw [List.mem_singleton.mp hu]
  simp [customer]

/-- Two orders, read one by one: between the two pages the first order is confirmed and a third one
created. -/
theorem pending_browsed_sample : ∃ (tr tr' : List Label) (c c' : State) (pages : List Reading),
    Run Steps (.init World.empty) tr c ∧ Run Steps c tr' c' ∧ Browses 1 none c pages c' ∧
      c'.world.db.intents.map (·.status) = [.PAID, .PENDING, .PENDING] ∧
      ((pages.flatMap (·.orders)).map (·.payment.id)).Pairwise (· < ·) ∧
      (∃ x ∈ pages, ∃ o ∈ x.orders, o.payment.id = 1 ∧ o.status = .PENDING) ∧
      ∃ x ∈ pages, ∃ o ∈ x.orders, o.payment.id = 2 := by
  have hplay : visits 4 .none
      [(Script.createDown 0 1500001 ++ Script.createDown 1 1500002, fun c => Owned c.world.db ∧
          c.world.db.intents =
            [⟨1, 1, .PENDING, 1500000, 1500001, none⟩, ⟨2, 2, .PENDING, 1500000, 1500002, none⟩]),
        (Script.confirm 2 1 1 ++ Script.createDown 3 1500003, fun c => Owned c.world.db ∧
          c.world.db.intents =
            [⟨1, 1, .PAID, 1500000, 1500001, none⟩, ⟨2, 2, .PENDING, 1500000, 1500002, none⟩,
              ⟨3, 3, .PENDING, 1500000, 1500003, none⟩])]
      (.init World.empty) [] World.empty.sets = true := by
    decide +kernel
  obtain ⟨tr, c, hr, -, htest, -, tr', c', hr', -, htest', -⟩ :=
    visits_run hplay (Within.init 4 World.empty_closed)
  obtain ⟨howned, hintents⟩ := of_decide_eq_true htest
  obtain ⟨howned', hintents'⟩ := of_decide_eq_true htest'
  let t : Tables c.world.db := ownedTables howned
  have hids : t.pendingIds = [1, 2] := by
    simp [t, Tables.pendingIds, ownedTables, OrderTables.pending, hintents, List.mergeSort]
  obtain ⟨⟨orders, next⟩, hpage⟩ : ∃ out, getAllUsersOrders none 1 t.rows = .ok out :=
    (getAllUsersOrders_ok t.userIds le_rfl (by decide)).mpr fun i hi =>
      ownedTables_named howned i (List.mem_of_mem_filter (List.mem_of_mem_take hi))
  obtain ⟨-, hpageIds, hnext⟩ := page_ids t proper_none hpage
  rw [hids] at hpageIds hnext
  obtain rfl : next = some 1 := hnext
  obtain ⟨pages, hb⟩ : ∃ pages, Browses 1 (some 1) c' pages c' :=
    browses_exists (ownedTables howned') ⟨le_rfl, by decide⟩ (ownedTables_named howned')
      fun k hk => (Option.mem_some.mp hk).le
  have hrun := hr.of_restrict
  have hbrowses : Browses 1 none c (⟨c, orders⟩ :: pages) c' := .next t hpage hr'.of_restrict hb
  obtain ⟨hsorted, hshown, hall⟩ := (pending_browsed 1 hrun).1 _ _ hbrowses
  obtain ⟨o, ho, hid⟩ : ∃ o ∈ orders, o.payment.id = 1 :=
    List.mem_map.mp (hpageIds ▸ (by decide : (1 : Id) ∈ page (fun k : Id => k) 1 none [1, 2]))
  refine ⟨tr, tr', c, c', _, hrun, hr'.of_restrict, hbrowses, by simp [hintents'], hsorted, ?_, ?_⟩
  · exact ⟨_, List.mem_cons_self, o, ho, hid, ((hshown _ List.mem_cons_self).2 o ho).1⟩
  · exact hall ⟨2, 2, .PENDING, 1500000, 1500002, none⟩ (by simp [hintents']) rfl
      ⟨_, by rw [hintents]; exact List.mem_cons_of_mem _ List.mem_cons_self, rfl⟩

end Users

end PaymentRecon
