import PaymentRecon.Requests.Create

/-!
# Confirm — what an admin confirmation does to the stores

`handle_pending_payment` releases the amount in Redis while its transaction is open, and it releases by
amount.  So a commit that fails leaves the amount free although its intent is PENDING, and confirming a
FAILED intent takes the reservation of a PENDING intent with the same amount.
-/

namespace PaymentRecon

open Interleave SetStore

namespace Requests

variable {p : Pid} {orderId paymentId : Id} {w w₁ w' : World} {cs : Calls}

/-- The admin query answers the intent. -/
def Admits (w : World) (orderId paymentId : Id) (i : PaymentIntent) : Prop :=
  i ∈ w.db.intents ∧ confirmable paymentId orderId i ∧ ∃ o ∈ w.db.orders, o.id = i.orderId

/-- The stores apart from open transactions. -/
structure SameStores (w w' : World) : Prop where
  db : w'.db = w.db
  sets : w'.sets = w.sets

theorem SameStores.refl : SameStores w w := ⟨rfl, rfl⟩

theorem SameStores.trans {w'' : World} (h : SameStores w w') (h' : SameStores w' w'') :
    SameStores w w'' := ⟨h'.db.trans h.db, h'.sets.trans h.sets⟩

theorem SameStores.untouched (h : SameStores w w') : Untouched w w' :=
  ⟨congrArg Db.orders h.db, congrArg Db.intents h.db, h.sets⟩

/-! ## The steps of the confirmation -/

theorem exec_beginSelect {f : Fault} {r : Except Exc Unit} (h : exec f p .beginSelect w r w') :
    r = .ok () ∧ w' = w.setTxn p { w.txn p with snapshot := w.db.intents.map (·.id) } := by
  cases f with
  | done => exact h
  | failed =>
    obtain ⟨-, e, he, -⟩ := h
    exact he.elim
  | lost =>
    obtain ⟨-, -, e, he, -⟩ := h
    exact he.elim

/-- A failed SELECT or UPDATE leaves no trace. -/
theorem exec_pg_error {f : Fault} {op : Op} {e : Exc} (h : exec f p op w (.error e) w')
    (hop : ∀ e, op.run p w (.error e) w' → w' = w) (hl : ¬ op.Loses) : w' = w := by
  cases f with
  | done => exact hop e h
  | failed => exact h.1
  | lost => exact absurd h.1 hl

theorem exec_lockById_error {f : Fault} {e : Exc}
    (h : exec f p (.lockById paymentId orderId) w (.error e) w') : w' = w := by
  refine exec_pg_error h ?_ (by simp [Op.Loses, Op.OnRedis])
  intro e' hrun
  simp only [Op.run] at hrun
  split_ifs at hrun
  · cases hrun.2.1
  · exact hrun.2

theorem exec_lockById_ok {f : Fault} {rows : List PaymentIntent}
    (h : exec f p (.lockById paymentId orderId) w (.ok rows) w') :
    rows = w.selected p (confirmable paymentId orderId) ∧ w' = w.lock p (rows.map (·.id)) := by
  obtain ⟨-, hrun⟩ := exec_ok h
  simp only [Op.run] at hrun
  split_ifs at hrun
  · obtain ⟨-, hr, hw⟩ := hrun
    cases hr
    exact ⟨rfl, hw⟩
  · cases hrun.1

theorem exec_flushPaid_error {f : Fault} {i : PaymentIntent} {sms : Option Id} {e : Exc}
    (h : exec f p (.flushPaid i sms) w (.error e) w') : w' = w := by
  refine exec_pg_error h ?_ (by simp [Op.Loses, Op.OnRedis])
  rintro e' ⟨-, -, ⟨-, -, hw⟩ | ⟨-, hr, -⟩⟩
  · exact hw
  · cases hr

theorem exec_flushPaid_ok {f : Fault} {i : PaymentIntent} {sms : Option Id}
    (h : exec f p (.flushPaid i sms) w (.ok ()) w') :
    w' = (w.lock p [i.id]).flush p [.payIntent i.id sms, .payOrder i.orderId] := by
  obtain ⟨-, -, -, ⟨-, hr, -⟩ | ⟨-, -, hw⟩⟩ := exec_ok h
  · cases hr
  · exact hw

/-- The world when the locking SELECT of the session has begun. -/
abbrev begun (w : World) (p : Pid) : World :=
  w.setTxn p { w.txn p with snapshot := w.db.intents.map (·.id) }

theorem mem_selected {i : PaymentIntent} :
    i ∈ (begun w p).selected p (confirmable paymentId orderId) ↔ Admits w orderId paymentId i := by
  simp only [World.selected, Admits, List.mem_filter]
  constructor
  · rintro ⟨hi, hsel⟩
    simp at hsel
    exact ⟨hi, by simpa using hsel.2.1, hsel.2.2⟩
  · rintro ⟨hi, hsel, ho⟩
    refine ⟨hi, ?_⟩
    have hid : ∃ j ∈ w.db.intents, j.id = i.id := ⟨i, hi, rfl⟩
    simp [hid, hsel, ho]

/-- The `except` clause of `handle_pending_payment` raises. -/
theorem runs_confirm_handler {e e' : Exc} {r : Except Exc PaymentIntent}
    (h : Executes p (if e.kind = .noResultFound then throw e' else throw e) w cs r w') :
    cs = [] ∧ (∃ e, r = .error e) ∧ w' = w := by
  split_ifs at h
  · obtain ⟨rfl, rfl, rfl⟩ := runs_raise.mp h
    exact ⟨rfl, ⟨_, rfl⟩, rfl⟩
  · obtain ⟨rfl, rfl, rfl⟩ := runs_raise.mp h
    exact ⟨rfl, ⟨_, rfl⟩, rfl⟩

/-- No Redis command takes effect although its answer is lost. -/
def NoLoss (cs : Calls) : Prop := ∀ c ∈ cs, c.op.OnRedis → c.fault ≠ .lost

/-- The confirmation raised; unless a Redis command was lost it left the stores as they were. -/
def Raises (w : World) (cs : Calls) (r : Except Exc PaymentIntent) (w' : World) : Prop :=
  (∃ e, r = .error e) ∧ (NoLoss cs → SameStores w w')

/-- What the settlement of the row `i` left, or it raised. -/
def Settles (p : Pid) (w : World) (cs : Calls) (i : PaymentIntent) (r : Except Exc PaymentIntent)
    (w' : World) : Prop :=
  (r = .ok (i.pay none) ∧ w'.db = w.db ∧
      w'.sets = smove w.sets .pendingOrders .freeAmounts i.exactAmount ∧
      (w'.txn p).writes = (w.txn p).writes ++ [.payIntent i.id none, .payOrder i.orderId]) ∨
    Raises w cs r w'

/-- The settlement of the one row. -/
theorem runs_settle {i : PaymentIntent} {r : Except Exc PaymentIntent}
    (h : Executes p (do
      await (.flushPaid i none)
      await (.smove .pendingOrders .freeAmounts i.exactAmount)
      pure (i.pay none)) w cs r w') :
    (∀ c ∈ cs, c.op ≠ .commit) ∧ Settles p w cs i r w' := by
  rcases runs_await.mp h with ⟨_, w₁, cs₁, hflush, hrest, rfl⟩ | ⟨f, e, hflush, rfl, rfl⟩
  · obtain rfl := exec_flushPaid_ok hflush
    rcases runs_await.mp hrest with ⟨_, w₂, cs₂, hmove, hret, rfl⟩ | ⟨f, e, hmove, rfl, rfl⟩
    · obtain ⟨rfl, rfl, rfl⟩ := runs_ret.mp hret
      obtain ⟨-, rfl⟩ := (exec_ok hmove).2
      refine ⟨by simp, Or.inl ⟨rfl, rfl, rfl, ?_⟩⟩
      simp [flush_writes, lock_writes]
    · refine ⟨by simp, Or.inr ⟨⟨e, rfl⟩, fun hlost => ?_⟩⟩
      obtain rfl := (exec_redis_error hmove trivial).2.2
        (hlost _ (List.mem_cons_of_mem _ List.mem_cons_self) trivial)
      exact ⟨rfl, rfl⟩
  · obtain rfl := exec_flushPaid_error hflush
    exact ⟨by simp, Or.inr ⟨⟨e, rfl⟩, fun _ => .refl⟩⟩

/-- The rows of the SELECT: one is settled, and anything else raises. -/
theorem runs_confirm_rows {rows : List PaymentIntent} {e' : Exc} {r : Except Exc PaymentIntent}
    (h : Executes p (Prog.tryCatch (do
        let payment ← scalarOne rows
        await (.flushPaid payment none)
        await (.smove .pendingOrders .freeAmounts payment.exactAmount)
        pure (payment.pay none))
      fun e => if e.kind = .noResultFound then throw e' else throw e) w cs r w') :
    (∀ c ∈ cs, c.op ≠ .commit) ∧ ((∃ i, rows = [i] ∧ Settles p w cs i r w') ∨ Raises w cs r w') := by
  have raised : ∀ e : Exc, Executes p (if e.kind = .noResultFound then throw e' else throw e) w cs r w' →
      (∀ c ∈ cs, c.op ≠ .commit) ∧ Raises w cs r w' := by
    intro e hcatch
    obtain ⟨rfl, hr, rfl⟩ := runs_confirm_handler hcatch
    exact ⟨by simp, hr, fun _ => .refl⟩
  match rows with
  | [] => exact (raised ⟨.noResultFound, ""⟩ h).imp_right Or.inr
  | i :: j :: rest => exact (raised ⟨.multipleResultsFound, ""⟩ h).imp_right Or.inr
  | [i] =>
    rcases runs_tryCatch.mp h with ⟨x, hbody, rfl⟩ | ⟨e, w₂, cs₁, cs₂, hbody, hcatch, rfl⟩
    · obtain ⟨hno, hs⟩ := runs_settle hbody
      exact ⟨hno, Or.inl ⟨i, rfl, hs⟩⟩
    · obtain ⟨rfl, hr, rfl⟩ := runs_confirm_handler hcatch
      rw [List.append_nil]
      obtain ⟨hno, ⟨hx, -⟩ | ⟨-, hsame⟩⟩ := runs_settle hbody
      · cases hx
      · exact ⟨hno, Or.inr ⟨hr, hsame⟩⟩

/-- What the session of the confirmation has flushed when the release is through. -/
structure Released (p : Pid) (orderId paymentId : Id) (w : World) (i : PaymentIntent)
    (w' : World) : Prop where
  admits : Admits w orderId paymentId i
  only : ∀ j, Admits w orderId paymentId j → j = i
  db : w'.db = w.db
  sets : w'.sets = smove w.sets .pendingOrders .freeAmounts i.exactAmount
  writes : (w'.txn p).writes = (w.txn p).writes ++ [.payIntent i.id none, .payOrder i.orderId]

/-- `handle_pending_payment` released the amount of the only intent the query answers, or it raised. -/
theorem runs_handlePendingPayment {r : Except Exc PaymentIntent}
    (h : Executes p (handlePendingPayment orderId paymentId) w cs r w') :
    (∀ c ∈ cs, c.op ≠ .commit) ∧
      ((∃ i, r = .ok (i.pay none) ∧ Released p orderId paymentId w i w') ∨ Raises w cs r w') := by
  rcases runs_await.mp h with ⟨_, w₁, cs₁, hbegin, hlock, rfl⟩ | ⟨f, e, hbegin, -, -⟩
  · obtain ⟨-, rfl⟩ := exec_beginSelect hbegin
    rcases runs_await.mp hlock with ⟨rows, w₂, cs₂, hrows, htry, rfl⟩ | ⟨f, e, hrows, rfl, rfl⟩
    · obtain ⟨hsel, rfl⟩ := exec_lockById_ok hrows
      obtain ⟨hno, hend⟩ := runs_confirm_rows htry
      refine ⟨by simpa using hno, ?_⟩
      have raised : ∀ c₁ c₂, Raises ((begun w p).lock p (rows.map (·.id))) cs₂ r w' →
          Raises w (c₁ :: c₂ :: cs₂) r w' := by
        rintro c₁ c₂ ⟨hr, hsame⟩
        refine ⟨hr, fun hlost => ?_⟩
        obtain ⟨hdb, hsets⟩ := hsame fun c hc => hlost c (by simp [hc])
        exact ⟨hdb, hsets⟩
      rcases hend with ⟨i, rfl, ⟨hx, hdb, hsets, hwrites⟩ | hraise⟩ | hraise
      · have hmem : ∀ j, j ∈ [i] ↔ Admits w orderId paymentId j := fun j => hsel ▸ mem_selected
        refine Or.inl ⟨i, hx, (hmem i).mp (by simp), fun j hj => ?_, hdb, hsets, ?_⟩
        · simpa using (hmem j).mpr hj
        · rw [hwrites, lock_writes]
          simp
      · exact Or.inr (raised _ _ hraise)
      · exact Or.inr (raised _ _ hraise)
    · obtain rfl := exec_lockById_error hrows
      exact ⟨by simp, Or.inr ⟨⟨e, rfl⟩, fun _ => ⟨rfl, rfl⟩⟩⟩
  · have hr := (exec_beginSelect hbegin).1
    cases hr

/-! ## A confirmation that goes through to its commit -/

/-- Two intents hold the amount 1500000: one PENDING and, when `failed`, one FAILED. -/
def reserved (failed : Bool) : World :=
  { World.empty with
    db := { Db.empty with
      orders := [⟨1, 7, .PENDING, 1500000⟩, ⟨2, 8, .PENDING, 1500000⟩]
      intents := ⟨1, 1, .PENDING, 1500000, 1500000, none⟩ ::
        if failed then [⟨2, 2, .FAILED, 1500000, 1500000, none⟩] else [] }
    sets := fun k => match k with
      | .pendingOrders => {1500000}
      | .amounts | .freeAmounts => ∅ }

/-- The calls of a confirmation up to its commit. -/
def confirmCalls (i : PaymentIntent) : Calls :=
  [⟨.done, .beginSelect, .ok ()⟩, ⟨.done, .lockById i.id i.orderId, .ok [i]⟩,
    ⟨.done, .flushPaid i none, .ok ()⟩,
    ⟨.done, .smove .pendingOrders .freeAmounts i.exactAmount, .ok ()⟩]

/-- The world when the release is through. -/
def released (w : World) (i : PaymentIntent) : World :=
  withSets ((((begun w 0).lock 0 [i.id]).lock 0 [i.id]).flush 0
    [.payIntent i.id none, .payOrder i.orderId])
    (smove w.sets .pendingOrders .freeAmounts i.exactAmount)

/-- A confirmation in a world without open transactions. -/
theorem confirm_executes {β : Type} {i : PaymentIntent} {g : PaymentIntent → App β}
    {r : Except Exc β} (hclosed : ∀ q, w.txn q = Txn.empty) (hids : inInt4 i.id ∧ inInt4 i.orderId)
    (hsel : (begun w 0).selected 0 (confirmable i.id i.orderId) = [i])
    (h : Executes 0 (g (i.pay none)) (released w i) cs r w') :
    Executes 0 (handlePendingPayment i.orderId i.id >>= g) w (confirmCalls i ++ cs) r w' := by
  have unlocked : ∀ {w₁ : World}, (∀ q, q ≠ 0 → w₁.txn q = Txn.empty) →
      ¬ w₁.LockedByOther 0 i.id := by
    rintro w₁ htxn ⟨q, hq, hlock⟩
    rw [htxn q hq] at hlock
    simp [Txn.empty] at hlock
  have hbegin : exec .done 0 .beginSelect w (.ok ()) (begun w 0) := ⟨rfl, rfl⟩
  have hlock : exec .done 0 (.lockById i.id i.orderId) (begun w 0) (.ok [i])
      ((begun w 0).lock 0 [i.id]) := by
    show ite _ _ _
    rw [if_pos hids]
    refine ⟨?_, congrArg Except.ok hsel.symm, ?_⟩
    · rw [hsel]
      intro j hj
      rw [List.mem_singleton.mp hj]
      exact unlocked fun q hq => by simp [hq, hclosed]
    · rw [hsel]
      rfl
  have hflush : exec .done 0 (.flushPaid i none) ((begun w 0).lock 0 [i.id]) (.ok ())
      ((((begun w 0).lock 0 [i.id]).lock 0 [i.id]).flush 0
        [.payIntent i.id none, .payOrder i.orderId]) := by
    refine ⟨unlocked fun q hq => ?_, by simp, Or.inr ⟨by simp, rfl, rfl⟩⟩
    simp [World.lock, hq, hclosed]
  refine Runs.call hbegin ?_
  refine Runs.call hlock ?_
  refine Runs.call hflush ?_
  exact Runs.call ⟨rfl, rfl⟩ h

/-! ## A confirmation that fails -/

/-- The intent is not paid, so paying it changes the table. -/
theorem payIntent_ne {db : Db} {i : PaymentIntent} (hi : i ∈ db.intents) (hst : i.status ≠ .PAID)
    (sms : Option Id) : (db.intents.map fun j => if j.id = i.id then j.pay sms else j) ≠ db.intents := by
  intro he
  have hpaid : ∀ j ∈ db.intents, (if j.id = i.id then j.pay sms else j) = id j :=
    List.map_inj_left.mp (he.trans (List.map_id _).symm)
  have hj := congrArg PaymentIntent.status (hpaid i hi)
  rw [if_pos rfl] at hj
  exact hst hj.symm

theorem Admits.unpaid {i : PaymentIntent} (h : Admits w orderId paymentId i) :
    i.status ≠ .PAID := by
  have hsel := h.2.1
  simp only [confirmable, decide_eq_true_eq] at hsel
  rcases hsel.2.2 with hst | hst <;> simp [hst]

/-- A commit that reports a failure happened or did not. -/
theorem exec_commit_error {f : Fault} {e : Exc} (h : exec f p .commit w (.error e) w') :
    (f = .failed ∧ w' = w) ∨ (f = .lost ∧ w' = w.commit p) := by
  cases f with
  | done => cases h.1
  | failed => exact Or.inl ⟨rfl, h.1⟩
  | lost =>
    obtain ⟨-, ⟨r₀, -, hw⟩, -⟩ := h
    exact Or.inr ⟨rfl, hw⟩

theorem smove_eq_self_iff {s : Sets SetKey Amount} {a : Amount} :
    smove s .pendingOrders .freeAmounts a = s ↔ a ∉ s .pendingOrders := by
  constructor
  · intro he ha
    have hmem : a ∈ smove s .pendingOrders .freeAmounts a .pendingOrders := he.symm ▸ ha
    rw [mem_smove (by decide), if_pos ⟨rfl, ha⟩] at hmem
    simp at hmem
  · exact smove_of_notMem

/-- The commit was not reached, or it failed without effect and the amount was not pending. -/
def CommitHarmless (w : World) (orderId paymentId : Id) (c : Call sig Exc) : Prop :=
  c.op = .commit → c.fault = .failed ∧
    ∀ i, Admits w orderId paymentId i → i.exactAmount ∉ w.pending

/-- No PENDING intent has an amount that became free. -/
def NoneFreed (w w' : World) : Prop :=
  ∀ a ∈ w'.free, a ∉ w.free → ∀ i ∈ w'.db.intents, ¬ i.Holds a

theorem Untouched.noneFreed (h : Untouched w w') : NoneFreed w w' := by
  intro a ha hno
  rw [World.free, h.sets] at ha
  exact absurd ha hno

/-- The `except` clause of `confirm_payment` adds rollbacks. -/
theorem runs_confirmPayment_error {e : Exc}
    (h : Executes p (confirmPayment orderId paymentId) w cs (.error e) w') :
    ∃ cs₁ cs₂ w₁ e₁, Executes p (do
        let updatePayment ← handlePendingPayment orderId paymentId
        await .commit
        pure (Response.confirmed updatePayment)) w cs₁ (.error e₁) w₁ ∧
      cs = cs₁ ++ cs₂ ∧ (∀ c ∈ cs₂, c.op = .rollback) ∧ (Untouched w w' ↔ Untouched w w₁) := by
  obtain ⟨cs₁, w₁, hbody, rfl, rfl⟩ := runs_withDb_error h
  rcases runs_tryCatch.mp hbody with ⟨u, -, he⟩ | ⟨e₁, w₂, cs₂, cs₃, hin, hcatch, rfl⟩
  · cases he
  · obtain ⟨cs₄, rfl, hthrow⟩ := runs_rollback hcatch
    have hend : cs₄ = [] ∧ w₁ = w₂.rollback p := by
      split_ifs at hthrow
      · exact ⟨(runs_raise.mp hthrow).1, (runs_raise.mp hthrow).2.2⟩
      · exact ⟨(runs_raise.mp hthrow).1, (runs_raise.mp hthrow).2.2⟩
    obtain ⟨rfl, rfl⟩ := hend
    refine ⟨cs₂, _, w₂, e₁, hin, List.append_assoc .., by simp, ?_⟩
    rw [untouched_rollback, untouched_rollback]

/-- **Admin confirmation is all-or-nothing** exactly when its commit goes through: whatever fails in a
confirmation that answers with an error, the rows and the sets are as before, and no PENDING intent has
an amount that became free, if and only if it did not come to the commit, or the commit failed without
effect and the amount was not in `pending_orders`. -/
theorem confirmPayment_untouched_iff {e : Exc} (hnew : w.txn p = Txn.empty)
    (h : Executes p (confirmPayment orderId paymentId) w cs (.error e) w') (hlost : NoLoss cs) :
    Untouched w w' ∧ NoneFreed w w' ↔ ∀ c ∈ cs, CommitHarmless w orderId paymentId c := by
  rw [and_iff_left_of_imp Untouched.noneFreed]
  obtain ⟨cs₁, cs₂, w₁, e₁, hrun, rfl, hrollback, hiff⟩ := runs_confirmPayment_error h
  have hlost₁ : NoLoss cs₁ := fun c hc => hlost c (by simp [hc])
  have hharm : (∀ c ∈ cs₁ ++ cs₂, CommitHarmless w orderId paymentId c) ↔
      ∀ c ∈ cs₁, CommitHarmless w orderId paymentId c := by
    refine ⟨fun h c hc => h c (List.mem_append_left _ hc), fun h c hc => ?_⟩
    rcases List.mem_append.mp hc with hc | hc
    · exact h c hc
    · intro hop
      rw [hrollback c hc] at hop
      cases hop
  rw [hiff, hharm]
  rcases runs_bind.mp hrun with ⟨x, w₂, cs₃, cs₄, hhandle, hrest, rfl⟩ | ⟨e₂, hhandle, -⟩
  · obtain ⟨hno, ⟨i, -, hrel⟩ | ⟨⟨e₂, he⟩, -⟩⟩ := runs_handlePendingPayment hhandle
    · rcases runs_await.mp hrest with ⟨_, w₃, cs₅, -, hret, -⟩ | ⟨f, e₂, hcommit, rfl, -⟩
      · obtain ⟨-, he, -⟩ := runs_ret.mp hret
        cases he
      · have hlast : (∀ c ∈ cs₃ ++ [⟨f, .commit, .error e₂⟩],
            CommitHarmless w orderId paymentId c) ↔ f = .failed ∧ i.exactAmount ∉ w.pending := by
          constructor
          · intro hall
            obtain ⟨hf, ha⟩ := hall ⟨f, .commit, .error e₂⟩ (by simp) rfl
            exact ⟨hf, ha i hrel.admits⟩
          · rintro ⟨hf, ha⟩ c hc hop
            rcases List.mem_append.mp hc with hc | hc
            · exact absurd hop (hno c hc)
            · rw [List.mem_singleton.mp hc]
              exact ⟨hf, fun j hj => hrel.only j hj ▸ ha⟩
        rw [hlast, ← smove_eq_self_iff]
        rcases exec_commit_error hcommit with ⟨rfl, rfl⟩ | ⟨rfl, rfl⟩
        · constructor
          · intro hu
            exact ⟨rfl, hrel.sets.symm.trans hu.sets⟩
          · rintro ⟨-, hs⟩
            exact ⟨congrArg Db.orders hrel.db, congrArg Db.intents hrel.db, hrel.sets.trans hs⟩
        · refine iff_of_false (fun hu => ?_) (by simp)
          have hintents := hu.intents
          have hcommitted : (w₂.commit p).db.intents =
              w.db.intents.map fun j => if j.id = i.id then j.pay none else j := by
            simp [World.commit, hrel.writes, hnew, Txn.empty, hrel.db, Write.apply]
          rw [hcommitted] at hintents
          exact payIntent_ne hrel.admits.1 hrel.admits.unpaid none hintents
    · cases he
  · obtain ⟨hno, ⟨i, hr, -⟩ | ⟨-, hsame⟩⟩ := runs_handlePendingPayment hhandle
    · cases hr
    · exact iff_of_true (hsame hlost₁).untouched fun c hc hop => absurd hop (hno c hc)

theorem rollback_throw_executes {β : Type} {e : Exc} :
    Executes p (do await .rollback; throw e : App β) w [⟨.done, .rollback, .ok ()⟩] (.error e)
      (w.rollback p) := .call ⟨rfl, rfl⟩ .raise

/-- A confirmation whose commit fails without effect. -/
theorem confirm_commit_fails : Executes 0 (confirmPayment 1 1) (reserved false)
    (confirmCalls ⟨1, 1, .PENDING, 1500000, 1500000, none⟩ ++ [⟨.failed, .commit, .error DBAPIError⟩] ++
      [⟨.done, .rollback, .ok ()⟩] ++ [⟨.done, .rollback, .ok ()⟩])
    (.error (httpException 500 "Internal Server Error"))
    (((released (reserved false) ⟨1, 1, .PENDING, 1500000, 1500000, none⟩).rollback 0).rollback 0) := by
  have hrun : Executes 0 (do
      let updatePayment ← handlePendingPayment 1 1
      await .commit
      pure (Response.confirmed updatePayment)) (reserved false)
      (confirmCalls ⟨1, 1, .PENDING, 1500000, 1500000, none⟩ ++ [⟨.failed, .commit, .error DBAPIError⟩])
      (.error DBAPIError) (released (reserved false) ⟨1, 1, .PENDING, 1500000, 1500000, none⟩) := by
    refine confirm_executes (i := ⟨1, 1, .PENDING, 1500000, 1500000, none⟩) (fun _ => rfl) (by decide)
      (by decide) ?_
    exact Runs.call ⟨rfl, DBAPIError, Or.inl rfl, rfl⟩ .raise
  have hrollback : ∀ w, exec .done 0 .rollback w (.ok ()) (w.rollback 0) := fun _ => ⟨rfl, rfl⟩
  refine runs_tryCatch.mpr (Or.inr ⟨_, _, _, _, ?_, rollback_throw_executes, rfl⟩)
  exact runs_tryCatch.mpr (Or.inr ⟨_, _, _, _, hrun, .call (hrollback _) .raise, rfl⟩)

theorem confirmPayment_untouched_sample : ∃ (cs : Calls) (e : Exc) (w' : World),
    Executes 0 (confirmPayment 1 1) (reserved false) cs (.error e) w' ∧
      (Untouched (reserved false) w' ∧ NoneFreed (reserved false) w' ↔
        ∀ c ∈ cs, CommitHarmless (reserved false) 1 1 c) := by
  refine ⟨_, _, _, confirm_commit_fails,
    confirmPayment_untouched_iff rfl confirm_commit_fails ?_⟩
  simp [confirmCalls, NoLoss]

/-- A commit that fails leaves the amount of a PENDING intent free. -/
theorem confirmPayment_frees_pending : ∃ (cs : Calls) (e : Exc) (w' : World),
    Executes 0 (confirmPayment 1 1) (reserved false) cs (.error e) w' ∧
      NoLoss cs ∧ ¬ Untouched (reserved false) w' ∧ ¬ NoneFreed (reserved false) w' := by
  refine ⟨_, _, _, confirm_commit_fails, by simp [confirmCalls, NoLoss], fun hu => ?_, fun hf => ?_⟩
  · have hsets := congrArg (fun s => s SetKey.freeAmounts) hu.sets
    exact absurd hsets (by decide)
  · refine hf 1500000 (by decide) (by decide) ⟨1, 1, .PENDING, 1500000, 1500000, none⟩ ?_ ⟨rfl, rfl⟩
    exact List.mem_singleton.mpr rfl

/-! ## Two intents with one amount -/

/-- The amount of every PENDING intent is reserved. -/
def Reserves (w : World) : Prop :=
  ∀ i ∈ w.db.intents, i.status = .PENDING → i.exactAmount ∈ w.pending

instance (w : World) : Decidable (Reserves w) :=
  inferInstanceAs (Decidable (∀ i ∈ w.db.intents, i.status = .PENDING → i.exactAmount ∈ w.pending))

/-- A confirmation that goes through pays the one intent the query answers, and releases its amount. -/
theorem runs_confirm_commit {x : PaymentIntent} (hnew : w.txn p = Txn.empty)
    (h : Executes p (do
      let i ← handlePendingPayment orderId paymentId
      await .commit
      pure i) w cs (.ok x) w') :
    ∃ i, Admits w orderId paymentId i ∧ (∀ j, Admits w orderId paymentId j → j = i) ∧
      w'.db.intents = (w.db.intents.map fun j => if j.id = i.id then j.pay none else j) ∧
      w'.sets = smove w.sets .pendingOrders .freeAmounts i.exactAmount := by
  rcases runs_bind.mp h with ⟨y, w₁, cs₁, cs₂, hhandle, hrest, rfl⟩ | ⟨e, -, he⟩
  · rcases runs_await.mp hrest with ⟨_, w₂, cs₃, hcommit, hret, rfl⟩ | ⟨f, e, -, -, he⟩
    · obtain ⟨rfl, -, rfl⟩ := runs_ret.mp hret
      obtain ⟨-, rfl⟩ := (exec_ok hcommit).2
      obtain ⟨-, ⟨i, -, hrel⟩ | ⟨⟨e, he⟩, -⟩⟩ := runs_handlePendingPayment hhandle
      · refine ⟨i, hrel.admits, hrel.only, ?_, hrel.sets⟩
        simp [World.commit, hrel.writes, hnew, Txn.empty, hrel.db, Write.apply]
      · cases he
    · cases he
  · cases he

/-- Paying `i` leaves the other PENDING intents. -/
theorem mem_pay_pending {intents : List PaymentIntent} {i j : PaymentIntent}
    (hids : (intents.map (·.id)).Nodup) (hi : i ∈ intents) (hst : j.status = .PENDING) :
    j ∈ (intents.map fun k => if k.id = i.id then k.pay none else k) ↔ j ∈ intents ∧ j ≠ i := by
  constructor
  · intro hj
    obtain ⟨k, hk, rfl⟩ := List.mem_map.mp hj
    split_ifs at hst ⊢ with hid
    · cases hst
    · exact ⟨hk, fun he => hid (congrArg PaymentIntent.id he)⟩
  · rintro ⟨hj, hne⟩
    exact List.mem_map.mpr
      ⟨j, hj, if_neg fun hid => hne (List.inj_on_of_nodup_map hids hj hi hid)⟩

/-- **Settling one intent keeps the other reservations** exactly when no other PENDING intent has its
amount: in every state in which the amounts of the PENDING intents are reserved, after a confirmation
that goes through they still are, and no PENDING intent has an amount that became free, if and only if
none but the confirmed intent holds the amount of the confirmed intent. -/
theorem confirm_keeps_reservations_iff {x : PaymentIntent} (hnew : w.txn p = Txn.empty)
    (hids : (w.db.intents.map (·.id)).Nodup) (hres : Reserves w)
    (h : Executes p (do
      let i ← handlePendingPayment orderId paymentId
      await .commit
      pure i) w cs (.ok x) w') :
    Reserves w' ∧ NoneFreed w w' ↔ ∀ i, Admits w orderId paymentId i →
      ∀ j ∈ w.db.intents, j ≠ i → ¬ j.Holds i.exactAmount := by
  obtain ⟨i, hadm, honly, hintents, hsets⟩ := runs_confirm_commit hnew h
  unfold Reserves NoneFreed World.pending World.free
  rw [hintents, hsets]
  constructor
  · rintro ⟨hres', -⟩ i' hadm' j hj hne hholds
    obtain rfl := honly i' hadm'
    have hin := hres' j ((mem_pay_pending hids hadm.1 hholds.1).mpr ⟨hj, hne⟩) hholds.1
    have hold := hres j hj hholds.1
    rw [hholds.2, mem_smove (by decide), if_pos ⟨rfl, hholds.2 ▸ hold⟩] at hin
    simp at hin
  · intro hother
    constructor
    · intro j hj hst
      obtain ⟨hj₀, hne⟩ := (mem_pay_pending hids hadm.1 hst).mp hj
      rw [mem_smove_of_ne fun he => hother i hadm j hj₀ hne ⟨hst, he⟩]
      exact hres j hj₀ hst
    · intro a ha hno j hj hholds
      obtain ⟨hj₀, hne⟩ := (mem_pay_pending hids hadm.1 hholds.1).mp hj
      have hamount : a ≠ i.exactAmount := fun he => hother i hadm j hj₀ hne (he ▸ hholds)
      rw [mem_smove_of_ne hamount] at ha
      exact hno ha

/-- The confirmation of the FAILED intent. -/
theorem confirm_failed_intent : Executes 0 (do
      let i ← handlePendingPayment 2 2
      await .commit
      pure i) (reserved true)
    (confirmCalls ⟨2, 2, .FAILED, 1500000, 1500000, none⟩ ++ [⟨.done, .commit, .ok ()⟩])
    (.ok ⟨2, 2, .PAID, 1500000, 1500000, none⟩)
    ((released (reserved true) ⟨2, 2, .FAILED, 1500000, 1500000, none⟩).commit 0) := by
  refine confirm_executes (i := ⟨2, 2, .FAILED, 1500000, 1500000, none⟩) (fun _ => rfl) (by decide)
    (by decide) ?_
  exact Runs.call ⟨rfl, rfl⟩ .ret

theorem confirm_keeps_reservations_sample : ∃ (cs : Calls) (x : PaymentIntent) (w' : World),
    Executes 0 (do
      let i ← handlePendingPayment 2 2
      await .commit
      pure i) (reserved true) cs (.ok x) w' ∧
      (Reserves w' ∧ NoneFreed (reserved true) w' ↔ ∀ i, Admits (reserved true) 2 2 i →
        ∀ j ∈ (reserved true).db.intents, j ≠ i → ¬ j.Holds i.exactAmount) :=
  ⟨_, _, _, confirm_failed_intent,
    confirm_keeps_reservations_iff rfl (by decide) (by decide) confirm_failed_intent⟩

/-- Confirming a FAILED intent takes the reservation of the PENDING intent with the same amount, although
the table meets `idx_pending_price`. -/
theorem confirm_takes_reservation : ∃ (cs : Calls) (x : PaymentIntent) (w' : World),
    Executes 0 (do
      let i ← handlePendingPayment 2 2
      await .commit
      pure i) (reserved true) cs (.ok x) w' ∧ Reserves (reserved true) ∧
      (reserved true).db.intents.Pairwise (fun i j => ∀ a, i.Holds a → ¬ j.Holds a) ∧
      ¬ Reserves w' ∧ ¬ NoneFreed (reserved true) w' := by
  refine ⟨_, _, _, confirm_failed_intent, by decide, ?_, by decide, fun hf => ?_⟩
  · simp [reserved, PaymentIntent.Holds]
  · refine hf 1500000 (by decide) (by decide) ⟨1, 1, .PENDING, 1500000, 1500000, none⟩ ?_ ⟨rfl, rfl⟩
    exact List.mem_cons_self

end Requests

end PaymentRecon
