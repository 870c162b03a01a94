import PaymentRecon.Settle.Staged

/-!
# Deal — where a request is with the intent it settles

`dealOf p past` is read off the operations of `p` and their answers, whatever fails.  A request settles a
row that it holds the lock of, commits it, and releases its amount after the commit (a payment message)
or before it (a confirmation).  `Promised` is the promise under which it performs its operations.
-/

namespace PaymentRecon

open Interleave Rely

namespace Settle

variable {p q : Pid} {w w' : World} {past : List Label} {x : Label}

inductive Deal
  | idle
  | matched (i : PaymentIntent)
  | moved (i : PaymentIntent)
  | paid (i : PaymentIntent)
  -- the commit, or the release after it, failed
  | over

/-- The deal after an operation with this answer. -/
def Deal.next (s : Deal) : (op : Op) → Except Exc op.Ret → Deal
  | .flushPaid i _, .ok _ => .matched i
  | .smove .pendingOrders .freeAmounts _, .ok _ =>
    match s with
    | .matched i => .moved i
    | _ => .idle
  | .smove .pendingOrders .freeAmounts _, .error _ =>
    match s with
    | .paid _ => .over
    | s => s
  | .commit, .ok _ =>
    match s with
    | .matched i => .paid i
    | .moved _ => .idle
    | s => s
  | .commit, .error _ =>
    match s with
    | .matched _ => .over
    | .moved _ => .over
    | s => s
  | .rollback, _ => .idle
  | _, _ => s

def dealOf (p : Pid) (past : List Label) : Deal := track Deal.next .idle p past

theorem dealOf_own {f : Fault} {op : Op} {r : Except Exc op.Ret} :
    dealOf p (past ++ [.run p f op r]) = (dealOf p past).next op r := track_own

theorem dealOf_other (h : x.pid ≠ some p) : dealOf p (past ++ [x]) = dealOf p past := track_other h

theorem dealOf_spawn {y : Request} : dealOf p (past ++ [.spawn q y]) = dealOf p past := track_spawn

/-- The promise under which `p` performs the operation. -/
def Promised (p : Pid) (w : World) (past : List Label) : Op → Prop
  | .flushPaid i _ => dealOf p past = .idle ∧ w.Held p i ∧ (i.status = .PENDING ∨ i.status = .FAILED)
  | .smove .pendingOrders .freeAmounts a =>
    ∃ i : PaymentIntent, i.exactAmount = a ∧ (dealOf p past = .paid i ∨ dealOf p past = .matched i)
  | .commit => dealOf p past ≠ .over ∧ ∀ i, dealOf p past ≠ .paid i
  | .rollback => ∀ i, dealOf p past ≠ .paid i
  | _ => dealOf p past = .idle

def logic : Rely sig Exc Response World Request Tick where
  machine := system
  cond := fun _ _ _ _ => True
  inv := fun w _ => Consistent w
  start := fun p _ past => dealOf p past = .idle
  guard := Promised
  final := fun p _ _ past => dealOf p past = .idle

/-! ## Specifications -/

abbrev Facts := Assertion sig Exc World Request Tick

abbrev Keeps {β : Type} (p : Pid) (K : Facts) (y : App β) (post : Except Exc β → Facts) : Prop :=
  logic.Ensures p K y post

def At (p : Pid) (s : Deal) : Facts := fun _ past => dealOf p past = s

/-- The request may roll back. -/
def Open (p : Pid) : Facts := fun _ past => ∀ i, dealOf p past ≠ .paid i

theorem stable_deal (R : Deal → Prop) : logic.Stable p fun _ past => R (dealOf p past) := by
  intro w past a w' _ _ _ hp h
  show R (dealOf p (past ++ [a]))
  rw [dealOf_other hp]
  exact h

theorem stable_at (s : Deal) : logic.Stable p (At p s) := stable_deal (· = s)

theorem At.open {s : Deal} (h : At p s w past) (hs : ∀ i, s ≠ .paid i) : Open p w past := by
  intro i hi
  unfold At at h
  exact hs i (h.symm.trans hi)

theorem At.open_idle (h : At p .idle w past) : Open p w past := h.open fun _ => by simp

/-- **One operation**, from one deal to the next. -/
theorem keeps_op (op : Op) (s : Deal) (hg : ∀ w past, dealOf p past = s → Promised p w past op) :
    Keeps p (At p s) (await op) fun r => At p (s.next op r) := by
  refine Ensures.perform (fun r => stable_at _) (fun w past _ hK => hg w past hK) ?_
  intro f w past r w' _ hK _ _
  unfold At
  rw [dealOf_own, hK]

theorem keeps_rollback : Keeps p (Open p) (await .rollback) fun _ => At p .idle := by
  refine Ensures.perform (fun _ => stable_at _) (fun w past _ hK => hK) ?_
  intro f w past r w' _ _ _ _
  unfold At
  rw [dealOf_own]
  rfl

theorem keeps_rollback_throw {β : Type} (e : Exc) :
    Keeps p (Open p) (do await .rollback; throw e : App β) fun _ => At p .idle :=
  Ensures.bind keeps_rollback (fun _ _ _ h => h) fun _ _ _ h => h

/-- An operation that settles and releases nothing. -/
def Mild : Op → Prop
  | .flushPaid _ _ => False
  | .smove .pendingOrders .freeAmounts _ => False
  | _ => True

theorem mild_off {op : Op} (h : Off op) : Mild op := by
  rcases h with h | rfl | rfl
  · cases op <;> trivial
  · trivial
  · trivial

theorem mild_stocks {op : Op} (h : Stocks op) : Mild op := by
  cases op with
  | smove src dst a => cases src <;> cases dst <;> trivial
  | _ => trivial

theorem keeps_mild (op : Op) (h : Mild op) :
    Keeps p (At p .idle) (await op) fun _ => At p .idle := by
  refine Ensures.perform (fun _ => stable_at _) ?_ ?_
  · intro w past _ hK
    have hidle : dealOf p past = .idle := hK
    cases op with
    | flushPaid _ _ => exact h.elim
    | smove src dst a => cases src <;> cases dst <;> first | exact hidle | exact h.elim
    | commit => exact ⟨by rw [hidle]; simp, fun i => by rw [hidle]; simp⟩
    | rollback => exact At.open_idle (w := w) hidle
    | _ => exact hidle
  · intro f w past r w' _ hK _ _
    unfold At
    rw [dealOf_own, hK]
    cases op with
    | flushPaid _ _ => exact h.elim
    | smove src dst a => cases src <;> cases dst <;> first | rfl | exact h.elim
    | commit => cases r <;> rfl
    | _ => rfl

/-- A request of such operations stays idle. -/
theorem keeps_idle {β : Type} {y : App β} {R : Except Exc β → Prop} (hy : y.All Mild R) :
    Keeps p (At p .idle) y fun _ => At p .idle :=
  Ensures.all keeps_mild hy

/-! ## The two settlements -/

theorem staged : Staged logic Deal.next .idle .matched where
  machine := rfl
  locks h := h.locks
  aside h r := by
    rename_i op
    cases op with
    | flushPaid _ _ | commit | rollback => exact h.elim
    | smove src dst a => cases src <;> cases dst <;> exact h.elim
    | _ => rfl
  settled _ _ _ := rfl
  unsettled _ _ _ := rfl
  aside_guard {p w past op} h hat := by
    have hidle : dealOf p past = .idle := hat
    cases op with
    | flushPaid _ _ | commit | rollback => exact h.elim
    | smove src dst a => cases src <;> cases dst <;> exact h.elim
    | _ => exact hidle
  flush_guard _ hat hheld hs := ⟨hat, hheld, hs⟩

/-- **The handler of payment messages** releases what it committed. -/
theorem keeps_handlePayment (m : Message) :
    Keeps p (At p .idle) (handlePayment m) fun _ => At p .idle := by
  unfold handlePayment
  refine Ensures.tryCatch (m := fun r => match r with
    | .ok _ => At p .idle
    | .error _ => Open p) ?_ (fun _ _ _ h => h) fun e => keeps_rollback_throw _
  cases m.data.get "amount" with
  | error e => exact fun w past h => At.open_idle h
  | ok amount =>
    cases m.data.get "transaction_id" with
    | error e => exact fun w past h => At.open_idle h
    | ok t =>
      simp only [Prog.ofExcept_ok, Prog.ret_bind]
      refine Ensures.bind (staged.keeps_processPendingPayment amount t) ?_ fun _ _ _ h => At.open_idle h
      rintro ⟨i, _ | _⟩
      · refine Ensures.bind (keeps_mild .commit trivial) (fun _ _ _ h => h)
          fun _ _ _ h => At.open_idle h
      · refine Ensures.exists fun j => Ensures.pure fun hj => ?_
        refine Ensures.bind (keeps_op .commit (.matched j) ?_) ?_
          fun _ _ _ h => h.open fun _ => by simp [Deal.next]
        · exact fun _ _ h => ⟨by rw [h]; simp, fun _ => by rw [h]; simp⟩
        · intro _
          refine Ensures.bind (keeps_op (.smove .pendingOrders .freeAmounts amount.asInt) (.paid j)
            fun _ _ h => ⟨j, hj, Or.inl h⟩) (fun _ _ _ h => h) ?_
          exact fun _ _ _ h => h.open fun _ => by simp [Deal.next]

theorem keeps_handlePendingPayment (orderId paymentId : Id) :
    Keeps p (At p .idle) (handlePendingPayment orderId paymentId) fun r => match r with
      | .ok _ => fun w past => ∃ i, At p (.moved i) w past
      | .error _ => Open p := by
  unfold handlePendingPayment
  refine Ensures.bind (keeps_mild .beginSelect trivial) ?_ fun _ _ _ h => At.open_idle h
  intro _
  refine Ensures.bind (staged.keeps_select (.lockById paymentId orderId) rfl trivial
    fun f w rows w' hx => exec_lockById hx) ?_
    fun _ _ _ h => At.open_idle h
  intro rows
  refine Ensures.tryCatch (m := fun r => match r with
    | .ok _ => fun w past => ∃ i, At p (.moved i) w past
    | .error _ => Open p) ?_ (fun _ _ _ h => h) ?_
  · refine Ensures.bind (Staged.keeps_scalarOne _ _) ?_ fun _ _ _ h => At.open_idle h
    intro i
    refine Ensures.bind (staged.keeps_flushPaid none ?_) ?_ fun _ _ _ h => At.open_idle h
    · intro hi
      exact (by simpa [confirmable] using hi : _ ∧ _ ∧ _).2.2
    · intro _
      refine Ensures.bind ((keeps_op (.smove .pendingOrders .freeAmounts i.exactAmount) (.matched i)
        fun _ _ h => ⟨i, rfl, Or.inr h⟩).pre fun _ _ h => h.2) ?_ ?_
      · exact fun _ _ _ h => ⟨i, h⟩
      · exact fun _ _ _ h => h.open fun _ => by simp [Deal.next]
  · intro e
    split_ifs <;> exact fun _ _ h => h

theorem keeps_confirmPayment (orderId paymentId : Id) :
    Keeps p (At p .idle) (confirmPayment orderId paymentId) fun _ => At p .idle := by
  unfold confirmPayment withDb
  refine Ensures.tryCatch (m := fun r => match r with
    | .ok _ => At p .idle
    | .error _ => Open p) ?_ (fun _ _ _ h => h) fun e => keeps_rollback_throw e
  refine Ensures.tryCatch (m := fun r => match r with
    | .ok _ => At p .idle
    | .error _ => Open p) ?_ (fun _ _ _ h => h) ?_
  · refine Ensures.bind (keeps_handlePendingPayment orderId paymentId) ?_ fun _ _ _ h => h
    intro i
    refine Ensures.exists fun j => Ensures.bind (keeps_op .commit (.moved j) ?_) ?_ ?_
    · exact fun _ _ h => ⟨by rw [h]; simp, fun _ => by rw [h]; simp⟩
    · exact fun _ _ _ h => h
    · exact fun _ _ _ h => h.open fun _ => by simp [Deal.next]
  · intro e
    refine Ensures.bind keeps_rollback ?_ fun _ _ _ h => At.open_idle h
    intro _
    split_ifs <;> exact fun w past h => At.open_idle h

/-! ## All requests -/

theorem keeps_prog (q : Request) : Keeps p (At p .idle) q.prog fun _ => At p .idle := by
  have off : ∀ {y : App Response} {A : Op → Prop}, y.All A (fun _ => True) → (∀ op, A op → Off op) →
      Keeps p (At p .idle) y fun _ => At p .idle :=
    fun hy hA => keeps_idle (hy.mono (fun op h => mild_off (hA op h)) fun _ h => h)
  have stocks : ∀ {y : App Response}, y.All Stocks NotAccepted →
      Keeps p (At p .idle) y fun _ => At p .idle :=
    fun hy => keeps_idle (hy.mono (fun _ => mild_stocks) fun _ h => h)
  cases q with
  | createOrder userId amount => exact stocks (all_createOrder userId amount)
  | confirmPayment orderId paymentId => exact keeps_confirmPayment orderId paymentId
  | handlePayment m =>
    exact Ensures.bind (keeps_handlePayment m) (fun _ _ _ h => h) fun _ _ _ h => h
  | receiveTransaction s => exact off (all_receiveTransaction s) fun _ => Records.off
  | processOutboxEvent => exact off all_processOutboxEvent fun _ => Relays.off
  | work workerId =>
    exact ensures_turn (fun op h => keeps_mild op (mild_off h.off)) (fun m => keeps_handlePayment m) workerId
  | replayDlq y => exact off (all_replayDlqDashboard y) fun _ => Replays.off
  | lifespan fuel => exact stocks (all_lifespan fuel)

theorem sound : logic.Sound where
  prog p q w past w' _ _ := (keeps_prog q).pre fun _ _ h => h.1
  start p := stable_at .idle
  begin w past p q h := by
    show dealOf p (past ++ [.spawn p q]) = .idle
    rw [dealOf_spawn]
    exact h
  spawn w past p q h _ := h
  run f w past p op r w' h _ hx _ := h.tableStep (exec_tableStep hx)
  crash w past p h _ := h.tableStep (.rollback (p := p) rfl (SessionIs.setTxn rfl))
  outer w past x h _ := by
    cases x
    exact h.tableStep (.same (p := 0) rfl rfl)

end Settle

end PaymentRecon
