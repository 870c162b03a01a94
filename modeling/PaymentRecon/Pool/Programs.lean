import PaymentRecon.Pool.Stages
import PaymentRecon.Settle.Staged

/-!
# Programs — the requests keep their promises to the pool

One specification for each function, in terms of the stage it starts from and the stages it may end in.
-/

namespace PaymentRecon

open Interleave Rely

namespace Pool

variable {boot : Prop} {p : Pid} {w w' : World} {past : List Label}

abbrev Facts := Assertion sig Exc World Request Tick

/-- The function keeps its promises from a moment at which `K` holds, and ends with `post`. -/
abbrev Keeps {β : Type} (boot : Prop) (p : Pid) (K : Facts) (x : App β)
    (post : Except Exc β → Facts) : Prop :=
  (logic boot).Ensures p K x post

def At (p : Pid) (s : Stage) : Facts := fun _ past => stageOf p past = s

/-- The request may roll back. -/
def Still (p : Pid) : Facts := fun _ past => MayRollBack p past

theorem stable_stage (R : Stage → Prop) : (logic boot).Stable p fun _ past => R (stageOf p past) := by
  intro w past a w' _ _ _ hp h
  show R (stageOf p (past ++ [a]))
  rw [stageOf_other hp]
  exact h

theorem stable_at (s : Stage) : (logic boot).Stable p (At p s) := stable_stage (· = s)

theorem At.still {s : Stage} (h : At p s w past) (hb : ¬ s.Bound)
    (ho : ∀ a, s.Owns a → (a = 0 ∧ s.Takes a) ∨ Faulted p past) : Still p w past := by
  unfold Still MayRollBack
  rw [h]
  exact ⟨hb, ho⟩

theorem At.still_idle (h : At p .idle w past) : Still p w past :=
  h.still (by simp [Stage.Bound]) (by simp)

theorem At.still_matched {i : PaymentIntent} (h : At p (.matched i) w past) : Still p w past :=
  h.still (by simp [Stage.Bound]) (by simp)

theorem persistent_faulted : (logic boot).Persistent fun _ past => Faulted p past :=
  fun _ _ _ _ _ _ _ ⟨op, r, h⟩ => ⟨op, r, List.mem_append_left _ h⟩

/-! ## Single operations -/

/-- **One operation**, from one stage to the next; `R` is what its answer says. -/
theorem keeps_op (op : Op) (s : Stage) {R : Except Exc op.Ret → Prop}
    (hg : ∀ w past, stageOf p past = s → Lawful boot p w past op)
    (hx : ∀ f w past r w', exec f p op w r w' →
      (logic boot).cond w past (.run p f op r) w' → R r) :
    Keeps boot p (At p s) (await op) fun r w past => At p (s.next op r) w past ∧ R r := by
  refine Ensures.perform ?_ (fun w past _ hK => hg w past hK) ?_
  · exact fun r => (stable_at _).and fun _ _ _ _ _ _ _ _ h => h
  · intro f w past r w' _ hK hex hc
    refine ⟨?_, hx f w past r w' hex hc⟩
    unfold At
    rw [stageOf_own, hK]

theorem keeps_rollback : Keeps boot p (Still p) (await .rollback) fun _ => At p .idle := by
  refine Ensures.perform (fun _ => stable_at _) (fun w past _ hK => hK) ?_
  intro f w past r w' _ _ _ _
  unfold At
  rw [stageOf_own]
  rfl

/-- A commit goes through. -/
theorem keeps_commit (s : Stage) : Keeps boot p (At p s) (await .commit)
    fun r w past => r = .ok () ∧ At p (s.next .commit (.ok ())) w past := by
  refine (keeps_op (.commit) s (R := fun r => r = .ok ()) (fun _ _ _ => trivial)
    ?_).mono ?_
  · intro f w past r w' hx hc
    exact (outage_run hx hc id).1
  · rintro r w past ⟨hat, rfl⟩
    exact ⟨rfl, hat⟩

theorem keeps_rollback_throw {β : Type} (e : Exc) :
    Keeps boot p (Still p) (do await .rollback; throw e : App β) fun _ => At p .idle :=
  Ensures.bind keeps_rollback (fun _ _ _ h => h) fun _ _ _ h => h

/-- `get_db` rolls back what an exception leaves. -/
theorem keeps_withDb {β : Type} {K : Facts} {body : App β} {m : Except Exc β → Facts}
    (h : Keeps boot p K body m) (hok : ∀ b w past, m (.ok b) w past → At p .idle w past)
    (herr : ∀ e w past, m (.error e) w past → Still p w past) :
    Keeps boot p K (withDb body) fun _ => At p .idle :=
  Ensures.tryCatch h hok fun e => (keeps_rollback_throw e).pre (herr e)

theorem lawful_aside {op : Op} (h : Aside op) : Lawful boot p w past op := by
  cases op <;> trivial

/-- Operations of no concern to the pool leave the stage as it is. -/
theorem keeps_aside {β : Type} {x : App β} {R : Except Exc β → Prop} (s : Stage)
    (hx : x.All Aside R) : Keeps boot p (At p s) x fun r w past => At p s w past ∧ R r := by
  induction x with
  | ret b => exact fun w past hK => ⟨hK, hx⟩
  | raise e => exact fun w past hK => ⟨hK, hx⟩
  | call op k ih =>
    refine ⟨fun _ => At p s, fun _ => stable_at s, ?_, ?_, fun r => ih r (hx.2 r)⟩
    · intro w past _ _
      exact lawful_aside hx.1
    · intro f w past r w' _ hK _ _
      unfold At
      rw [stageOf_own, hK]
      exact Stage.next_aside hx.1

theorem keeps_asideOp (op : Op) (s : Stage) (h : Aside op) :
    Keeps boot p (At p s) (await op) fun _ w past => At p s w past ∧ True :=
  keeps_aside s (all_await h)

theorem keeps_off {op : Op} (h : Off op) :
    Keeps boot p (At p .idle) (await op) fun _ => At p .idle := by
  refine Ensures.perform (fun _ => stable_at _) ?_ ?_
  · intro w past _ hK
    rcases h with hop | rfl | rfl
    · exact lawful_aside hop
    · trivial
    · exact At.still_idle hK
  · intro f w past r w' _ hK _ _
    unfold At
    rw [stageOf_own, hK]
    rcases h with hop | rfl | rfl
    · exact Stage.next_aside hop
    · cases r <;> rfl
    · rfl

/-- A request that does nothing with the pool. -/
theorem keeps_idle {β : Type} {x : App β} (hx : x.All Off fun _ => True) :
    Keeps boot p (At p .idle) x fun _ => At p .idle :=
  Ensures.all (fun _ h => keeps_off h) hx

/-- How the body of an endpoint ends: nothing is left, or the request may roll back. -/
def Ended {β : Type} (p : Pid) : Except Exc β → Facts
  | .ok _ => At p .idle
  | .error _ => Still p

/-! ## Creating an order -/

/-- The stages a request may be in after an allocation. -/
def Allocated (p : Pid) : Except Exc (Option AllocatedAmount) → Facts
  | .ok (some ⟨a, .redis⟩) => At p (.reserved a)
  | .ok (some ⟨_, .postgres⟩) => fun w past => At p .idle w past ∧ Faulted p past
  | _ => At p .idle

/-- After an operation on the set `free_amounts` or `amounts` that may find Redis out of reach. -/
theorem keeps_redisOp (op : Op) (s : Stage) (hop : op.OnRedis)
    (hg : ∀ w past, stageOf p past = s → Lawful boot p w past op) :
    Keeps boot p (At p s) (await op) fun r w past => At p (s.next op r) w past ∧
      ∀ e, r = .error e → Faulted p past := by
  refine Ensures.perform ?_ (fun w past _ hK => hg w past hK) ?_
  · intro r
    refine (stable_at _).and ?_
    intro w past a w' _ _ _ _ h e he
    obtain ⟨op, r, hm⟩ := h e he
    exact ⟨op, r, List.mem_append_left _ hm⟩
  · intro f w past r w' _ hK hex hc
    refine ⟨?_, ?_⟩
    · unfold At
      rw [stageOf_own, hK]
    · rintro e rfl
      rcases outage_cases hex hc with ⟨-, hrun⟩ | ⟨rfl, -⟩
      · obtain ⟨_, h⟩ := redis_ok hop hrun
        exact absurd h (by simp)
      · exact ⟨op, _, List.mem_append_right _ (List.mem_singleton_self _)⟩

theorem keeps_getUniqueAmount (base : Option Amount) :
    Keeps boot p (At p .idle) (getUniqueAmount base) (Allocated p) := by
  unfold getUniqueAmount
  refine Ensures.tryCatch (m := fun r w past => match r with
    | .ok x => Allocated p (.ok x) w past
    | .error _ => At p .idle w past ∧ Faulted p past) ?_ (fun _ _ _ h => h) ?_
  · refine Ensures.bind (keeps_redisOp (.spop .freeAmounts) .idle trivial
      fun _ _ h => ⟨rfl, h⟩) ?_ fun e _ _ h => ⟨h.1, h.2 e rfl⟩
    intro given
    cases given with
    | none => exact fun _ _ h => h.1
    | some a =>
      refine Ensures.bind ((keeps_redisOp (.smove .amounts .pendingOrders a)
        (.popped a) trivial fun _ _ h => h).pre fun _ _ h => h.1) ?_
        fun e _ _ h => ⟨h.1, h.2 e rfl⟩
      exact fun _ _ _ h => h.1
  · intro e
    split_ifs
    · refine Ensures.bind ((keeps_aside .idle (R := fun _ => True) ?_).frame persistent_faulted) ?_
        fun _ _ _ h => h.1.1
      · exact all_await trivial
      · intro c
        cases c with
        | none => exact fun _ _ h => h.1.1
        | some c => exact fun _ _ h => ⟨h.1.1, h.2⟩
    · exact fun _ _ h => h.1

/-- A compensation that Redis does not cut short returns the amount. -/
theorem keeps_compensate (a : Amount) :
    Keeps boot p (At p (.reserved a)) (compensate a) fun _ => Still p := by
  unfold compensate
  refine Ensures.tryCatch (m := fun _ => Still p) ?_ (fun _ _ _ h => h) fun _ _ _ h => h
  refine Ensures.bind (keeps_redisOp (.smove .pendingOrders .amounts a)
    (.reserved a) trivial fun _ _ h => h) ?_ ?_
  · intro _
    refine ((keeps_redisOp (.sadd .freeAmounts [a]) (.returning a) trivial
      fun _ _ h => ⟨a, rfl, h⟩).pre fun _ _ h => h.1).mono ?_
    intro r w past h
    cases r with
    | ok _ => exact At.still_idle h.1
    | error e =>
      exact h.1.still (by simp [Stage.next, Stage.Bound]) fun _ _ => Or.inr (h.2 e rfl)
  · intro e w past h
    exact h.1.still (by simp [Stage.next, Stage.Bound]) fun _ _ => Or.inr (h.2 e rfl)

theorem keeps_logStatistics (s : Stage) :
    Keeps boot p (At p s) logStatistics fun _ => At p s := by
  refine (keeps_aside s (R := fun _ => True) ?_).mono fun _ _ _ h => h.1
  unfold logStatistics
  refine Prog.All.tryCatch (m := fun _ => True) ?_ (fun _ _ => trivial) fun _ _ => trivial
  refine all_then trivial ?_ fun _ => trivial
  exact fun _ => all_then trivial (fun _ => trivial) fun _ => trivial

/-- After `create_order_service`: the order is stored, or the request may roll back. -/
def Created (p : Pid) : Except Exc (Option Order) → Facts
  | .ok (some _) => fun w past => ∃ a, At p (.stored a) w past
  | _ => Still p

theorem keeps_compensate_throw (a : Amount) (e : Exc) :
    Keeps boot p (At p (.reserved a)) (do compensate a; throw e : App (Option Order)) (Created p) :=
  Ensures.bind (keeps_compensate a) (fun _ _ _ h => h) fun _ _ _ h => h

/-- After the insertion of the order; an error leaves the stage as it was. -/
def Inserted (p : Pid) (a : Amount) (s : Stage) : Except Exc (Option Order) → Facts
  | .ok (some _) => At p (.stored a)
  | .ok none => fun _ _ => False
  | .error _ => At p s

theorem Inserted.created {a : Amount} {s : Stage} {o : Option Order}
    (h : Inserted p a s (.ok o) w past) : Created p (.ok o) w past := by
  cases o with
  | none => exact h.elim
  | some o => exact ⟨a, h⟩

theorem keeps_insertOrder {F : Facts} (userId : Id) (amount : Amount) {a : Amount} (s : Stage)
    (hF : (logic boot).Persistent F)
    (hg : ∀ w past, At p s w past ∧ F w past → Lawful boot p w past (.insertOrder userId amount a)) :
    Keeps boot p (fun w past => At p s w past ∧ F w past) (do
      let newOrder ← await (.insertOrder userId amount a)
      pure (some newOrder) : App (Option Order))
      fun r w past => Inserted p a s r w past ∧ F w past := by
  have hop : Keeps boot p (fun w past => At p s w past ∧ F w past)
      (await (.insertOrder userId amount a)) fun r w past =>
        At p (s.next (.insertOrder userId amount a) r) w past ∧ F w past := by
    refine Ensures.perform (fun r => (stable_at _).and hF.stable) (fun w past _ hK => hg w past hK) ?_
    intro f w past r w' hI hK hex hc
    refine ⟨?_, hF w past (.run p f _ r) w' hI hex hc hK.2⟩
    unfold At
    rw [stageOf_own, hK.1]
  refine Ensures.bind hop ?_ fun _ _ _ h => h
  exact fun o _ _ h => h

theorem keeps_createOrderLoop (userId : Id) (amount : Amount) (n : ℕ) :
    Keeps boot p (At p .idle) (createOrderLoop userId amount n) (Created p) := by
  induction n with
  | zero => exact fun _ _ h => At.still_idle h
  | succ n ih =>
    unfold createOrderLoop
    refine Ensures.bind (keeps_getUniqueAmount (some amount)) ?_
      fun _ w _ h => At.still_idle (w := w) h
    intro unique
    -- no amount was allocated, or the amount 0, which Python takes for none
    have hnone : ∀ s : Stage, (∀ w past, At p s w past → Still p w past) → Keeps boot p (At p s)
        (do logStatistics; pure none : App (Option Order)) (Created p) := fun s hs =>
      Ensures.bind (keeps_logStatistics s) (fun _ _ _ h => hs _ _ h) fun _ _ _ h => hs _ _ h
    cases unique with
    | none => exact hnone .idle fun _ _ h => At.still_idle h
    | some found =>
      obtain ⟨a, source⟩ := found
      by_cases ha : a = 0
      · subst ha
        cases source with
        | redis =>
          refine hnone (.reserved 0) fun _ _ h => h.still (by simp [Stage.Bound]) ?_
          rintro a ha
          obtain rfl := owns_reserved.mp ha
          exact Or.inl ⟨rfl, Or.inr (Or.inl rfl)⟩
        | postgres => exact (hnone .idle fun _ _ h => At.still_idle h).pre fun _ _ h => h.1
      · simp only [Option.filter, ne_eq, ha, not_false_eq_true, decide_true, if_true]
        cases source with
        | redis =>
          have hins : Keeps boot p _ _ _ := keeps_insertOrder userId amount (a := a) (.reserved a)
            Persistent.true fun _ _ h => Or.inl h.1
          refine Ensures.tryCatch (hins.pre fun _ _ h => ⟨h, trivial⟩) (fun o _ _ h => h.1.created) ?_
          intro e
          simp only [if_true]
          split_ifs
          · exact (keeps_compensate_throw a _).pre fun _ _ h => h.1
          · exact (keeps_compensate_throw a _).pre fun _ _ h => h.1
        | postgres =>
          have hins : Keeps boot p _ _ _ := keeps_insertOrder userId amount (a := a) .idle
            persistent_faulted fun _ _ h => Or.inr h
          refine Ensures.tryCatch hins (fun o _ _ h => h.1.created) ?_
          intro e
          have hthrow : ∀ e, Keeps boot p (fun w past => At p .idle w past ∧ Faulted p past)
              (throw e : App (Option Order)) (Created p) := fun e _ _ h =>
            At.still_idle h.1
          simp only [reduceCtorEq, if_false]
          split_ifs
          · exact hthrow _
          · exact ih.pre fun _ _ h => h.1
          · exact hthrow _

theorem keeps_createOrder (userId : Id) (amount : Amount) :
    Keeps boot p (At p .idle) (createOrder userId amount) fun _ => At p .idle := by
  unfold createOrder
  refine keeps_withDb (m := Ended p) ?_ (fun _ _ _ h => h) fun _ _ _ h => h
  refine Ensures.tryCatch (m := Ended p) ?_ (fun _ _ _ h => h) ?_
  · refine Ensures.bind (keeps_createOrderLoop userId amount 3) ?_ fun _ _ _ h => h
    intro order
    cases order with
    | none => exact fun _ _ h => h
    | some o =>
      refine Ensures.exists fun a => ?_
      refine Ensures.bind (keeps_commit (.stored a)) ?_ ?_
      · intro _
        refine Ensures.bind ((keeps_asideOp (.refreshOrder o.id) .idle trivial).pre
          fun _ _ h => h.2) ?_ fun _ _ _ h => At.still_idle h.1
        exact fun _ _ _ h => h.1
      · rintro _ _ _ ⟨h, -⟩
        exact absurd h (by simp)
  · intro e
    have hroll : ∀ e, Keeps boot p (Still p) (do await .rollback; throw e : App Response)
        (Ended p) := fun e =>
      Ensures.bind keeps_rollback (fun _ _ _ h => At.still_idle h) fun _ _ _ h => At.still_idle h
    split
    · exact fun _ _ h => h
    · exact hroll _
    · exact hroll _

/-! ## Settling an order -/

theorem staged : Staged (logic boot) Stage.next .idle .matched where
  machine := rfl
  locks h := h.locks
  aside h _ := Stage.next_aside h
  settled _ _ _ := rfl
  unsettled _ _ _ := rfl
  aside_guard h _ := lawful_aside h
  flush_guard _ hat hheld hs := ⟨hat, hheld, hs⟩

/-- **The handler of payment messages**, for any message. -/
theorem keeps_handlePayment (m : Message) :
    Keeps boot p (At p .idle) (handlePayment m) fun _ => At p .idle := by
  unfold handlePayment
  refine Ensures.tryCatch (m := Ended p) ?_ (fun _ _ _ h => h) ?_
  · -- a message without the two fields touches nothing
    cases m.data.get "amount" with
    | error e => exact fun w past h => At.still_idle h
    | ok amount =>
      cases m.data.get "transaction_id" with
      | error e => exact fun w past h => At.still_idle h
      | ok t =>
        simp only [Prog.ofExcept_ok, Prog.ret_bind]
        refine Ensures.bind (staged.keeps_processPendingPayment amount t) ?_ fun _ w _ h =>
          At.still_idle (w := w) h
        rintro ⟨i, _ | _⟩
        · refine Ensures.bind (keeps_commit .idle) ?_ ?_
          · intro _
            exact fun _ _ h => h.2
          · rintro _ _ _ ⟨h, -⟩
            exact absurd h (by simp)
        · refine Ensures.exists fun j => Ensures.pure fun hj => ?_
          refine Ensures.bind (keeps_commit (.matched j)) ?_ ?_
          · intro _
            refine Ensures.bind ((keeps_redisOp (.smove .pendingOrders .freeAmounts amount.asInt)
              (.paid j.exactAmount) trivial fun _ _ h => Or.inl (hj ▸ h)).pre
              fun _ _ h => h.2) ?_ ?_
            · exact fun _ _ _ h => h.1
            · exact fun e _ _ h =>
                h.1.still (by simp [Stage.next, Stage.Bound]) fun _ _ => Or.inr (h.2 e rfl)
          · rintro _ _ _ ⟨h, -⟩
            exact absurd h (by simp)
  · intro e
    exact keeps_rollback_throw _

theorem persistent_confirms : (logic boot).Persistent fun _ past => Confirms p past :=
  fun _ _ _ _ _ _ _ ⟨o, i, h⟩ => ⟨o, i, List.mem_append_left _ h⟩

theorem keeps_handlePendingPayment (orderId paymentId : Id) :
    Keeps boot p (fun w past => At p .idle w past ∧ Confirms p past)
      (handlePendingPayment orderId paymentId) fun r => match r with
      | .ok _ => fun w past => ∃ i, At p (.moved i) w past
      | .error _ => Still p := by
  unfold handlePendingPayment
  refine Ensures.bind ((keeps_asideOp .beginSelect .idle trivial).frame persistent_confirms) ?_
    fun _ _ _ h => At.still_idle h.1.1
  intro _
  refine Ensures.bind (((staged.keeps_select (.lockById paymentId orderId) rfl trivial
    fun f w rows w' hx => exec_lockById hx).frame
    persistent_confirms).pre fun _ _ h => ⟨h.1.1, h.2⟩) ?_ fun _ _ _ h => At.still_idle h.1
  intro rows
  refine Ensures.tryCatch (m := fun r => match r with
    | .ok _ => fun w past => ∃ i, At p (.moved i) w past
    | .error _ => Still p) ?_ (fun _ _ _ h => h) ?_
  · refine Ensures.bind ((Staged.keeps_scalarOne _ _).frame persistent_confirms) ?_
      fun _ w _ h => At.still_idle (w := w) h.1
    intro i
    refine Ensures.bind ((staged.keeps_flushPaid none ?_).frame persistent_confirms) ?_
      fun _ w _ h => At.still_idle (w := w) h.1
    · intro hi
      exact (by simpa [confirmable] using hi : _ ∧ _ ∧ _).2.2
    · intro _
      refine Ensures.bind (m := fun r => At p (Stage.next (.matched i)
        (.smove .pendingOrders .freeAmounts i.exactAmount) r)) ?_ ?_ ?_
      · refine Ensures.perform (fun r => stable_at _) ?_ ?_
        · exact fun w past _ h => Or.inr ⟨h.2, i, h.1.2, rfl⟩
        · intro f w past r w' _ h _ _
          have hmatched : stageOf p past = .matched i := h.1.2
          unfold At
          rw [stageOf_own, hmatched]
      · exact fun _ _ _ h => ⟨i, h⟩
      · exact fun _ _ _ h => At.still_matched h
  · intro e
    split_ifs <;> exact fun _ _ h => h

theorem keeps_confirmPayment (orderId paymentId : Id) :
    Keeps boot p (fun w past => At p .idle w past ∧ Confirms p past)
      (confirmPayment orderId paymentId) fun _ => At p .idle := by
  unfold confirmPayment
  refine keeps_withDb (m := Ended p) ?_ (fun _ _ _ h => h) fun _ _ _ h => h
  refine Ensures.tryCatch (m := Ended p) ?_ (fun _ _ _ h => h) ?_
  · refine Ensures.bind (keeps_handlePendingPayment orderId paymentId) ?_ fun _ _ _ h => h
    intro i
    refine Ensures.exists fun j => Ensures.bind (keeps_commit (.moved j)) ?_ ?_
    · exact fun _ _ _ h => h.2
    · rintro _ _ _ ⟨h, -⟩
      exact absurd h (by simp)
  · intro e
    refine Ensures.bind keeps_rollback ?_ fun _ _ _ h => At.still_idle h
    intro _
    split_ifs <;> exact fun w past h => At.still_idle h

/-! ## The worker -/

theorem keeps_turn (workerId : String) :
    Keeps boot p (At p .idle) (paymentWorker workerId).turn fun _ => At p .idle :=
  ensures_turn (fun _ h => keeps_off h.off) (fun m => keeps_handlePayment m) workerId

/-! ## Startup -/

/-- A startup operation leaves the stage idle. -/
theorem keeps_startupOp {op : Op} {F : Facts} (hF : (logic boot).Persistent F)
    (hnext : ∀ r, Stage.idle.next op r = .idle)
    (hg : ∀ w past, F w past → Lawful boot p w past op) :
    Keeps boot p (fun w past => At p .idle w past ∧ F w past) (await op)
      fun _ w past => At p .idle w past ∧ F w past := by
  refine Ensures.perform (fun _ => (stable_at _).and hF.stable) (fun w past _ hK => hg w past hK.2) ?_
  intro f w past r w' hI hK hx hc
  refine ⟨?_, hF w past (.run p f op r) w' hI hx hc hK.2⟩
  unfold At
  rw [stageOf_own, hK.1]
  exact hnext r

/-- The amounts are those of stored intents. -/
def Intended (as : List Amount) : Facts := fun w _ => ∀ a ∈ as, ∃ i ∈ w.db.intents, i.exactAmount = a

theorem persistent_intended (as : List Amount) : (logic boot).Persistent (Intended as) := by
  intro w past a w' _ hw _ h x hx
  obtain ⟨i, hi, hxa⟩ := h x hx
  obtain ⟨q, hq, -⟩ := wstep_tableStep (p := 0) hw
  obtain ⟨j, hj, -, hja⟩ := hq.intent_mono hi
  exact ⟨j, hj, hja.trans hxa⟩

theorem keeps_pendingPage (cursor : Id) (limit : ℕ) (buffer : List Amount) :
    Keeps boot p (fun w past => At p .idle w past ∧ Intended buffer w past)
      (await (.pendingPage cursor limit)) fun r w past => match r with
        | .ok page => At p .idle w past ∧ Intended (buffer ++ page.map (·.exactAmount)) w past
        | .error _ => At p .idle w past := by
  refine Ensures.perform ?_ (fun _ _ _ _ => trivial) ?_
  · intro r
    cases r with
    | ok page => exact (stable_at _).and (persistent_intended _).stable
    | error _ => exact stable_at _
  · intro f w past r w' hI hK hx hc
    have hat : At p .idle w' (past ++ [.run p f _ r]) := by
      unfold At
      rw [stageOf_own, hK.1]
      rfl
    cases r with
    | error e => exact hat
    | ok page =>
      refine ⟨hat, ?_⟩
      have hrun := outage_run hx hc id
      obtain ⟨hpage, hw⟩ := hrun
      rw [hw]
      obtain rfl : page = w.db.pendingPage cursor limit := by simpa using hpage
      intro a ha
      rcases List.mem_append.mp ha with ha | ha
      · exact hK.2 a ha
      · obtain ⟨i, hi, rfl⟩ := List.mem_map.mp ha
        have hmem := List.mem_of_mem_take hi
        rw [List.mem_mergeSort] at hmem
        exact ⟨i, (List.mem_filter.mp hmem).1, rfl⟩

theorem keeps_addPendingOrders (hboot : boot) (limit redisBuffer fuel : ℕ) (cursor : Id)
    (buffer : List Amount) :
    Keeps boot p (fun w past => At p .idle w past ∧ Intended buffer w past)
      (addPendingOrders limit redisBuffer fuel cursor buffer) fun r w past => match r with
        | .ok rest => At p .idle w past ∧ Intended rest w past
        | .error _ => At p .idle w past := by
  induction fuel generalizing cursor buffer with
  | zero =>
    refine Ensures.bind (keeps_startupOp (persistent_intended buffer) (fun _ => rfl)
      fun _ _ _ => trivial) ?_ fun _ _ _ h => h.1
    exact fun _ _ _ h => h
  | succ fuel ih =>
    unfold addPendingOrders
    refine Ensures.bind (keeps_pendingPage cursor limit buffer) ?_ fun _ _ _ h => h
    intro page
    cases page.getLast? with
    | none =>
      refine fun w past h => ⟨h.1, fun a ha => h.2 a (List.mem_append_left _ ha)⟩
    | some last =>
      simp only
      split_ifs
      · refine Ensures.bind (keeps_startupOp (persistent_intended _) (fun _ => rfl)
          fun w past h => ⟨hboot, h⟩) ?_ fun _ _ _ h => h.1
        intro _
        exact (ih last.id []).pre fun w past h => ⟨h.1, fun a ha => by simp at ha⟩
      · exact ih last.id _

theorem keeps_isExistRangeAmount (hboot : boot) {batch : ℕ} (hbatch : 0 < batch) :
    Keeps boot p (At p .idle) (isExistRangeAmount 1500000 1550000 batch) fun _ => At p .idle := by
  unfold isExistRangeAmount
  refine Ensures.bind (keeps_idle (all_await (Or.inl trivial))) ?_ fun _ _ _ h => h
  intro existing
  split_ifs
  · exact fun _ _ h => h
  · refine Ensures.forEachInv fun b hb => ?_
    refine ((keeps_startupOp Persistent.true (fun _ => rfl) ?_).pre
      fun _ _ h => ⟨h, trivial⟩).mono fun _ _ _ h => h.1
    intro w past _
    refine ⟨hboot, fun a ha => ?_⟩
    have hmem := (mem_batches hbatch).mp ⟨b, hb, ha⟩
    exact Finset.mem_Icc.mpr (mem_amountRange.mp hmem)

theorem keeps_lifespan (hboot : boot) (fuel : ℕ) :
    Keeps boot p (At p .idle) (lifespan fuel) fun _ => At p .idle := by
  have hstart : ∀ {op : Op}, (∀ r, Stage.idle.next op r = .idle) →
      (∀ w past, Lawful boot p w past op) →
      Keeps boot p (At p .idle) (await op) fun _ => At p .idle := fun hnext hg =>
    ((keeps_startupOp Persistent.true hnext fun w past _ => hg w past).pre
      fun _ _ h => ⟨h, trivial⟩).mono fun _ _ _ h => h.1
  unfold lifespan
  refine Ensures.bind (keeps_isExistRangeAmount hboot (by decide)) ?_ fun _ _ _ h => h
  intro _
  refine Ensures.bind (m := fun _ => At p .idle) ?_ (fun _ _ _ h => h) fun _ _ _ h => h
  unfold rebuildPool
  refine Ensures.bind (hstart (fun _ => rfl) fun _ _ => ⟨hboot, rfl⟩) ?_ fun _ _ _ h => h
  intro _
  refine Ensures.bind ((keeps_addPendingOrders hboot 100 1000 fuel 0 []).pre
    fun _ _ h => ⟨h, fun a ha => by simp at ha⟩) ?_ fun _ _ _ h => h
  intro rest
  have hlast : Keeps boot p (At p .idle) (await (.sdiffstore .freeAmounts .amounts .pendingOrders))
      fun _ => At p .idle := hstart (fun _ => rfl) fun _ _ => ⟨hboot, rfl, rfl, rfl⟩
  split_ifs
  · refine Ensures.bind (keeps_startupOp (persistent_intended _) (fun _ => rfl)
      fun w past h => ⟨hboot, h⟩) ?_ fun _ _ _ h => h.1
    exact fun _ => hlast.pre fun _ _ h => h.1
  · exact hlast.pre fun _ _ h => h.1

/-! ## All requests -/

theorem keeps_prog (q : Request) (hq : ∀ fuel, q = .lifespan fuel → boot) :
    Keeps boot p (fun w past => At p .idle w past ∧ .spawn p q ∈ past) q.prog
      fun _ => At p .idle := by
  cases q with
  | createOrder userId amount => exact (keeps_createOrder userId amount).pre fun _ _ h => h.1
  | confirmPayment orderId paymentId =>
    exact (keeps_confirmPayment orderId paymentId).pre fun _ _ h => ⟨h.1, _, _, h.2⟩
  | handlePayment m =>
    exact Ensures.bind ((keeps_handlePayment m).pre fun _ _ h => h.1) (fun _ _ _ h => h)
      fun _ _ _ h => h
  | receiveTransaction s => exact (keeps_idle ((all_receiveTransaction s).mono (fun _ => Records.off) fun _ => id)).pre fun _ _ h => h.1
  | processOutboxEvent => exact (keeps_idle (all_processOutboxEvent.mono (fun _ => Relays.off) fun _ => id)).pre fun _ _ h => h.1
  | work workerId => exact (keeps_turn workerId).pre fun _ _ h => h.1
  | replayDlq x => exact (keeps_idle ((all_replayDlqDashboard x).mono (fun _ => Replays.off) fun _ => id)).pre fun _ _ h => h.1
  | lifespan fuel => exact (keeps_lifespan (hq fuel rfl) fuel).pre fun _ _ h => h.1

theorem sound : (logic boot).Sound where
  prog p q w past w' _ hc :=
    keeps_prog q fun fuel hq => by subst hq; exact hc
  start p := stable_at .idle
  begin w past p q h := by
    show stageOf p (past ++ [.spawn p q]) = .idle
    rw [stageOf_spawn]
    exact h
  spawn w past p q h _ := h
  run f w past p op r w' h _ hx _ := h.tableStep (exec_tableStep hx)
  crash w past p h hc := hc.elim
  outer w past x h _ := by
    cases x
    exact h.tableStep (.same (p := 0) rfl rfl)

end Pool

end PaymentRecon
