import PaymentRecon.Pool.Restart

/-!
# Beside — a startup beside a running worker

The startup deletes `pending_orders`, reads the PENDING intents page by page into a buffer, writes the
buffer out, and at last takes the difference.  Meanwhile payments are committed, and their amounts
released.  A release that comes while its amount is in the buffer is undone by the startup; without such a
release the rebuilt pool agrees with the rows.
-/

namespace PaymentRecon

open Interleave Rely SetStore

namespace Pool

variable {p p₀ q : Pid} {w w' : World} {past : List Label} {a : Amount} {x : Label}

/-! ## Where the startup is -/

inductive Phase
  | before
  | reading (cursor : Id) (buffer : List Amount)
  | read (buffer : List Amount)
  | built

/-- The phase after an operation with this answer. -/
def Phase.next (s : Phase) : (op : Op) → Except Exc op.Ret → Phase
  | .del .pendingOrders, .ok _ => .reading 0 []
  | .pendingPage _ _, .ok page =>
    match s with
    | .reading _ buffer =>
      match page.getLast? with
      | none => .read buffer
      | some last => .reading last.id (buffer ++ page.map (·.exactAmount))
    | s => s
  | .sadd .pendingOrders _, .ok _ =>
    match s with
    | .reading cursor _ => .reading cursor []
    | .read _ => .read []
    | s => s
  | .sdiffstore _ _ _, .ok _ => .built
  | _, _ => s

def phaseOf (p : Pid) (past : List Label) : Phase := track Phase.next .before p past

/-- The amounts that were read and not yet written. -/
def Phase.buffer : Phase → List Amount
  | .reading _ buffer => buffer
  | .read buffer => buffer
  | _ => []

/-- The intent with this id was read, if it was PENDING. -/
def Phase.Covers : Phase → Id → Prop
  | .before, _ => False
  | .reading cursor _, id => id ≤ cursor
  | .read _, _ => True
  | .built, _ => True

theorem phaseOf_own {f : Fault} {op : Op} {r : Except Exc op.Ret} :
    phaseOf p (past ++ [.run p f op r]) = (phaseOf p past).next op r := track_own

theorem phaseOf_other (h : x.pid ≠ some p) : phaseOf p (past ++ [x]) = phaseOf p past := track_other h

/-! ## What the requests do -/

/-- An operation of a request that neither allocates an amount nor rebuilds the pool. -/
def Serves : Op → Prop
  | .smove .pendingOrders .freeAmounts _ | .flushPaid _ _ | .commit | .rollback => True
  | op => Aside op

/-- The promise under which the startup `p` performs the operation. -/
def Rebuilds (p : Pid) (past : List Label) : Op → Prop
  | .del k => k = .pendingOrders ∧ phaseOf p past = .before
  | .pendingPage cursor limit => 0 < limit ∧ ∃ buffer, phaseOf p past = .reading cursor buffer
  | .sadd .pendingOrders as =>
    (∃ cursor, phaseOf p past = .reading cursor as) ∨ phaseOf p past = .read as
  | .sdiffstore dst b c =>
    dst = .freeAmounts ∧ b = .amounts ∧ c = .pendingOrders ∧ phaseOf p past = .read []
  | .sadd .amounts _ => True
  | .exists _ => True
  | .outOfFuel => True
  | _ => False

/-- The promise under which the startup `p₀`, or another request `p`, performs the operation. -/
def Orderly (p₀ p : Pid) (past : List Label) (op : Op) : Prop :=
  if p = p₀ then Rebuilds p past op else Serves op

/-- Nothing fails; the startup is `p₀`, and the other requests neither create nor confirm orders. -/
def Beside (p₀ : Pid) : StepCond := fun _ _ x _ =>
  x.Clean ∧ match x with
    | .spawn p (.lifespan _) => p = p₀
    | .spawn _ (.createOrder _ _) => False
    | .spawn _ (.confirmPayment _ _) => False
    | .spawn p _ => p ≠ p₀
    | _ => True

instance (p₀ : Pid) (w : World) (past : List Label) (x : Label) (w' : World) :
    Decidable (Beside p₀ w past x w') :=
  match x with
  | .spawn p (.lifespan _) => inferInstanceAs (Decidable (True ∧ p = p₀))
  | .spawn _ (.createOrder _ _) => inferInstanceAs (Decidable (True ∧ False))
  | .spawn _ (.confirmPayment _ _) => inferInstanceAs (Decidable (True ∧ False))
  | .spawn p (.handlePayment _) | .spawn p (.receiveTransaction _) | .spawn p .processOutboxEvent
  | .spawn p (.work _) | .spawn p (.replayDlq _) => inferInstanceAs (Decidable (True ∧ p ≠ p₀))
  | .run _ f _ _ => inferInstanceAs (Decidable (f = .done ∧ True))
  | .crash _ => inferInstanceAs (Decidable (False ∧ True))
  | .outer _ => inferInstanceAs (Decidable (True ∧ True))

def besideLogic (p₀ : Pid) : Rely sig Exc Response World Request Tick where
  machine := system
  cond := Beside p₀
  inv := fun w _ => Consistent w
  start := fun p _ past => phaseOf p past = .before
  guard := fun p _ past op => Orderly p₀ p past op
  final := fun p r _ past => p = p₀ → r = .ok .started → phaseOf p past = .built

theorem serves_off {op : Op} (h : Off op) : Serves op := by
  rcases h with h | rfl | rfl
  · cases op <;> first
      | exact h
      | exact h.elim
  · trivial
  · trivial

theorem serves_collects {op : Op} (h : Collects op) : Serves op := by
  cases op with
  | smove src dst a => cases src <;> cases dst <;> trivial
  | _ => trivial

/-! ## The worker -/

/-- A request other than the startup. -/
theorem orderly_serves {β : Type} {y : App β} {A : Op → Prop} (hp : p ≠ p₀)
    (hy : y.All A fun _ => True) (hA : ∀ op, A op → Serves op) :
    (besideLogic p₀).Ensures p top y fun _ => top := by
  refine (Ensures.ofAll hy ?_).mono fun _ _ _ _ => trivial
  intro op w past hop _
  show Orderly p₀ p past op
  rw [Orderly, if_neg hp]
  exact hA op hop

theorem orderly_prog {q : Request} (hp : p ≠ p₀)
    (hc : (besideLogic p₀).cond w past (.spawn p q) w') :
    (besideLogic p₀).Ensures p top q.prog fun _ => top := by
  cases q with
  | createOrder userId amount => exact hc.2.elim
  | confirmPayment orderId paymentId => exact hc.2.elim
  | handlePayment m =>
    exact orderly_serves hp (all_seq (all_handlePayment m) fun _ => trivial) fun _ => serves_collects
  | receiveTransaction s =>
    exact orderly_serves hp (all_receiveTransaction s) fun _ h => serves_off h.off
  | processOutboxEvent => exact orderly_serves hp all_processOutboxEvent fun _ h => serves_off h.off
  | work workerId =>
    exact ensures_turn (fun _ h => orderly_serves hp (all_await h) fun _ h => serves_off h.off)
      (fun m => orderly_serves hp (all_handlePayment m) fun _ => serves_collects) workerId
  | replayDlq y =>
    exact orderly_serves hp (all_replayDlqDashboard y) fun _ h => serves_off h.off
  | lifespan fuel => exact absurd hc.2 hp

/-! ## The startup -/

/-- One operation of the startup takes it from its phase to the next. -/
theorem startup_op (op : Op) (s : Phase)
    (hg : ∀ past, phaseOf p₀ past = s → Rebuilds p₀ past op) :
    (besideLogic p₀).Ensures p₀ (fun _ past => phaseOf p₀ past = s) (await op)
      fun r _ past => phaseOf p₀ past = s.next op r := by
  refine Ensures.perform ?_ (fun w past _ h => ?_) ?_
  · intro r w past x w' _ _ _ hp h
    rw [phaseOf_other hp, h]
  · show Orderly p₀ p₀ past op
    rw [Orderly, if_pos rfl]
    exact hg past h
  · intro f w past r w' _ h _ _
    rw [phaseOf_own, h]

theorem startup_pages {limit : ℕ} (hlimit : 0 < limit) (redisBuffer fuel : ℕ) (cursor : Id)
    (buffer : List Amount) :
    (besideLogic p₀).Ensures p₀ (fun _ past => phaseOf p₀ past = .reading cursor buffer)
      (addPendingOrders limit redisBuffer fuel cursor buffer)
      (whenOk fun rest _ past => phaseOf p₀ past = .read rest) := by
  induction fuel generalizing cursor buffer with
  | zero =>
    refine Ensures.bind (m := fun _ _ _ => False) ?_ (fun _ _ _ h => h.elim) fun _ _ _ h => h.elim
    refine Ensures.perform (fun _ _ _ _ _ _ _ _ _ h => h) (fun w past _ _ => ?_) ?_
    · show Orderly p₀ p₀ past .outOfFuel
      rw [Orderly, if_pos rfl]
      trivial
    · intro f w past r w' _ _ hx hc
      obtain rfl : f = .done := hc.1
      exact hx.elim
  | succ fuel ih =>
    unfold addPendingOrders
    refine Ensures.bind (startup_op (.pendingPage cursor limit) (.reading cursor buffer) ?_) ?_
      fun _ _ _ _ => trivial
    · exact fun past h => ⟨hlimit, _, h⟩
    · intro page
      cases hlast : page.getLast? with
      | none =>
        intro w past h
        show phaseOf p₀ past = .read buffer
        simpa [Phase.next, hlast] using h
      | some last =>
        simp only [Phase.next, hlast]
        split_ifs
        · refine Ensures.bind (startup_op (.sadd .pendingOrders _) _ fun past h => Or.inl ⟨_, h⟩) ?_
            fun _ _ _ _ => trivial
          exact fun _ => ih last.id []
        · exact ih last.id _

theorem startup_seeds (start stop : Amount) (batch : ℕ) :
    (besideLogic p₀).Ensures p₀ (fun _ past => phaseOf p₀ past = .before)
      (isExistRangeAmount start stop batch) fun _ _ past => phaseOf p₀ past = .before := by
  unfold isExistRangeAmount
  refine Ensures.bind (startup_op (.exists .amounts) .before fun _ _ => trivial) ?_
    fun _ _ _ h => h
  intro existing
  split_ifs
  · exact fun _ _ h => h
  · exact Ensures.forEachInv fun b _ => startup_op (.sadd .amounts b) .before fun _ _ => trivial

theorem startup_lifespan (fuel : ℕ) :
    (besideLogic p₀).Ensures p₀ (fun _ past => phaseOf p₀ past = .before) (lifespan fuel)
      fun r _ past => r = .ok .started → phaseOf p₀ past = .built := by
  have hend : ∀ (e : Exc) (w : World) (past : List Label), top w past →
      (Except.error e : Except Exc Response) = .ok .started → phaseOf p₀ past = .built :=
    fun _ _ _ _ h => absurd h (by simp)
  unfold lifespan
  refine Ensures.bind (startup_seeds _ _ _) ?_ fun _ _ _ _ h => absurd h (by simp)
  intro _
  refine Ensures.bind (m := whenOk fun _ _ past => phaseOf p₀ past = .built) ?_
    (fun _ _ _ h _ => h) hend
  unfold rebuildPool
  refine Ensures.bind (startup_op (.del .pendingOrders) .before fun _ h => ⟨rfl, h⟩) ?_
    fun _ _ _ _ => trivial
  intro _
  refine Ensures.bind (startup_pages (by decide) 1000 fuel 0 []) ?_ fun _ _ _ _ => trivial
  intro rest
  have hlast : (besideLogic p₀).Ensures p₀ (fun _ past => phaseOf p₀ past = .read [])
      (await (.sdiffstore .freeAmounts .amounts .pendingOrders))
      (whenOk fun _ _ past => phaseOf p₀ past = .built) := by
    refine (startup_op (.sdiffstore .freeAmounts .amounts .pendingOrders) (.read [])
      fun _ h => ⟨rfl, rfl, rfl, h⟩).mono ?_
    intro r w past h
    cases r with
    | ok _ => exact h
    | error _ => trivial
  split_ifs with hrest
  · refine Ensures.bind (startup_op (.sadd .pendingOrders rest) (.read rest)
      fun _ h => Or.inr h) ?_ fun _ _ _ _ => trivial
    exact fun _ => hlast
  · obtain rfl : rest = [] := by simpa using hrest
    exact hlast

theorem beside_sound : (besideLogic p₀).Sound where
  prog p q w past w' _ hc := by
    by_cases hp : p = p₀
    · subst hp
      cases q with
      | lifespan fuel => exact ((startup_lifespan fuel).pre fun _ _ h => h.1).mono fun _ _ _ h _ => h
      | createOrder _ _ | confirmPayment _ _ => exact hc.2.elim
      | _ => exact absurd rfl hc.2
    · exact ((orderly_prog hp hc).pre fun _ _ _ => trivial).mono fun _ _ _ _ h => absurd h hp
  start p := by
    intro w past x w' _ _ _ hp h
    show phaseOf p (past ++ [x]) = .before
    rw [phaseOf_other hp]
    exact h
  begin w past p q h := by
    show phaseOf p (past ++ [.spawn p q]) = .before
    rw [phaseOf, track_spawn]
    exact h
  spawn w past p q h _ := h
  run f w past p op r w' h _ hx _ := h.tableStep (exec_tableStep hx)
  crash w past p h hc := hc.1.elim
  outer w past x h _ := by
    cases x
    exact h.tableStep (.same (p := 0) rfl rfl)

/-! ## What holds while both run -/

/-- The request is not within an allocation or a confirmation. -/
def Stage.Small : Stage → Prop
  | .idle => True
  | .matched _ => True
  | .paid _ => True
  | _ => False

/-- A live row holds the amount, or a payment is about to release it. -/
def Justified (w : World) (past : List Label) (a : Amount) : Prop :=
  Live w past a ∨ ∃ q, stageOf q past = .paid a

structure Rebuilding (p₀ : Pid) (w : World) (past : List Label) : Prop where
  small : ∀ q, (stageOf q past).Small
  paid : ∀ q a, stageOf q past = .paid a → ¬ Live w past a
  justified : phaseOf p₀ past ≠ .before →
    ∀ a, a ∈ w.pending ∨ a ∈ (phaseOf p₀ past).buffer → Justified w past a
  covered : ∀ i ∈ w.db.intents, i.status = .PENDING → (phaseOf p₀ past).Covers i.id →
    i.exactAmount ∈ w.pending ∨ i.exactAmount ∈ (phaseOf p₀ past).buffer
  built : phaseOf p₀ past = .built → ∀ a ∈ w.free, ¬ Live w past a

/-- No request is a confirmation. -/
def NoConfirm (past : List Label) : Prop := ∀ p, ¬ Confirms p past

theorem NoConfirm.step (h : NoConfirm past) (hc : Beside p₀ w past x w') :
    NoConfirm (past ++ [x]) := by
  rintro p ⟨o, i, hm⟩
  rcases List.mem_append.mp hm with hm | hm
  · exact h p ⟨o, i, hm⟩
  · obtain rfl := List.mem_singleton.mp hm
    exact hc.2

/-- A payment's release does not come while its amount is in the buffer of the startup. -/
def ReleaseUnread (p₀ : Pid) : StepCond := fun _ past x _ =>
  match x with
  | .run _ _ (.smove .pendingOrders .freeAmounts a) _ => a ∉ (phaseOf p₀ past).buffer
  | _ => True

theorem Orderly.small {boot : Prop} {op : Op} {r : Except Exc op.Ret}
    (h : Orderly p₀ p past op) (hg : Lawful boot p w past op) (hnc : NoConfirm past)
    (hs : (stageOf p past).Small) : ((stageOf p past).next op r).Small := by
  unfold Orderly at h
  split_ifs at h
  · cases op with
    | sadd k as => cases k <;> first | exact hs | exact h.elim
    | _ => first
      | exact hs
      | exact h.elim
  · cases op with
    | smove src dst b =>
      cases src <;> cases dst <;> first
        | exact h.elim
        | skip
      rcases hg with hs' | ⟨hconf, -⟩
      · rw [hs']
        cases r <;> trivial
      · exact absurd hconf (hnc p)
    | flushPaid i t =>
      cases r with
      | ok u => trivial
      | error e => exact hs
    | commit =>
      generalize stageOf p past = s at hs
      cases r with
      | ok u => cases s <;> trivial
      | error e => exact hs
    | rollback => trivial
    | _ => first
      | exact hs
      | exact h.elim

/-- No request but the startup performs the commands of a startup. -/
theorem Orderly.boots (h : ∀ p f op r, x = .run p f op r → Orderly p₀ p past op)
    (hx : Boots x) : x.pid = some p₀ := by
  cases x with
  | run p f op r =>
    have ho := h p f op r rfl
    unfold Orderly at ho
    split_ifs at ho with hp
    · simp [Act.pid, hp]
    · cases op with
      | sadd k as => cases k <;> exact ho.elim
      | del _ | sdiffstore _ _ _ => exact ho.elim
      | _ => exact hx.elim
  | _ => exact hx.elim

/-- A row of a small state is committed. -/
theorem Rebuilding.committed (h : Rebuilding p₀ w past) (hL : Linked w past)
    (hl : Live w past a) : ∃ i ∈ w.db.intents, i.Holds a := by
  obtain ⟨o, i, hi, hh, -⟩ := hl
  cases o with
  | none => exact ⟨i, hi, hh⟩
  | some q =>
    have hs := h.small q
    rw [hL.inserted q i hi] at hs
    exact hs.elim

theorem Rebuilding.live (h : Rebuilding p₀ w past) {i : PaymentIntent} (hi : i ∈ w.db.intents)
    (hh : i.Holds a) : Live w past a :=
  ⟨none, i, hi, hh, fun q j hq => by
    have hs := h.small q
    rw [hq] at hs
    exact hs.elim⟩

/-- What is justified stays so, until it is released. -/
theorem Justified.step (h : Justified w past a)
    (hs' : ∀ q, (stageOf q (past ++ [x])).Small) (hL : Linked w past) (hC : Consistent w)
    (hw : system.WStep w x w') (hg : (logic True).Guarded w past x w')
    (hpaid : ∀ q, stageOf q past = .paid a → stageOf q (past ++ [x]) = .paid a) :
    Justified w' (past ++ [x]) a := by
  rcases h with hl | ⟨q, hq⟩
  · rcases live_stays hL hC hw hg hl with hl | ⟨q, i, -, -, hq | hq⟩
    · exact Or.inl hl
    · have := hs' q
      rw [hq] at this
      exact this.elim
    · exact Or.inr ⟨q, hq⟩
  · exact Or.inr ⟨q, hpaid q hq⟩

/-- Nobody stores an order. -/
theorem no_inserts (hs' : ∀ q, (stageOf q (past ++ [x])).Small)
    (hg : (logic True).Guarded w past x w') : ¬ Inserts a x := by
  intro hins
  cases x with
  | run p f op r =>
    have h := hs' p
    rw [(inserts_stage hg rfl hins).1] at h
    exact h.elim
  | _ => exact hins.elim

/-- A PENDING row was there before the step. -/
theorem Rebuilding.row (h : Rebuilding p₀ w past) (hs' : ∀ q, (stageOf q (past ++ [x])).Small)
    (hL : Linked w past) (hw : system.WStep w x w') (hg : (logic True).Guarded w past x w')
    {j : PaymentIntent} (hj : j ∈ w'.db.intents) (hst : j.status = .PENDING) :
    ∃ i ∈ w.db.intents, j.id = i.id ∧ i.Holds j.exactAmount := by
  rcases wstep_row hw hg (o := none) hj hst with ⟨o, i, hi, hid, hh⟩ | hins
  · refine ⟨i, ?_, hid.symm, hh _ ⟨hst, rfl⟩⟩
    cases o with
    | none => exact hi
    | some q =>
      have hq := h.small q
      rw [hL.inserted q i hi] at hq
      exact hq.elim
  · exact absurd hins (no_inserts hs' hg)

/-- What the other requests do to the sets: nothing, or a release. -/
theorem beside_moves (hs : ∀ q, (stageOf q past).Small) (hs' : ∀ q, (stageOf q (past ++ [x])).Small)
    (hnf : NoFault past) (hx : x.Clean) (hboots : ¬ Boots x)
    (hw : system.WStep w x w') (hg : (logic True).Guarded w past x w') :
    w'.sets = w.sets ∧ (∀ q a, stageOf q past = .paid a → stageOf q (past ++ [x]) = .paid a) ∨
      ∃ p a, stageOf p past = .paid a ∧ Releases a x ∧
        w'.sets = smove w.sets .pendingOrders .freeAmounts a ∧
        ∀ q b, stageOf q past = .paid b → b ≠ a → stageOf q (past ++ [x]) = .paid b := by
  rcases step_moves hw hg with ⟨hsets, hst⟩ | ⟨p, hp, hst, hm⟩
  · exact Or.inl ⟨hsets, fun q a hq => (hst q).trans hq⟩
  · have hsp := hs p
    have hsp' := hs' p
    generalize hq : stageOf p past = s at hm hsp
    generalize hq' : stageOf p (past ++ [x]) = s' at hm hsp'
    have same : w'.sets = w.sets → (∀ a, s = .paid a → s' = .paid a) →
        w'.sets = w.sets ∧
          ∀ q a, stageOf q past = .paid a → stageOf q (past ++ [x]) = .paid a := by
      refine fun hsets hstay => ⟨hsets, fun q a hqa => ?_⟩
      by_cases hqp : q = p
      · subst hqp
        rw [hq']
        exact hstay a (hq ▸ hqa)
      · rw [hst q hqp, hqa]
    cases hm with
    | aside sets => exact Or.inl (same sets fun _ h => h)
    | settle sets => exact Or.inl (same sets (by simp))
    | pay commit => exact Or.inl (same (by rw [commit, commit_sets]) (by simp))
    | rollback undone may =>
      refine Or.inl (same (by rw [undone, rollback_sets]) ?_)
      rintro a rfl
      rcases may.2 a (by rw [hq]; simp) with ⟨-, h⟩ | h
      · rw [hq] at h
        simp [Stage.Takes] at h
      · exact absurd h (hnf p)
    | @release a releases sets =>
      refine Or.inr ⟨p, a, hq, releases, sets, fun q b hqb hba => ?_⟩
      by_cases hqp : q = p
      · subst hqp
        rw [hq] at hqb
        exact absurd (Stage.paid.inj hqb).symm hba
      · rw [hst q hqp, hqb]
    | lose sets fault => exact absurd hx fault
    | close bound commit =>
      rcases bound with ⟨b, rfl⟩ | ⟨i, rfl⟩ <;> exact hsp.elim
    | seed _ boots _ _ | reread _ boots _ _ | clear _ boots _ | rebuild _ boots _ =>
      exact absurd boots hboots
    | _ => first
      | exact hsp.elim
      | exact hsp'.elim

/-- A paid amount is not live. -/
theorem paid_step (h : Rebuilding p₀ w past) (hs' : ∀ q, (stageOf q (past ++ [x])).Small)
    (hL : Linked w past) (hC : Consistent w) (hw : system.WStep w x w')
    (hg : (logic True).Guarded w past x w') (hq : stageOf q (past ++ [x]) = .paid a) :
    ¬ Live w' (past ++ [x]) a := by
  have hold : stageOf q past = .paid a → ¬ Live w' (past ++ [x]) a := by
    intro hq hl
    rcases live_step hL hC hw hg hl with hl | hins
    · exact h.paid q a hq hl
    · exact no_inserts hs' hg hins
  rcases step_moves hw hg with ⟨-, hst⟩ | ⟨p, -, hst, hm⟩
  · exact hold ((hst q).symm.trans hq)
  · by_cases hqp : q = p
    · subst hqp
      rw [hq] at hm
      generalize hs : stageOf q past = s at hm
      cases hm with
      | pay commit =>
        have hC' : Consistent w' := by
          obtain ⟨_, hq, -⟩ := wstep_tableStep (p := 0) hw
          exact hC.tableStep hq
        exact pay_ends hL hC hC' hw hg hs commit (no_inserts hs' hg)
      | _ => exact hold hs
    · exact hold ((hst q hqp).symm.trans hq)

/-- A step of another request. -/
theorem Rebuilding.others (h : Rebuilding p₀ w past) (hs' : ∀ q, (stageOf q (past ++ [x])).Small)
    (hL : Linked w past) (hC : Consistent w) (hnf : NoFault past) (hx : x.Clean)
    (hboots : ¬ Boots x) (hphase : phaseOf p₀ (past ++ [x]) = phaseOf p₀ past)
    (hw : system.WStep w x w') (hg : (logic True).Guarded w past x w')
    (hrel : ReleaseUnread p₀ w past x w') : Rebuilding p₀ w' (past ++ [x]) := by
  have hlive : ∀ a, Live w' (past ++ [x]) a → Live w past a := by
    intro a hl
    rcases live_step hL hC hw hg hl with hl | hins
    · exact hl
    · exact absurd hins (no_inserts hs' hg)
  have hpaid := fun q a => paid_step (q := q) (a := a) h hs' hL hC hw hg
  rcases beside_moves h.small hs' hnf hx hboots hw hg with ⟨sets, hstay⟩ | ⟨p, a, hp, hr, sets, hstay⟩
  · refine ⟨hs', hpaid, ?_, ?_, ?_⟩
    · rw [hphase, World.pending, sets]
      exact fun hb a ha => (h.justified hb a ha).step hs' hL hC hw hg fun q => hstay q a
    · rw [hphase, World.pending, sets]
      intro j hj hst hcov
      obtain ⟨i, hi, hid, hh⟩ := h.row hs' hL hw hg hj hst
      rw [← hh.2]
      exact h.covered i hi hh.1 (hid ▸ hcov)
    · rw [hphase, World.free, sets]
      exact fun hb a ha hl => h.built hb a ha (hlive a hl)
  · have hunread : a ∉ (phaseOf p₀ past).buffer := by
      cases x with
      | run q f op r =>
        cases op with
        | smove src dst b =>
          cases src <;> cases dst <;> first
            | exact hr.elim
            | skip
          obtain rfl : b = a := hr
          exact hrel
        | _ => exact hr.elim
      | _ => exact hr.elim
    refine ⟨hs', hpaid, ?_, ?_, ?_⟩
    · rw [hphase, World.pending, sets]
      intro hb b hor
      have hba : b ≠ a := by
        rintro rfl
        rcases hor with hb' | hb'
        · rw [mem_smove (by decide)] at hb'
          split_ifs at hb' with hmem
          · simp at hb'
          · exact hmem ⟨rfl, hb'⟩
        · exact hunread hb'
      rw [mem_smove_of_ne hba] at hor
      exact (h.justified hb b hor).step hs' hL hC hw hg fun q hq => hstay q b hq hba
    · rw [hphase, World.pending, sets]
      intro j hj hst hcov
      obtain ⟨i, hi, hid, hh⟩ := h.row hs' hL hw hg hj hst
      -- the amount that is released is not live
      have hja : j.exactAmount ≠ a := by
        rintro rfl
        exact h.paid p _ hp (h.live hi hh)
      rw [mem_smove_of_ne hja, ← hh.2]
      exact h.covered i hi hh.1 (hid ▸ hcov)
    · rw [hphase, World.free, sets]
      intro hb b hmem hl
      by_cases hba : b = a
      · subst hba
        exact h.paid p b hp (hlive b hl)
      · rw [mem_smove_of_ne hba] at hmem
        exact h.built hb b hmem (hlive b hl)

/-- A step of the startup. -/
theorem Rebuilding.startup (h : Rebuilding p₀ w past) {op : Op} {r : Except Exc op.Ret}
    (hC : Consistent w) (hL : Linked w past) (hw : op.run p₀ w r w') (ho : Rebuilds p₀ past op)
    (hstage : ∀ q, stageOf q (past ++ [.run p₀ .done op r]) = stageOf q past)
    (hg : (logic True).Guarded w past (.run p₀ .done op r) w') :
    Rebuilding p₀ w' (past ++ [.run p₀ .done op r]) := by
  have hws : system.WStep w (.run p₀ .done op r) w' := hw
  have hs' : ∀ q, (stageOf q (past ++ [.run p₀ .done op r])).Small := fun q => by
    rw [hstage q]
    exact h.small q
  have hcommit : op ≠ .commit := by
    rintro rfl
    exact ho
  have hrows : w'.db.intents = w.db.intents := exec_intents (f := .done) hw hcommit
  have hlive : ∀ a, Live w' (past ++ [.run p₀ .done op r]) a → Live w past a := by
    intro a hl
    rcases live_step hL hC hws hg hl with hl | hins
    · exact hl
    · exact absurd hins (no_inserts hs' hg)
  have hjust : ∀ a, Justified w past a → Justified w' (past ++ [.run p₀ .done op r]) a :=
    fun a ha => ha.step hs' hL hC hws hg fun q hq => (hstage q).trans hq
  have hpaid := fun q a => paid_step (q := q) (a := a) h hs' hL hC hws hg
  have finish : ∀ s' : Phase, (phaseOf p₀ past).next op r = s' →
      (s' ≠ .before → ∀ a, a ∈ w'.pending ∨ a ∈ s'.buffer → Justified w past a) →
      (∀ i ∈ w.db.intents, i.status = .PENDING → s'.Covers i.id →
        i.exactAmount ∈ w'.pending ∨ i.exactAmount ∈ s'.buffer) →
      (s' = .built → ∀ a ∈ w'.free, ¬ Live w past a) →
      Rebuilding p₀ w' (past ++ [.run p₀ .done op r]) := by
    rintro s' hs1 hj hcov hbuilt
    have hphase : phaseOf p₀ (past ++ [.run p₀ .done op r]) = s' := phaseOf_own.trans hs1
    refine ⟨hs', hpaid, ?_, ?_, ?_⟩
    · rw [hphase]
      exact fun hb a ha => hjust a (hj hb a ha)
    · rw [hphase, hrows]
      exact hcov
    · rw [hphase]
      exact fun hb a ha hl => hbuilt hb a ha (hlive a hl)
  -- the sets and the phase as they were
  have same : w'.pending = w.pending → w'.free = w.free →
      (phaseOf p₀ past).next op r = phaseOf p₀ past →
      Rebuilding p₀ w' (past ++ [.run p₀ .done op r]) := by
    intro hp hf hs1
    refine finish _ hs1 ?_ ?_ ?_
    · rw [hp]
      exact h.justified
    · rw [hp]
      exact h.covered
    · rw [hf]
      exact h.built
  cases op with
  | del k =>
    obtain ⟨rfl, -⟩ := ho
    obtain ⟨rfl, rfl⟩ := hw
    refine finish (.reading 0 []) rfl ?_ ?_ (by simp)
    · intro _ a ha
      simp [World.pending, del, Phase.buffer] at ha
    · intro i hi _ hcov
      have hpos := hC.intents.pos.2 none i hi
      simp only [Phase.Covers] at hcov
      exact absurd hcov (not_le.mpr (lt_of_lt_of_le (by decide) hpos))
  | pendingPage cursor limit =>
    obtain ⟨hlimit, buffer, hs1⟩ := ho
    obtain ⟨rfl, rfl⟩ := hw
    have hj := h.justified (by rw [hs1]; simp)
    have hcov := h.covered
    rw [hs1] at hj hcov
    cases hlast : (w'.db.pendingPage cursor limit).getLast? with
    | none =>
      refine finish (.read buffer) (by simp [hs1, Phase.next, hlast]) (fun _ => hj) ?_ (by simp)
      intro i hi hst _
      refine hcov i hi hst ?_
      by_contra hlt
      have hmem := mem_above.mpr ⟨hi, hst, not_le.mp hlt⟩
      rw [page_nil hlimit hlast] at hmem
      simp at hmem
    | some last =>
      refine finish (.reading last.id (buffer ++ (w'.db.pendingPage cursor limit).map (·.exactAmount)))
        (by simp [hs1, Phase.next, hlast]) ?_ ?_ (by simp)
      · rintro - a (ha | ha)
        · exact hj a (Or.inl ha)
        · rcases List.mem_append.mp ha with ha | ha
          · exact hj a (Or.inr ha)
          · obtain ⟨i, hi, rfl⟩ := List.mem_map.mp ha
            have hab : i ∈ Above w'.db cursor := List.mem_of_mem_take hi
            obtain ⟨hmem, hst, -⟩ := mem_above.mp hab
            exact Or.inl (h.live hmem ⟨hst, rfl⟩)
      · intro i hi hst hle
        by_cases hold : i.id ≤ cursor
        · exact (hcov i hi hst hold).imp_right (List.mem_append_left _)
        · have hab := mem_above.mpr ⟨hi, hst, not_le.mp hold⟩
          rcases ((page_covers hC.intents.nodup hlast).2 i).mp hab with hpage | habove
          · exact Or.inr (List.mem_append_right _ (List.mem_map.mpr ⟨i, hpage, rfl⟩))
          · exact absurd hle (not_le.mpr (mem_above.mp habove).2.2)
  | sadd k as =>
    obtain ⟨rfl, rfl⟩ := hw
    cases k with
    | freeAmounts => exact ho.elim
    | amounts =>
      have hp : sadd w.sets .amounts as .pendingOrders = w.pending := sadd_other (by decide)
      have hf : sadd w.sets .amounts as .freeAmounts = w.free := sadd_other (by decide)
      exact same hp hf rfl
    | pendingOrders =>
      have hmem : ∀ a, a ∈ (sadd w.sets .pendingOrders as) .pendingOrders ↔ a ∈ w.pending ∨ a ∈ as :=
        fun a => mem_sadd
      have written : ∀ s₀ s' : Phase, phaseOf p₀ past = s₀ → s₀.buffer = as → s'.buffer = [] →
          s₀ ≠ .before → (∀ id, s'.Covers id → s₀.Covers id) → s' ≠ .built →
          s₀.next (.sadd .pendingOrders as) (.ok ()) = s' →
          Rebuilding p₀ { w with sets := sadd w.sets .pendingOrders as }
            (past ++ [.run p₀ .done (.sadd .pendingOrders as) (.ok ())]) := by
        rintro s₀ s' rfl hbuf hbuf' hne hcov hnb hs1
        refine finish s' hs1 ?_ ?_ (fun hb => absurd hb hnb)
        · rintro - a (ha | ha)
          · refine h.justified hne a ?_
            rw [hbuf]
            exact (hmem a).mp ha
          · rw [hbuf'] at ha
            simp at ha
        · intro i hi hst hc
          have hold := h.covered i hi hst (hcov _ hc)
          rw [hbuf] at hold
          exact Or.inl ((hmem _).mpr hold)
      rcases ho with ⟨cursor, hs1⟩ | hs1
      · exact written (.reading cursor as) (.reading cursor []) hs1 rfl rfl (by simp) (fun _ h => h)
          (by simp) rfl
      · exact written (.read as) (.read []) hs1 rfl rfl (by simp) (fun _ h => h) (by simp) rfl
  | sdiffstore dst b c =>
    obtain ⟨rfl, rfl, rfl, hs1⟩ := ho
    obtain ⟨rfl, rfl⟩ := hw
    have hpend : ∀ a, a ∈ sdiffstore w.sets .freeAmounts .amounts .pendingOrders .pendingOrders ↔
        a ∈ w.pending := by
      simp [sdiffstore]
    have hj := h.justified (by rw [hs1]; simp)
    have hcov := h.covered
    rw [hs1] at hj hcov
    refine finish .built rfl ?_ ?_ ?_
    · exact fun _ a ha => hj a (ha.imp_left (hpend a).mp)
    · exact fun i hi hst _ => (hcov i hi hst trivial).imp_left (hpend _).mpr
    · intro _ a ha hl
      obtain ⟨i, hi, hh⟩ := h.committed hL hl
      have hmem := hcov i hi hh.1 trivial
      rw [hh.2] at hmem
      simp only [World.free, sdiffstore, Function.update_self, Finset.mem_sdiff] at ha
      rcases hmem with hmem | hmem
      · exact ha.2 hmem
      · simp [Phase.buffer] at hmem
  | _ => first
    | exact ho.elim
    | exact hw.elim
    | (obtain ⟨rfl, rfl⟩ := hw; exact same rfl rfl rfl)

/-- A startup's operation leaves every stage as it is. -/
theorem Rebuilds.stage {op : Op} {r : Except Exc op.Ret} (h : Rebuilds p past op) (s : Stage) :
    s.next op r = s := by
  cases op with
  | sadd k as => cases k <;> first | rfl | exact h.elim
  | _ => first
    | rfl
    | exact h.elim

/-- **Step lemma** of the rebuild. -/
theorem Rebuilding.step (h : Rebuilding p₀ w past) (hL : Linked w past) (hC : Consistent w)
    (hnf : NoFault past) (hnc : NoConfirm past) (hw : system.WStep w x w')
    (hg : (logic True).Guarded w past x w') (hb : (besideLogic p₀).Guarded w past x w')
    (hrel : ReleaseUnread p₀ w past x w') : Rebuilding p₀ w' (past ++ [x]) := by
  have hx : x.Clean := hb.1.1
  have hs' : ∀ q, (stageOf q (past ++ [x])).Small := by
    intro q
    by_cases hq : x.pid = some q
    · cases x with
      | run p f op r =>
        obtain rfl : p = q := by simpa [Act.pid] using hq
        rw [stageOf_own]
        exact Orderly.small (hb.2 p f op r rfl) (hg.2 p f op r rfl) hnc (h.small p)
      | spawn p y =>
        rw [stageOf_spawn]
        exact h.small q
      | crash p => exact hx.elim
      | outer y => simp [Act.pid] at hq
    · rw [stageOf_other hq]
      exact h.small q
  by_cases hp : x.pid = some p₀
  · cases x with
    | run p f op r =>
      obtain rfl : p = p₀ := by simpa [Act.pid] using hp
      obtain rfl : f = .done := hx
      have ho : Orderly p p past op := hb.2 p .done op r rfl
      rw [Orderly, if_pos rfl] at ho
      refine h.startup hC hL hw ho ?_ hg
      intro q
      by_cases hq : q = p
      · subst hq
        rw [stageOf_own]
        exact ho.stage _
      · exact stageOf_other (by simpa [Act.pid] using Ne.symm hq)
    | spawn p y =>
      exact h.others hs' hL hC hnf hx (by simp [Boots]) (by rw [phaseOf, track_spawn]; rfl) hw hg hrel
    | crash p => exact hx.elim
    | outer y => simp [Act.pid] at hp
  · exact h.others hs' hL hC hnf hx (fun hboots => hp (Orderly.boots hb.2 hboots))
      (phaseOf_other hp) hw hg hrel

/-- **A startup beside a running worker is safe** as long as no release comes between the page that
reads its amount and the command that writes it. -/
theorem rebuilt_beside_worker {w₀ : World} (hC : Consistent w₀) (hclosed : w₀.Closed)
    (hst : ∀ i ∈ w₀.db.intents, i.status = .PENDING ∨ i.status = .PAID) {tr : List Label} {c : State}
    (hr : Lts.Run (StepsIf fun w past x w' => Beside p₀ w past x w' ∧ ReleaseUnread p₀ w past x w')
      (.init w₀) tr c) (hq : c.Quiet) (hend : c.thread p₀ = .live (.ret .started)) :
    (∀ i ∈ c.world.db.intents, i.status = .PAID → i.exactAmount ∈ c.world.pending →
      ∃ j ∈ c.world.db.intents, j.Holds i.exactAmount) ∧
    ∀ i ∈ c.world.db.intents, i.status = .PENDING → i.exactAmount ∉ c.world.free := by
  have hout : ∀ {w past x w'}, Beside p₀ w past x w' → Outages True w past x w' := by
    rintro w past x w' ⟨hx, -⟩
    cases x with
    | spawn p y => cases y <;> trivial
    | run p f op r => exact Or.inl hx
    | crash p => exact hx.elim
    | outer y => trivial
  obtain ⟨hH, hB, hL, hR, -, -, hcr⟩ := (@sound True).derive
    (P := fun c x c' => Beside p₀ c.world c.past x c'.world ∧
      ReleaseUnread p₀ c.world c.past x c'.world)
    (J := fun c => (besideLogic p₀).Holds c ∧ Linked c.world c.past ∧
      Rebuilding p₀ c.world c.past ∧ NoFault c.past ∧ NoConfirm c.past ∧
      ∀ p, c.thread p ≠ .crashed)
    (hr.mono fun _ _ _ h => ⟨h.1, hout h.2.1, h.2.1, h.2.2⟩) (Holds.init hC fun _ => rfl)
    ⟨Holds.init hC fun _ => rfl, Linked.rest hclosed (fun _ => rfl) hst,
      ⟨fun _ => trivial, fun _ _ h => by simp [Config.init] at h, fun h => absurd rfl h,
        fun _ _ _ h => h.elim, fun h => by simp [Config.init, phaseOf] at h⟩,
      by rintro q ⟨op, r, hm⟩; simp [Config.init] at hm,
      by rintro q ⟨o, i, hm⟩; simp [Config.init] at hm,
      fun _ => by simp [Config.init]⟩ (by
      rintro c x c' hC ⟨hB, hL, hR, hnf, hnc, hcr⟩ hs hg ⟨hb, hrel⟩
      obtain ⟨hw, hpast⟩ := hs.wstep
      obtain ⟨hgb, hB'⟩ := beside_sound.step hs hb hB
      rw [hpast]
      exact ⟨hB', hL.step hC hw hg, hR.step hL hC hnf hnc hw hg hgb hrel, hnf.step hb.1, hnc.step hb,
        uncrashed_step hs hg.1 hcr⟩)
  have hidle := idle_of_quiet hH hq hcr
  have hbuilt : phaseOf p₀ c.past = .built := hB.final hend rfl rfl
  refine ⟨?_, ?_⟩
  · intro i _ _ hmem
    rcases hR.justified (by rw [hbuilt]; simp) _ (Or.inl hmem) with hl | ⟨q, hq⟩
    · exact hR.committed hL hl
    · rw [hidle q] at hq
      exact absurd hq (by simp)
  · intro i hi hst hmem
    exact hR.built hbuilt _ hmem (hR.live hi ⟨hst, rfl⟩)

/-- One order is PENDING, and its transfer is recorded. -/
def oneOrder : Db where
  orders := [⟨1, 1, .PENDING, 1500000⟩]
  intents := [⟨1, 1, .PENDING, 1500000, 1500001, none⟩]
  sms := [⟨1, 1500001, 9000000, "1402.01.01", "10:00", "sms"⟩]
  outbox := []
  nextOrder := 2
  nextIntent := 2
  nextSms := 2
  nextEvent := 1

/-- The pool of the first startup after one order took its amount. -/
def oneReserved : World :=
  { World.empty with
    db := oneOrder
    sets := fun
      | .amounts => seeded
      | .freeAmounts => seeded.erase 1500001
      | .pendingOrders => {1500001} }

theorem oneReserved_consistent : Consistent oneReserved := by
  refine .of_closed World.empty_closed ?_ ?_ ?_ ?_ ?_ ?_ ?_ ?_ ?_ ?_ <;>
    simp [oneReserved, oneOrder]

theorem oneReserved_holders :
    Holders [1500001] (fun _ k => decide (k ≠ .freeAmounts)) oneReserved.sets := by
  intro a ha k
  obtain rfl := List.mem_singleton.mp ha
  cases k <;> simp [oneReserved, seeded]

/-- The message of the recorded transfer. -/
def oneMessage : Message := ⟨toLex (1, 0), transactionData 1 "tx_1" 1500001, 0, 0⟩

/-- `Beside 0` and `ReleaseUnread 0`. -/
def unread : Check where
  test _ past x := decide (Beside 0 World.empty past x World.empty) && match x with
    | .run _ _ (.smove .pendingOrders .freeAmounts a) _ => a ∉ (phaseOf 0 past).buffer
    | _ => true
  sets _ _ _ _ := rfl

theorem unread_steps {c c' : State} (h : unread.Steps c x c') : StepsIf (fun w past x w' =>
    Beside 0 w past x w' ∧ ReleaseUnread 0 w past x w') c x c' := by
  obtain ⟨hs, htest⟩ := h
  have htest := (Bool.and_eq_true _ _).mp htest
  refine ⟨hs, (of_decide_eq_true htest.1 : Beside 0 World.empty c.past x World.empty), ?_⟩
  cases x with
  | run p f op r =>
    cases op with
    | smove src dst a =>
      cases src <;> cases dst <;> first
        | trivial
        | exact (of_decide_eq_true htest.2 : a ∉ (phaseOf 0 c.past).buffer)
    | _ => trivial
  | _ => trivial

/-- The startup came to its end. -/
def isStarted : Thread sig Exc Response → Bool
  | .live (.ret .started) => true
  | _ => false

theorem isStarted_iff {t : Thread sig Exc Response} (h : isStarted t = true) :
    t = .live (.ret .started) := by
  unfold isStarted at h
  split at h
  · rfl
  · exact absurd h (by simp)

/-- The startup up to the last page. -/
def readPages : List Move := [.spawn 0 (.lifespan 3), .go 0 (some 0)] ++ Move.goes 0 3

/-- The payment of the recorded transfer. -/
def payOne : List Move := .spawn 1 (.handlePayment oneMessage) :: Move.goes 1 6

theorem rebuilt_beside_worker_sample : ∃ (tr : List Label) (c : State),
    Lts.Run (StepsIf fun w past x w' => Beside 0 w past x w' ∧ ReleaseUnread 0 w past x w')
      (.init oneReserved) tr c ∧ c.Quiet ∧ c.thread 0 = .live (.ret .started) ∧
      (∃ i ∈ c.world.db.intents, i.status = .PAID) ∧
      (∀ i ∈ c.world.db.intents, i.status = .PAID → i.exactAmount ∈ c.world.pending →
        ∃ j ∈ c.world.db.intents, j.Holds i.exactAmount) ∧
      ∀ i ∈ c.world.db.intents, i.status = .PENDING → i.exactAmount ∉ c.world.free := by
  obtain ⟨c, tr, s, m, htest, -, hn, hr⟩ := tracks_run 2 unread
    (readPages ++ Move.goes 0 1 ++ payOne ++ Move.goes 0 1)
    (.init oneReserved) [1500001] (fun _ k => k ≠ .freeAmounts)
    (fun c _ => rests 2 (c.at [] World.empty.sets) && isStarted (c.thread 0) &&
      c.world.db.intents.any fun i => i.status = .PAID)
    (by decide +kernel) (Within.init 2 World.empty_closed) oneReserved_holders [] (Or.inl rfl)
  simp only [Bool.and_eq_true] at htest
  have hq : (c.at ([] ++ tr) s).Quiet := quiet_of_rests htest.1.1 hn.fresh
  have hend := isStarted_iff htest.1.2
  have hr' := hr.mono fun _ _ _ => unread_steps
  exact ⟨tr, _, hr', hq, hend, by simpa using htest.2,
    rebuilt_beside_worker oneReserved_consistent World.empty_closed
      (by simp [oneReserved, oneOrder]) hr' hq hend⟩

/-- A payment between the page that reads its amount and the command that writes it. -/
theorem rebuilt_with_paid : ∃ (tr : List Label) (c : State),
    Lts.Run (StepsIf (Beside 0)) (.init oneReserved) tr c ∧ c.Quiet ∧
      c.thread 0 = .live (.ret .started) ∧ seeded ⊆ oneReserved.amounts ∧
      ∃ i ∈ c.world.db.intents, i.status = .PAID ∧ i.exactAmount ∈ c.world.pending ∧
        ∀ j ∈ c.world.db.intents, ¬ j.Holds i.exactAmount := by
  obtain ⟨c, tr, s, m, htest, hm, hn, hr⟩ := tracks_run 2
    (.label fun x => Beside 0 World.empty [] x World.empty)
    (readPages ++ payOne ++ Move.goes 0 2)
    (.init oneReserved) [1500001] (fun _ k => k ≠ .freeAmounts)
    (fun c m => rests 2 (c.at [] World.empty.sets) && isStarted (c.thread 0) &&
      ((c.world.db.intents.any fun i => i.status = .PAID ∧ i.exactAmount = 1500001) &&
        (c.world.db.intents.all fun i => i.status = .PAID) && m 1500001 .pendingOrders))
    (by decide +kernel) (Within.init 2 World.empty_closed) oneReserved_holders [] (Or.inl rfl)
  simp only [Bool.and_eq_true, List.any_eq_true, List.all_eq_true, decide_eq_true_eq] at htest
  obtain ⟨⟨hrest, hend⟩, ⟨⟨i, hi, hpaid, ha⟩, hall⟩, hmem⟩ := htest
  refine ⟨tr, _, hr.mono ?_, quiet_of_rests hrest hn.fresh, isStarted_iff hend, subset_rfl,
    i, hi, hpaid, ?_, ?_⟩
  · rintro c x c' ⟨hs, h⟩
    exact ⟨hs, (of_decide_eq_true h : Beside 0 World.empty [] x World.empty)⟩
  · rw [ha]
    exact (hm 1500001 (by simp) .pendingOrders).mp hmem
  · intro j hj hh
    have hst := hall j hj
    rw [hh.1] at hst
    exact absurd hst (by decide)

end Pool

end PaymentRecon
