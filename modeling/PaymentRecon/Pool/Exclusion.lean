import PaymentRecon.Play
import PaymentRecon.Pool.Moves

/-!
# Exclusion — a free amount is never held

An amount is free, in the hand of the one request that took it, or held by a live row: never two of
these.  The fallback allocation is the one step that does not keep this by itself: the amount it stores
must be unclaimed.
-/

namespace PaymentRecon

open Interleave Rely SetStore

namespace Pool

variable {boot : Prop} {p q : Pid} {w w' : World} {past : List Label} {a : Amount} {x : Label}

/-- Where one amount may be. -/
structure Exclusive (w : World) (past : List Label) (a : Amount) : Prop where
  free : a ∈ w.free → ¬ Live w past a ∧ ∀ p, ¬ (stageOf p past).Owns a
  taken : ∀ p, (stageOf p past).Takes a → ¬ Live w past a ∧ ∀ q, (stageOf q past).Owns a → q = p
  paid : ∀ p, stageOf p past = .paid a → a ∈ w.pending →
    ¬ Live w past a ∧ ∀ q, (stageOf q past).Owns a → q = p

/-- The amount is not in the pool, no request other than `p` has it in hand, and nobody is about to
move it to the pool. -/
def Unclaimed (w : World) (past : List Label) (p : Pid) (a : Amount) : Prop :=
  a ∉ w.free ∧ ∀ q, q ≠ p → ¬ (stageOf q past).Takes a ∧ (stageOf q past = .paid a → a ∉ w.pending)

/-- An order that is stored with an amount of the fallback takes an unclaimed amount. -/
def FallbackUnclaimed : StepCond := fun w past x _ =>
  match x with
  | .run p _ (.insertOrder _ _ a) (.ok _) => stageOf p past = .reserved a ∨ Unclaimed w past p a
  | _ => True

theorem FallbackUnclaimed.of_inserts (h : FallbackUnclaimed w past x w') (hp : x.pid = some p)
    (hins : Inserts a x) : stageOf p past = .reserved a ∨ Unclaimed w past p a := by
  obtain ⟨q, f, u, m, o, rfl⟩ := hins.inv
  obtain rfl : q = p := by simpa [Act.pid] using hp
  exact h

/-- With less to exclude, what was exclusive stays so. -/
theorem Exclusive.anti {past' : List Label} (h : Exclusive w past a) (hfree : a ∈ w'.free → a ∈ w.free)
    (hpending : a ∈ w'.pending → a ∈ w.pending)
    (htakes : ∀ q, (stageOf q past').Takes a → (stageOf q past).Takes a)
    (hpaid : ∀ q, stageOf q past' = .paid a → stageOf q past = .paid a)
    (hlive : Live w' past' a → Live w past a) : Exclusive w' past' a := by
  have howns : ∀ q, (stageOf q past').Owns a → (stageOf q past).Owns a :=
    fun q ho => ho.imp (htakes q) (hpaid q)
  constructor
  · intro ha
    obtain ⟨h1, h2⟩ := h.free (hfree ha)
    exact ⟨fun hl => h1 (hlive hl), fun q ho => h2 q (howns q ho)⟩
  · intro q ht
    obtain ⟨h1, h2⟩ := h.taken q (htakes q ht)
    exact ⟨fun hl => h1 (hlive hl), fun q' ho => h2 q' (howns q' ho)⟩
  · intro q hp ha
    obtain ⟨h1, h2⟩ := h.paid q (hpaid q hp) (hpending ha)
    exact ⟨fun hl => h1 (hlive hl), fun q' ho => h2 q' (howns q' ho)⟩

/-- An amount that nobody claims. -/
theorem Exclusive.vacuous (hfree : a ∉ w.free) (htakes : ∀ q, ¬ (stageOf q past).Takes a)
    (hpaid : ∀ q, stageOf q past = .paid a → a ∉ w.pending) : Exclusive w past a :=
  ⟨fun ha => absurd ha hfree, fun q ht => absurd ht (htakes q), fun q hp ha => absurd ha (hpaid q hp)⟩

/-- An amount that nobody but the pool has. -/
theorem Exclusive.released (hlive : ¬ Live w past a) (howns : ∀ q, ¬ (stageOf q past).Owns a) :
    Exclusive w past a :=
  ⟨fun _ => ⟨hlive, howns⟩, fun q ht => absurd (Or.inl ht) (howns q),
    fun q hp _ => absurd (Or.inr hp) (howns q)⟩

/-- An amount that one request only has, not as a paid one. -/
theorem Exclusive.inHand (hfree : a ∉ w.free) (honly : ∀ q, (stageOf q past).Owns a → q = p)
    (hlive : ¬ Live w past a) (hpaid : stageOf p past ≠ .paid a) : Exclusive w past a := by
  constructor
  · exact fun ha => absurd ha hfree
  · intro q ht
    obtain rfl := honly q (Or.inl ht)
    exact ⟨hlive, honly⟩
  · intro q hq
    obtain rfl := honly q (Or.inr hq)
    exact absurd hq hpaid

/-- A payment that is committed ends the life of its amount. -/
theorem pay_ends (hL : Linked w past) (hC : Consistent w) (hC' : Consistent w')
    (hw : system.WStep w x w') (hg : (logic boot).Guarded w past x w') {i : PaymentIntent}
    (hs : stageOf p past = .matched i) (commit : w' = w.commit p)
    (hins : ¬ Inserts i.exactAmount x) : ¬ Live w' (past ++ [x]) i.exactAmount := by
  obtain ⟨hi, hst, t, hm⟩ := hL.settling p i (Or.inl hs)
  rintro ⟨o, j, hj, hholds, -⟩
  rcases wstep_row hw hg hj hholds.1 with ⟨o', k, hk, hid, hkh⟩ | hb
  · obtain rfl := row_unique hC hi ⟨hst, rfl⟩ hk (hkh _ hholds)
    rw [commit] at hj hC'
    have hpaid := commit_paid hC' hi hm hj hid.symm
    rw [hholds.1] at hpaid
    exact absurd hpaid (by decide)
  · exact hins (hholds.2 ▸ hb)

/-! ## One turn -/

section Turn

variable {s s' : Stage} {b : Amount} {i : PaymentIntent}

/-- A turn that gives the amount to nobody. -/
theorem Exclusive.turn (h : Exclusive w past a) (T : Turn boot p w past x w' s s')
    (hL : Linked w past) (hC : Consistent w) (hfree : a ∈ w'.free → a ∈ w.free)
    (hpending : a ∈ w'.pending → a ∈ w.pending) (htakes : s'.Takes a → s.Takes a)
    (hpaid : s' = .paid a → s = .paid a) (hstored : s' = .stored a → s = .stored a) :
    Exclusive w' (past ++ [x]) a :=
  h.anti hfree hpending (fun _ => T.own (P := fun s => s.Takes a) htakes)
    (fun _ => T.own (P := fun s => s = .paid a) hpaid) (T.live hL hC hstored)

/-- The same for a turn that leaves the sets alone. -/
theorem Exclusive.same (h : Exclusive w past a) (T : Turn boot p w past x w' s s')
    (hL : Linked w past) (hC : Consistent w) (sets : w'.sets = w.sets)
    (htakes : s'.Takes a → s.Takes a) (hpaid : s' = .paid a → s = .paid a)
    (hstored : s' = .stored a → s = .stored a) : Exclusive w' (past ++ [x]) a :=
  h.turn T hL hC (by simp [World.free, sets]) (by simp [World.pending, sets]) htakes hpaid hstored

theorem Exclusive.pop (h : Exclusive w past a) (T : Turn boot p w past x w' .idle (.popped b))
    (hL : Linked w past) (hC : Consistent w) (mem : b ∈ w.free)
    (sets : w'.sets = spop w.sets .freeAmounts b) : Exclusive w' (past ++ [x]) a := by
  by_cases hab : b = a
  · subst hab
    obtain ⟨hnl, hno⟩ := h.free mem
    refine .inHand (p := p) ?_ (T.only fun q ho => absurd ho (hno q))
      (fun hl => hnl (T.live hL hC (by simp) hl)) (by rw [T.after]; simp)
    simp [World.free, sets]
  · refine h.turn T hL hC ?_ ?_ ?_ (by simp) (by simp)
    · simp [World.free, sets]
    · rw [World.pending, sets, spop_other (by decide)]
      exact id
    · simp [Stage.Takes, hab]

theorem Exclusive.reserve (h : Exclusive w past a)
    (T : Turn boot p w past x w' (.popped b) (.reserved b)) (hL : Linked w past) (hC : Consistent w)
    (sets : w'.sets = smove w.sets .amounts .pendingOrders b) : Exclusive w' (past ++ [x]) a := by
  have hfree : w'.free = w.free := by rw [World.free, sets, smove_other (by decide) (by decide)]
  by_cases hab : b = a
  · subst hab
    obtain ⟨hnl, honly⟩ := h.taken p (by rw [T.before]; exact Or.inl rfl)
    refine .inHand (p := p) ?_ (T.only honly) (fun hl => hnl (T.live hL hC (by simp) hl))
      (by rw [T.after]; simp)
    rw [hfree]
    exact fun hb => (h.free hb).2 p (by rw [T.before]; simp)
  · refine h.turn T hL hC (by rw [hfree]; exact id) ?_ (by simp [Stage.Takes]) (by simp) (by simp)
    rw [World.pending, sets, mem_smove_of_ne (Ne.symm hab)]
    exact id

theorem Exclusive.refund (h : Exclusive w past a)
    (T : Turn boot p w past x w' (.returning b) .idle) (hL : Linked w past) (hC : Consistent w)
    (sets : w'.sets = sadd w.sets .freeAmounts [b]) : Exclusive w' (past ++ [x]) a := by
  by_cases hab : b = a
  · subst hab
    obtain ⟨hnl, honly⟩ := h.taken p (by rw [T.before]; exact Or.inr (Or.inr rfl))
    exact .released (fun hl => hnl (T.live hL hC (by simp) hl)) (T.nobody honly (by simp))
  · refine h.turn T hL hC ?_ ?_ (by simp) (by simp) (by simp)
    · simp [World.free, sets, Ne.symm hab]
    · rw [World.pending, sets, sadd_other (by decide)]
      exact id

/-- An amount that comes to the pool must come to it from the last one that had it. -/
theorem Exclusive.toPool (h : Exclusive w past a) (T : Turn boot p w past x w' s s')
    (hL : Linked w past) (hC : Consistent w)
    (sets : w'.sets = smove w.sets .pendingOrders .freeAmounts b)
    (htakes : s'.Takes a → s.Takes a) (hpaid : s' = .paid a → s = .paid a)
    (hstored : s' = .stored a → s = .stored a)
    (hend : b = a → a ∈ w.pending →
      ¬ Live w' (past ++ [x]) a ∧ ∀ q, ¬ (stageOf q (past ++ [x])).Owns a) :
    Exclusive w' (past ++ [x]) a := by
  by_cases hmem : b ∈ w.pending
  · by_cases hab : b = a
    · obtain ⟨hnl, hno⟩ := hend hab (hab ▸ hmem)
      exact .released hnl hno
    · refine h.turn T hL hC ?_ ?_ htakes hpaid hstored
      · rw [World.free, sets, mem_smove_of_ne (Ne.symm hab)]
        exact id
      · rw [World.pending, sets, mem_smove_of_ne (Ne.symm hab)]
        exact id
  · rw [smove_of_notMem (s := w.sets) hmem] at sets
    exact h.same T hL hC sets htakes hpaid hstored

theorem Exclusive.release (h : Exclusive w past a) (T : Turn boot p w past x w' (.paid b) .idle)
    (hL : Linked w past) (hC : Consistent w)
    (sets : w'.sets = smove w.sets .pendingOrders .freeAmounts b) : Exclusive w' (past ++ [x]) a := by
  refine h.toPool T hL hC sets (by simp) (by simp) (by simp) ?_
  rintro rfl hmem
  obtain ⟨hnl, honly⟩ := h.paid p T.before hmem
  exact ⟨fun hl => hnl (T.live hL hC (by simp) hl), T.nobody honly (by simp)⟩

theorem Exclusive.move (h : Exclusive w past a) (T : Turn boot p w past x w' (.matched i) (.moved i))
    (hL : Linked w past) (hC : Consistent w)
    (sets : w'.sets = smove w.sets .pendingOrders .freeAmounts i.exactAmount) :
    Exclusive w' (past ++ [x]) a := by
  refine h.toPool T hL hC sets (by simp [Stage.Takes]) (by simp) (by simp) ?_
  rintro rfl hmem
  have hl := hL.live hC T.before
  have hno : ∀ q, ¬ (stageOf q past).Owns i.exactAmount := by
    rintro q (ht | hq)
    · exact (h.taken q ht).1 hl
    · exact (h.paid q hq hmem).1 hl
  refine ⟨?_, fun q ho => hno q (T.own (P := fun s => s.Owns i.exactAmount) (by simp) ho)⟩
  -- the row whose amount was moved is the only one that holds it
  rintro ⟨o, j, hj, hholds, hne⟩
  obtain ⟨hi, hst, -⟩ := (hL.step hC T.wstep T.guarded).settling p i (Or.inr T.after)
  obtain rfl := row_unique (hC.wstep T.wstep) hi ⟨hst, rfl⟩ hj hholds
  exact hne p j T.after rfl

theorem Exclusive.store (h : Exclusive w past a) (T : Turn boot p w past x w' s (.stored b))
    (hL : Linked w past) (hC : Consistent w) (sets : w'.sets = w.sets)
    (hlaw : s = .reserved b ∨ Unclaimed w past p b) : Exclusive w' (past ++ [x]) a := by
  by_cases hab : b = a
  · subst hab
    rcases hlaw with rfl | ⟨hfree, hun⟩
    · obtain ⟨-, honly⟩ := h.taken p (by rw [T.before]; exact Or.inr (Or.inl rfl))
      have hno := T.nobody honly (by simp)
      refine .vacuous ?_ (fun q ht => hno q (Or.inl ht)) fun q hq => absurd (Or.inr hq) (hno q)
      rw [World.free, sets]
      exact fun hb => (h.free hb).2 p (by rw [T.before]; simp)
    · refine .vacuous (by rw [World.free, sets]; exact hfree) ?_ ?_
      · intro q ht
        by_cases hq : q = p
        · subst hq
          rw [T.after] at ht
          simp [Stage.Takes] at ht
        · rw [T.others q hq] at ht
          exact (hun q hq).1 ht
      · intro q hpaid
        by_cases hq : q = p
        · subst hq
          rw [T.after] at hpaid
          exact absurd hpaid (by simp)
        · rw [T.others q hq] at hpaid
          rw [World.pending, sets]
          exact (hun q hq).2 hpaid
  · exact h.same T hL hC sets (by simp [Stage.Takes]) (by simp) (by simp [hab])

theorem Exclusive.pay (h : Exclusive w past a)
    (T : Turn boot p w past x w' (.matched i) (.paid i.exactAmount)) (hL : Linked w past)
    (hC : Consistent w) (commit : w' = w.commit p) : Exclusive w' (past ++ [x]) a := by
  have sets : w'.sets = w.sets := by rw [commit, commit_sets]
  by_cases hab : i.exactAmount = a
  · subst hab
    have hl := hL.live hC T.before
    have hnl : ¬ Live w' (past ++ [x]) i.exactAmount :=
      pay_ends hL hC (hC.wstep T.wstep) T.wstep T.guarded T.before commit
        fun hb => absurd (T.inserts hb).1 (by simp)
    -- nobody else owns the amount of a live row
    have hno : i.exactAmount ∈ w.pending → ∀ q, (stageOf q (past ++ [x])).Owns i.exactAmount →
        q = p := by
      intro hmem
      refine T.only fun q ho => ?_
      rcases ho with ht | hq
      · exact absurd hl (h.taken q ht).1
      · exact absurd hl (h.paid q hq hmem).1
    constructor
    · intro hb
      rw [World.free, sets] at hb
      exact absurd hl (h.free hb).1
    · intro q ht
      have ht := T.own (P := fun s => s.Takes i.exactAmount) (by simp [Stage.Takes]) ht
      exact absurd hl (h.taken q ht).1
    · intro q hq hmem
      rw [World.pending, sets] at hmem
      obtain rfl := hno hmem q (Or.inr hq)
      exact ⟨hnl, hno hmem⟩
  · exact h.same T hL hC sets (by simp [Stage.Takes]) (by simp [hab]) (by simp)

end Turn

/-- **Step lemma** of the exclusion. -/
theorem Exclusive.step (h : Exclusive w past a) (hL : Linked w past) (hC : Consistent w)
    (hw : system.WStep w x w') (hg : (logic False).Guarded w past x w')
    (hfall : FallbackUnclaimed w past x w') : Exclusive w' (past ++ [x]) a := by
  rcases step_turn hw hg with ⟨hsets, hst⟩ | ⟨p, s, s', T, hm⟩
  · refine h.anti (by simp [World.free, hsets]) (by simp [World.pending, hsets])
      (fun q => by rw [hst q]; exact id) (fun q => by rw [hst q]; exact id) fun hl => ?_
    rcases live_step hL hC hw hg hl with hl | hins
    · exact hl
    · cases x with
      | run p f op r =>
        have hstage := inserts_stage hg rfl hins
        rw [hst p] at hstage
        exact absurd hstage.1 hstage.2
      | _ => exact hins.elim
  · cases hm with
    | aside sets => exact h.same T hL hC sets id id id
    | pop mem sets => exact h.pop T hL hC mem sets
    | reserve sets => exact h.reserve T hL hC sets
    | lose sets _ => exact h.same T hL hC sets (by simp) (by simp) (by simp)
    | giveBack sets =>
      refine h.turn T hL hC ?_ ?_ (by simp [Stage.Takes]) (by simp) (by simp)
      · rw [World.free, sets, smove_other (by decide) (by decide)]
        exact id
      · rw [World.pending, sets, mem_smove (by decide)]
        split_ifs <;> simp
    | refund sets => exact h.refund T hL hC sets
    | release _ sets => exact h.release T hL hC sets
    | move _ sets => exact h.move T hL hC sets
    | store sets inserts _ =>
      have hlaw := hfall.of_inserts T.pid inserts
      rw [T.before] at hlaw
      exact h.store T hL hC sets hlaw
    | settle sets => exact h.same T hL hC sets (by simp [Stage.Takes]) (by simp) (by simp)
    | pay commit => exact h.pay T hL hC commit
    | close _ commit =>
      exact h.same T hL hC (by rw [commit, commit_sets]) (by simp) (by simp) (by simp)
    | rollback undone _ =>
      exact h.same T hL hC (by rw [undone, rollback_sets]) (by simp) (by simp) (by simp)
    | seed hboot | reread hboot | clear hboot | rebuild hboot => exact hboot.elim

/-! ## Runs -/

theorem Linked.rest (hclosed : w.Closed) (hidle : ∀ p, stageOf p past = .idle)
    (hst : ∀ i ∈ w.db.intents, i.status = .PENDING ∨ i.status = .PAID) : Linked w past := by
  constructor
  · intro p i hm
    simp [hclosed p, Txn.empty] at hm
  · intro p id t hm
    simp [hclosed p, Txn.empty] at hm
  · intro p i hs
    rw [hidle p] at hs
    simp [Stage.Settles] at hs
  · exact hst

/-- With no session open, live rows are committed. -/
theorem Live.committed (hclosed : w.Closed) (h : Live w past a) : ∃ i ∈ w.db.intents, i.Holds a := by
  obtain ⟨o, i, hi, hh, -⟩ := h
  cases o with
  | none => exact ⟨i, hi, hh⟩
  | some p =>
    have hm : Write.insIntent i ∈ (w.txn p).writes := hi
    simp [hclosed p, Txn.empty] at hm

theorem Exclusive.rest (hclosed : w.Closed) (hidle : ∀ p, stageOf p past = .idle)
    (hfree : ∀ a ∈ w.free, ∀ i ∈ w.db.intents, ¬ i.Holds a) (a : Amount) :
    Exclusive w past a := by
  constructor
  · intro ha
    refine ⟨fun hl => ?_, fun p => by rw [hidle p]; simp⟩
    obtain ⟨i, hi, hh⟩ := hl.committed hclosed
    exact hfree a ha i hi hh
  · intro p ht
    rw [hidle p] at ht
    simp at ht
  · intro p hp
    rw [hidle p] at hp
    simp at hp

/-- With no request in flight every stage is idle. -/
theorem idle_of_quiet {c : State} (h : (logic boot).Holds c) (hq : c.Quiet)
    (hc : ∀ p, c.thread p ≠ .crashed) (p : Pid) : stageOf p c.past = .idle := by
  rcases h.quiet hq hc p with hs | ⟨_, hs⟩ <;> exact hs

/-- No request crashes for want of Redis. -/
theorem uncrashed_step {c c' : State} (hs : Steps c x c') (hc : Allows (logic boot).cond c x c')
    (h : ∀ p, c.thread p ≠ .crashed) (p : Pid) : c'.thread p ≠ .crashed := by
  intro hp
  rcases hs.crashed hp with hp | rfl
  · exact h p hp
  · exact hc

/-- An insertion with an amount that came from Redis never meets another PENDING intent. -/
theorem Exclusive.no_collision (h : Exclusive w past a) (hL : Linked w past)
    (hres : stageOf p past = .reserved a) {u : Id} {m : Amount} {r : Except Exc Order}
    (hx : Op.run p (.insertOrder u m a) w r w') : r ≠ .error IntegrityError := by
  rintro rfl
  simp only [Op.run] at hx
  split_ifs at hx
  · obtain ⟨hbusy, ⟨htaken, -⟩ | ⟨-, h, -⟩⟩ := hx
    · rcases htaken with ⟨i, hi, hh⟩ | ⟨i, hi, hh⟩
      · -- the row that holds the amount is about to be settled: the insertion waits
        have hnl := (h.taken p (by rw [hres]; exact Or.inr (Or.inl rfl))).1
        refine hnl ⟨none, i, hi, hh, ?_⟩
        intro q j hq hid
        obtain ⟨-, -, t, hm⟩ := hL.settling q j (Or.inr hq)
        refine hbusy (Or.inr ⟨q, i, t, ?_, hi, hh, hid ▸ hm⟩)
        rintro rfl
        rw [hres] at hq
        exact absurd hq (by simp)
      · have hst := hL.inserted p i hi
        rw [hres] at hst
        exact absurd hst (by simp)
    · exact absurd h (by simp)
  · exact absurd hx.1 (by simp [DataError, IntegrityError])

/-- **A free amount is never held**, as long as the fallback takes unclaimed amounts; and then an
amount taken from Redis never collides. -/
theorem free_amount_not_held {w₀ : World} (hC : Consistent w₀) (hclosed : w₀.Closed)
    (hst : ∀ i ∈ w₀.db.intents, i.status = .PENDING ∨ i.status = .PAID)
    (hfree : ∀ a ∈ w₀.free, ∀ i ∈ w₀.db.intents, ¬ i.Holds a) {tr : List Label} {c : State}
    (hr : Lts.Run (StepsIf fun w past x w' =>
      Outages False w past x w' ∧ FallbackUnclaimed w past x w') (.init w₀) tr c) :
    (c.Quiet → ∀ a ∈ c.world.free, ∀ i ∈ c.world.db.intents, ¬ i.Holds a) ∧
      ∀ p u m a r c', Steps c (.run p .done (.insertOrder u m a) r) c' →
        stageOf p c.past = .reserved a → r ≠ .error IntegrityError := by
  obtain ⟨hH, hL, hE, hcr⟩ := (@sound False).derive
    (P := fun c x c' => Allows FallbackUnclaimed c x c')
    (J := fun c => Linked c.world c.past ∧ (∀ a, Exclusive c.world c.past a) ∧
      ∀ p, c.thread p ≠ .crashed) hr (Holds.init hC fun _ => rfl)
    ⟨Linked.rest hclosed (fun _ => rfl) hst, Exclusive.rest hclosed (fun _ => rfl) hfree,
      fun _ => by simp [Config.init]⟩ (by
      rintro c x c' hC ⟨hL, hE, hcr⟩ hs hg hfall
      obtain ⟨hw, hpast⟩ := hs.wstep
      rw [hpast]
      exact ⟨hL.step hC hw hg, fun a => (hE a).step hL hC hw hg hfall, uncrashed_step hs hg.1 hcr⟩)
  refine ⟨?_, ?_⟩
  · intro hq a ha i hi hh
    exact ((hE a).free ha).1 (committed_live hi hh (idle_of_quiet hH hq hcr))
  · intro p u m a r c' hs hres
    cases hs with
    | run ht hx => exact (hE a).no_collision hL hres hx

theorem firstStarted_consistent : Consistent firstStarted := by
  refine .of_closed World.empty_closed ?_ ?_ ?_ ?_ ?_ ?_ ?_ ?_ ?_ ?_ <;>
    simp [firstStarted, World.empty, Db.empty]

/-- After the first startup every amount of the range is in `amounts` and in `free_amounts`. -/
theorem firstStarted_holders {as : List Amount} (h : ∀ a ∈ as, a ∈ seeded) :
    Holders as (fun _ k => decide (k ≠ .pendingOrders)) firstStarted.sets := by
  intro a ha k
  rw [firstStarted_sets]
  split_ifs with hk <;> simp [hk, h a ha]

/-- No other thread than `p` is in the middle of something. -/
def aloneAt (p : Pid) (past : List Label) : Bool :=
  past.all fun x => x.pid.all fun q => q = p || stageOf q past = .idle

theorem stageOf_unseen (h : ∀ x ∈ past, x.pid ≠ some q) : stageOf q past = .idle := by
  induction past using List.reverseRecOn with
  | nil => rfl
  | append_singleton past x ih =>
    rw [stageOf_other (h x (by simp))]
    exact ih fun y hy => h y (List.mem_append_left _ hy)

theorem stageOf_alone (h : aloneAt p past = true) (hq : q ≠ p) : stageOf q past = .idle := by
  by_cases hseen : ∃ x ∈ past, x.pid = some q
  · obtain ⟨x, hx, hpid⟩ := hseen
    have := List.all_eq_true.mp h x hx
    simpa [hpid, hq] using this
  · exact stageOf_unseen fun x hx hpid => hseen ⟨x, hx, hpid⟩

/-- The orders are stored with amounts that Redis served, or alone with 1550001; nothing is added to
the free amounts. -/
def served : Check where
  test _ past a := decide (Outages False World.empty past a World.empty) && match a with
    | .run p _ (.insertOrder _ _ a) (.ok _) =>
      stageOf p past = .reserved a || a = 1550001 && aloneAt p past
    | .run _ _ (.smove _ .freeAmounts _) _ | .run _ _ (.sadd .freeAmounts _) _
    | .run _ _ (.sdiffstore .freeAmounts _ _) _ => false
    | _ => true
  sets _ _ _ _ := rfl

theorem served_free {c c' : State} (h : served.Steps c x c') : c'.world.free ⊆ c.world.free := by
  obtain ⟨hs, htest⟩ := h
  have htest := (Bool.and_eq_true _ _).mp htest
  cases hs with
  | @run p f op g r w' ht hx =>
    rcases (of_decide_eq_true htest.1 : f = .done ∨ f = .failed ∧ op.OnRedis) with rfl | ⟨rfl, -⟩
    · show w'.sets .freeAmounts ⊆ c.world.sets .freeAmounts
      rw [(run_effect hx).sets]
      cases op with
      | spop k =>
        rcases r with e | _ | b
        · exact subset_rfl
        · exact subset_rfl
        · cases k with
          | freeAmounts => exact fun a ha => (mem_spop.mp ha).2
          | _ => exact subset_rfl
      | smove src dst m =>
        cases dst with
        | freeAmounts => exact absurd htest.2 (by simp)
        | _ =>
          cases src with
          | freeAmounts => exact fun a ha => ((mem_smove_src (by simp)).mp ha).1
          | _ => exact (smove_other (by simp) (by simp)).subset
      | sadd k ms =>
        cases k with
        | freeAmounts => exact absurd htest.2 (by simp)
        | _ => exact subset_rfl
      | del k =>
        cases k with
        | freeAmounts => exact Finset.empty_subset _
        | _ => exact subset_rfl
      | sdiffstore dst a b =>
        cases dst with
        | freeAmounts => exact absurd htest.2 (by simp)
        | _ => exact subset_rfl
      | _ => exact subset_rfl
    · obtain ⟨rfl, -⟩ := hx
      exact subset_rfl
  | _ => exact subset_rfl

theorem served_steps {c c' : State} (h : served.Steps c x c') (hfree : 1550001 ∉ c.world.free) :
    StepsIf (fun w past x w' => Outages False w past x w' ∧ FallbackUnclaimed w past x w') c x c' := by
  obtain ⟨hs, htest⟩ := h
  have htest := (Bool.and_eq_true _ _).mp htest
  refine ⟨hs, (of_decide_eq_true htest.1 : Outages False World.empty c.past x World.empty), ?_⟩
  cases x with
  | run p f op r =>
    cases op with
    | insertOrder u m a => cases r with
      | ok o =>
        rcases (Bool.or_eq_true _ _).mp htest.2 with hserved | hfallback
        · exact Or.inl (of_decide_eq_true hserved)
        · obtain ⟨ha, halone⟩ := (Bool.and_eq_true _ _).mp hfallback
          obtain rfl : a = 1550001 := of_decide_eq_true ha
          refine Or.inr ⟨hfree, fun q hq => ?_⟩
          rw [stageOf_alone halone hq]
          exact ⟨takes_idle, fun h => absurd h (by simp)⟩
      | error e => trivial
    | _ => trivial
  | _ => trivial

/-- An order with an amount of the pool, and one during an outage. -/
theorem free_amount_not_held_sample : ∃ (tr : List Label) (c : State),
    Lts.Run (StepsIf fun w past x w' => Outages False w past x w' ∧ FallbackUnclaimed w past x w')
      (.init firstStarted) tr c ∧ c.Quiet ∧ (∃ i ∈ c.world.db.intents, i.Holds 1500001) ∧
      (∃ i ∈ c.world.db.intents, i.Holds 1550001) ∧ 1550000 ∈ c.world.free ∧
      ∀ a ∈ c.world.free, ∀ i ∈ c.world.db.intents, ¬ i.Holds a := by
  obtain ⟨c, tr, s, m, htest, hm, hn, hr⟩ := tracks_run 2 served
    (Script.create 0 1500001 ++
      [.spawn 1 (.createOrder 2 1550000), .fail 1 RedisError, .go 1 (some 1550001)] ++ Move.goes 1 3)
    (.init World.empty) [1500001, 1550000] (fun _ k => k ≠ .pendingOrders)
    (fun c m => rests 2 (c.at [] World.empty.sets) && m 1550000 .freeAmounts &&
      ((c.world.db.intents.any fun i => i.Holds 1500001) &&
        c.world.db.intents.any fun i => i.Holds 1550001))
    (by decide +kernel) (Within.init 2 World.empty_closed) (firstStarted_holders (by simp [seeded]))
    [] (Or.inl rfl)
  simp only [Bool.and_eq_true] at htest
  obtain ⟨⟨hrest, hleft⟩, hpool, hfallback⟩ := htest
  have hq : (c.at ([] ++ tr) s).Quiet := quiet_of_rests hrest hn.fresh
  have hout : 1550001 ∉ firstStarted.free := by
    rw [show firstStarted.free = _ from firstStarted_sets .freeAmounts]
    simp [seeded]
  obtain ⟨-, hr'⟩ := hr.along (fun c => 1550001 ∉ c.world.free) hout
    fun c x c' hfree hs h => hfree (served_free hs h)
  have hr' := hr'.mono fun _ _ _ h => served_steps h.1 h.2
  have hfree := free_amount_not_held firstStarted_consistent World.empty_closed
    (by simp [firstStarted, World.empty, Db.empty]) (by simp [firstStarted, World.empty, Db.empty]) hr'
  exact ⟨tr, _, hr', hq, by simpa using hpool, by simpa using hfallback,
    (hm _ (by simp) .freeAmounts).mp hleft, hfree.1 hq⟩

/-- The fallback gives out an amount that is free in Redis. -/
theorem free_amount_held : ∃ (tr : List Label) (c : State),
    Lts.Run (StepsIf (Outages False)) (.init firstStarted) tr c ∧ c.Quiet ∧
      ∃ a ∈ c.world.free, ∃ i ∈ c.world.db.intents, i.Holds a := by
  obtain ⟨c, tr, s, m, htest, hm, hn, hr⟩ := tracks_run 1
    (.label fun x => Outages False World.empty [] x World.empty) (Script.createDown 0 1500001)
    (.init World.empty) [1500001] (fun _ k => k ≠ .pendingOrders)
    (fun c m => rests 1 (c.at [] World.empty.sets) &&
      ((c.world.db.intents.any fun i => i.Holds 1500001) && m 1500001 .freeAmounts))
    (by decide +kernel) (Within.init 1 World.empty_closed) (firstStarted_holders (by simp [seeded]))
    [] (Or.inl rfl)
  simp only [Bool.and_eq_true] at htest
  refine ⟨tr, _, hr.mono ?_, quiet_of_rests htest.1 hn.fresh, 1500001, (hm _ (by simp) _).mp htest.2.2,
    by simpa using htest.2.1⟩
  rintro c x c' ⟨hs, h⟩
  exact ⟨hs, (of_decide_eq_true h : Outages False World.empty [] x World.empty)⟩

end Pool

end PaymentRecon
