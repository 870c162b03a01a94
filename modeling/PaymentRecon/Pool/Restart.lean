import PaymentRecon.Pool.Partition

/-!
# Restart — the pool from one startup to the next

Runs without failures.  After the first startup every amount of the range is free or pending, as long as
no amount is stored a second time; the next startup rebuilds the pool from `amounts`, and recovers no
amount that has left it.
-/

namespace PaymentRecon

open Interleave Rely SetStore

namespace Pool

variable {boot boot' : Prop} {p q : Pid} {w w' : World} {past : List Label} {a : Amount} {x : Label}
  {c c' : State} {tr : List Label}

/-- Nothing fails. -/
def Unfailing (boot : Prop) : StepCond := fun w past x w' => Outages boot w past x w' ∧ x.Clean

/-- With no request in flight it does not matter what was promised before. -/
theorem holds_rest (h : (logic boot).Holds c) (hq : c.Quiet) (hc : ∀ p, c.thread p ≠ .crashed) :
    (logic boot').Holds c := by
  refine ⟨h.inv, fun p _ => idle_of_quiet h hq hc p, fun p y hy => ?_⟩
  refine ⟨fun _ past => stageOf p past = .idle, idle_of_quiet h hq hc p, stable_at .idle, ?_⟩
  cases y with
  | ret a => exact fun _ _ hs => hs
  | raise e => exact fun _ _ hs => hs
  | call op k =>
    refine absurd ?_ (hq p)
    rw [hy]
    trivial

/-! ## One startup -/

/-- A startup by itself leaves `restarted`. -/
theorem startup_ends (hC : Consistent c.world) {fuel : ℕ}
    (hfuel : c.world.db.intents.length < fuel)
    (hr : Lts.Run (Lts.restrict Steps (Alone p)) c (.spawn p (.lifespan fuel) :: tr) c')
    {y : Except Exc Response} (hend : c'.thread p = .live (.ofExcept y)) :
    c'.world = withSets c.world (restarted c.world) ∧ ∀ q, q ≠ p → c'.thread q = c.thread q := by
  obtain ⟨c₁, ⟨hs, -⟩, hr⟩ := hr.uncons
  cases hs with
  | spawn hf =>
    have hwp := wp_lifespan (w := c.world) (p := p) hC.intents.nodup
      (fun i hi => hC.intents.pos.2 none i hi) hfuel
    obtain ⟨⟨z, hz, hpost⟩, hothers⟩ := Wp.run hr (by simp [Config.next]; rfl) hwp
    rw [hend] at hz
    obtain rfl := Thread.live.inj hz
    refine ⟨?_, fun q hq => ?_⟩
    · cases y with
      | ok a => exact hpost.2
      | error e => exact hpost.2
    · rw [hothers q hq]
      simp [Config.next, hq]

/-- A startup may run by itself. -/
theorem startup_runs (hC : Consistent c.world) {fuel : ℕ} (hfuel : c.world.db.intents.length < fuel)
    (hf : c.thread p = .fresh) : ∃ tr, Lts.Run (Lts.restrict Steps (Alone p)) c
      (.spawn p (.lifespan fuel) :: tr)
      ⟨withSets c.world (restarted c.world),
        Function.update c.thread p (.live (.ret .started)), c.past ++ .spawn p (.lifespan fuel) :: tr⟩ := by
  have hwp := wp_lifespan (w := c.world) (p := p) hC.intents.nodup
    (fun i hi => hC.intents.pos.2 none i hi) hfuel
  have hmay : May system (fun _ _ x _ => x.Clean ∧ x.pid = some p) p (lifespan fuel)
      (fun r w' _ => r = .ok .started ∧ w' = withSets c.world (restarted c.world)) c.world
      (c.past ++ [.spawn p (.lifespan fuel)]) := hwp.may fun _ _ _ _ _ _ => ⟨rfl, rfl⟩
  obtain ⟨as, r, w', ⟨rfl, rfl⟩, -, hrun⟩ := hmay.run c.thread
  rw [← List.append_cons] at hrun
  exact ⟨as, .cons ⟨Step.spawn hf, trivial, rfl⟩ hrun⟩

/-- It is a run without failures. -/
theorem unfailing_of_alone
    (hr : Lts.Run (Lts.restrict Steps (Alone p)) c tr c') :
    Lts.Run (StepsIf (Unfailing True)) c tr c' := by
  refine hr.mono ?_
  rintro c a c' ⟨hs, hclean, -⟩
  refine ⟨hs, ?_, hclean⟩
  cases a with
  | spawn q y => cases y <;> trivial
  | run q f op r => exact Or.inl hclean
  | crash q => exact hclean.elim
  | outer y => trivial

/-- No operation failed so far. -/
def NoFault (past : List Label) : Prop := ∀ p, ¬ Faulted p past

theorem NoFault.step (h : NoFault past) (hx : x.Clean) : NoFault (past ++ [x]) := by
  rintro p ⟨op, r, hm⟩
  rcases List.mem_append.mp hm with hm | hm
  · exact h p ⟨op, r, hm⟩
  · obtain rfl := List.mem_singleton.mp hm
    simp [Act.Clean] at hx

/-- Without failures every stored amount came from Redis. -/
theorem fallback_unused (hf : NoFault past) (hg : (logic boot).Guarded w past x w') :
    FallbackUnclaimed w past x w' := by
  cases x with
  | run p f op r =>
    cases op with
    | insertOrder u m a =>
      have hlaw : Lawful boot p w past (.insertOrder u m a) := hg.2 p f _ r rfl
      cases r with
      | ok o =>
        rcases hlaw with hs | ⟨-, hp⟩
        · exact Or.inl hs
        · exact absurd hp (hf p)
      | error e => trivial
    | _ => trivial
  | _ => trivial

/-! ## The partition -/

theorem Placed.rest (hidle : ∀ p, stageOf p past = .idle) (hfree : a ∈ w.free) (hamt : a ∈ w.amounts)
    (hpend : a ∉ w.pending) (hrows : w.db.intents = []) (hclosed : w.Closed) : Placed w past a := by
  have hnu : ¬ Used w a := by
    rintro ⟨i, hi, -⟩
    simp [hrows] at hi
  refine .pooled hfree (fun q => by rw [hidle q]; simp) ?_ hpend ⟨fun _ => hnu, fun _ => hamt⟩
  intro hl
  obtain ⟨i, hi, -⟩ := hl.committed hclosed
  simp [hrows] at hi

/-- With no request in flight an amount is free or pending, and pending exactly when it is held. -/
theorem Placed.quiet (h : Placed w past a) (hE : Exclusive w past a) (hL : Linked w past)
    (hidle : ∀ p, stageOf p past = .idle) :
    (a ∈ w.free ∨ a ∈ w.pending) ∧ ¬ (a ∈ w.free ∧ a ∈ w.pending) ∧
      (a ∈ w.pending ↔ ∃ i ∈ w.db.intents, i.Holds a) := by
  have hlive : a ∈ w.pending → Live w past a := by
    intro hp
    rcases h.reason hp with ⟨q, hq, -⟩ | hl | ⟨q, hq⟩
    · rw [hidle q] at hq
      exact absurd hq (by simp)
    · exact hl
    · rw [hidle q] at hq
      exact absurd hq (by simp)
  refine ⟨?_, ?_, ?_, ?_⟩
  · rcases h.somewhere with hf | ⟨q, hq⟩ | hp
    · exact Or.inl hf
    · rw [hidle q] at hq
      exact absurd hq (by simp)
    · exact Or.inr hp
  · rintro ⟨hf, hp⟩
    exact (hE.free hf).1 (hlive hp)
  · intro hp
    obtain ⟨o, i, hi, hh, -⟩ := hlive hp
    cases o with
    | none => exact ⟨i, hi, hh⟩
    | some q =>
      have hs := hL.inserted q i hi
      rw [hidle q] at hs
      exact absurd hs (by simp)
  · rintro ⟨i, hi, hh⟩
    exact h.live (committed_live hi hh hidle)

/-- **Partition of the pool**: after the first startup, as long as no amount is stored a second
time, every amount of the range is in exactly one of `free_amounts` and `pending_orders`, and in
`pending_orders` exactly when a PENDING intent holds it. -/
theorem pool_partitioned {w₀ : World} (hC : Consistent w₀) (hclosed : w₀.Closed)
    (hrows : w₀.db.intents = []) (hempty : ∀ k, w₀.sets k = ∅) {fuel : ℕ} (hfuel : 0 < fuel)
    {tr₀ : List Label} {c₀ : State}
    (hstart : Lts.Run (Lts.restrict Steps (Alone p)) (.init w₀) (.spawn p (.lifespan fuel) :: tr₀) c₀)
    (hend : c₀.thread p = .live (.ret .started))
    (hr : Lts.Run (StepsIf fun w past x w' => Unfailing False w past x w' ∧ FirstUse w past x w')
      c₀ tr c) (hq : c.Quiet) :
    ∀ a ∈ seeded, (a ∈ c.world.free ∨ a ∈ c.world.pending) ∧
      ¬ (a ∈ c.world.free ∧ a ∈ c.world.pending) ∧
      (a ∈ c.world.pending ↔ ∃ i ∈ c.world.db.intents, i.Holds a) := by
  -- the state after the startup
  obtain ⟨hw₀, hfresh⟩ := startup_ends (y := .ok .started) (show Consistent (Config.init w₀).world from hC)
    (by simpa [Config.init, hrows] using hfuel) hstart hend
  have hquiet : c₀.Quiet := by
    intro q hrun
    by_cases hqp : q = p
    · subst hqp
      rw [hend] at hrun
      exact hrun
    · rw [hfresh q hqp] at hrun
      exact hrun
  have hcr₀ : ∀ q, c₀.thread q ≠ .crashed := by
    intro q
    by_cases hqp : q = p
    · subst hqp
      simp [hend]
    · simp [hfresh q hqp, Config.init]
  obtain ⟨hH₀, hnf₀⟩ := (@sound True).derive (P := fun c x c' => x.Clean)
    (J := fun c => NoFault c.past) ((unfailing_of_alone hstart).mono fun _ _ _ h => h)
    (Holds.init hC fun _ => rfl) (by rintro q ⟨op, r, hm⟩; simp [Config.init] at hm) (by
      intro c x c' _ hJ hs _ hx
      rw [hs.wstep.2]
      exact hJ.step hx)
  have hidle₀ := idle_of_quiet hH₀ hquiet hcr₀
  have hdb : c₀.world.db = w₀.db := by rw [hw₀]; rfl
  have hclosed₀ : c₀.world.Closed := by rw [hw₀]; exact hclosed
  have hsets : c₀.world.sets = restarted w₀ := by rw [hw₀]; rfl
  have hamounts : restarted w₀ .amounts = seeded := by
    simp [restarted, seedOf, World.amounts, hempty, seeded]
  have hres : reserved w₀.db = ∅ := by simp [reserved, hrows]
  have hrows₀ : c₀.world.db.intents = [] := by rw [hdb, hrows]
  have hfree₀ : c₀.world.free = seeded := by
    rw [World.free, hsets, ← hamounts]
    simp [restarted, hres]
  have hamt₀ : c₀.world.amounts = seeded := by rw [World.amounts, hsets, hamounts]
  have hpend₀ : c₀.world.pending = ∅ := by
    rw [World.pending, hsets]
    exact hres
  -- the steps after it
  obtain ⟨hH, hL, hE, hP, -, hcr⟩ := (@sound False).derive
    (P := fun c x c' => x.Clean ∧ FirstUse c.world c.past x c'.world)
    (J := fun c => Linked c.world c.past ∧ (∀ a, Exclusive c.world c.past a) ∧
      (∀ a ∈ seeded, Placed c.world c.past a) ∧ NoFault c.past ∧ ∀ q, c.thread q ≠ .crashed)
    (hr.mono fun _ _ _ h => ⟨h.1, h.2.1.1, h.2.1.2, h.2.2⟩) (holds_rest hH₀ hquiet hcr₀)
    ⟨Linked.rest hclosed₀ hidle₀ (by simp [hrows₀]),
      Exclusive.rest hclosed₀ hidle₀ (by simp [hrows₀]),
      fun a ha => Placed.rest hidle₀ (hfree₀ ▸ ha) (hamt₀ ▸ ha) (by simp [hpend₀]) hrows₀ hclosed₀,
      hnf₀, hcr₀⟩ (by
      rintro c x c' hC ⟨hL, hE, hP, hnf, hcr⟩ hs hg ⟨hx, hfirst⟩
      obtain ⟨hw, hpast⟩ := hs.wstep
      rw [hpast]
      have hE' := fun a => (hE a).step hL hC hw hg (fallback_unused hnf hg)
      refine ⟨hL.step hC hw hg, hE', fun a ha => ?_, hnf.step hx, uncrashed_step hs hg.1 hcr⟩
      have h0 : a ≠ 0 := by
        rintro rfl
        simp [seeded] at ha
      exact (hP a ha).step (hE a) (hE' a) hL hC h0 hnf hx hw hg hfirst)
  exact fun a ha => (hP a ha).quiet (hE a) hL (idle_of_quiet hH hq hcr)

/-- The scene after the first startup. -/
def started : Scene := ⟨World.empty, Function.update (fun _ => .fresh) 0 (.live (.ret .started))⟩

theorem started_within {n : ℕ} (hn : 0 < n) : Within n started :=
  ⟨fun q _ => World.empty_closed q, fun q hq => by
    simp [started, Function.update_of_ne (lt_of_lt_of_le hn hq).ne']⟩

theorem started_run : ∃ tr, Lts.Run (Lts.restrict Steps (Alone 0)) (.init World.empty)
    (.spawn 0 (.lifespan 1) :: tr) (started.at (.spawn 0 (.lifespan 1) :: tr) firstStarted.sets) :=
  startup_runs (c := .init World.empty) Consistent.empty (by decide) rfl

/-- Nothing fails, and every order is stored with an amount that no order had. -/
def firstUses : Check where
  test w _ x := decide (x.Clean ∧ Outages False w [] x w) && match x with
    | .run _ _ (.insertOrder _ _ a) (.ok _) => w.db.intents.all fun i => i.exactAmount ≠ a
    | _ => true
  sets _ _ _ _ := rfl

theorem firstUses_steps (h : firstUses.Steps c x c') : StepsIf (fun w past x w' =>
    Unfailing False w past x w' ∧ FirstUse w past x w') c x c' := by
  obtain ⟨hs, htest⟩ := h
  have htest := (Bool.and_eq_true _ _).mp htest
  have hclean := of_decide_eq_true htest.1
  refine ⟨hs, ⟨hclean.2, hclean.1⟩, ?_⟩
  cases x with
  | run p f op r =>
    cases op with
    | insertOrder u m a => cases r with
      | ok o =>
        rintro ⟨i, hi, rfl⟩
        simpa using List.all_eq_true.mp htest.2 i hi
      | error e => trivial
    | _ => trivial
  | _ => trivial

theorem pool_partitioned_sample : ∃ (tr₀ tr : List Label) (c₀ c : State),
    Lts.Run (Lts.restrict Steps (Alone 0)) (.init World.empty) (.spawn 0 (.lifespan 1) :: tr₀) c₀ ∧
      Lts.Run (StepsIf fun w past x w' => Unfailing False w past x w' ∧ FirstUse w past x w')
        c₀ tr c ∧ c.Quiet ∧ (∃ i ∈ c.world.db.intents, i.Holds 1500002) ∧
      ∀ a ∈ seeded, (a ∈ c.world.free ∨ a ∈ c.world.pending) ∧
        ¬ (a ∈ c.world.free ∧ a ∈ c.world.pending) ∧
        (a ∈ c.world.pending ↔ ∃ i ∈ c.world.db.intents, i.Holds a) := by
  obtain ⟨tr₀, h₀⟩ := started_run
  obtain ⟨c, tr, s, m, htest, -, hn, hr⟩ := tracks_run 2 firstUses (Script.create 1 1500002) started
    [1500002] (fun _ k => k ≠ .pendingOrders)
    (fun c _ => rests 2 (c.at [] World.empty.sets) &&
      c.world.db.intents.any fun i => i.Holds 1500002)
    (by decide +kernel) (started_within (by decide)) (firstStarted_holders (by simp [seeded]))
    (.spawn 0 (.lifespan 1) :: tr₀) (Or.inr fun _ _ _ => rfl)
  have htest := (Bool.and_eq_true _ _).mp htest
  have hq : (c.at (.spawn 0 (.lifespan 1) :: tr₀ ++ tr) s).Quiet := quiet_of_rests htest.1 hn.fresh
  have hr' := hr.mono fun _ _ _ => firstUses_steps
  exact ⟨tr₀, tr, _, _, h₀, hr', hq, by simpa using htest.2,
    pool_partitioned Consistent.empty World.empty_closed rfl (fun _ => rfl) (by decide) h₀ rfl hr' hq⟩

/-- An amount that is allocated a second time is in neither set. -/
theorem pool_not_partitioned : ∃ (tr₀ tr : List Label) (c₀ c : State),
    Lts.Run (Lts.restrict Steps (Alone 0)) (.init World.empty) (.spawn 0 (.lifespan 1) :: tr₀) c₀ ∧
      c₀.thread 0 = .live (.ret .started) ∧
      Lts.Run (StepsIf (Unfailing False)) c₀ tr c ∧ c.Quiet ∧
      ∃ a ∈ seeded, a ∉ c.world.free ∧ a ∉ c.world.pending ∧ ∃ i ∈ c.world.db.intents, i.Holds a := by
  obtain ⟨tr₀, h₀⟩ := started_run
  obtain ⟨c, tr, s, m, htest, hm, hn, hr⟩ := tracks_run 4
    (.label fun x => x.Clean ∧ Outages False World.empty [] x World.empty)
    (Script.create 1 1500001 ++ Script.confirm 2 1 1 ++ Script.create 3 1500001) started
    [1500001] (fun _ k => k ≠ .pendingOrders)
    (fun c m => rests 4 (c.at [] World.empty.sets) &&
      ((c.world.db.intents.any fun i => i.Holds 1500001) && !m 1500001 .freeAmounts && !m 1500001 .pendingOrders))
    (by decide +kernel) (started_within (by decide)) (firstStarted_holders (by simp [seeded]))
    (.spawn 0 (.lifespan 1) :: tr₀) (Or.inr fun _ _ _ => rfl)
  simp only [Bool.and_eq_true, Bool.not_eq_true'] at htest
  refine ⟨tr₀, tr, _, _, h₀, rfl, hr.mono ?_, quiet_of_rests htest.1 hn.fresh, 1500001,
    by simp [seeded], ?_, ?_, by simpa using htest.2.1.1⟩
  · rintro c x c' ⟨hs, h⟩
    have hclean := of_decide_eq_true h
    exact ⟨hs, hclean.2, hclean.1⟩
  · exact fun h => by simpa [htest.2.1.2] using (hm _ (by simp) .freeAmounts).mpr h
  · exact fun h => by simpa [htest.2.2] using (hm _ (by simp) .pendingOrders).mpr h

/-! ## The range -/

/-- Every amount the pool and the rows handle is of the range. -/
structure Ranged (w : World) (past : List Label) : Prop where
  sets : ∀ k, ∀ a ∈ w.sets k, a ∈ seeded
  hand : ∀ p a, (stageOf p past).Takes a ∨ stageOf p past = .stored a → a ∈ seeded
  used : ∀ a, Used w a → a ∈ seeded

theorem Ranged.live (h : Ranged w past) (hL : Linked w past) (hl : Live w past a) : a ∈ seeded := by
  obtain ⟨o, i, hi, hh, -⟩ := hl
  cases o with
  | none => exact h.used a ⟨i, hi, hh.2⟩
  | some q =>
    refine h.hand q a (Or.inr ?_)
    rw [← hh.2]
    exact hL.inserted q i hi

/-- A move between two sets brings in no amount. -/
theorem mem_smove_of_mem {src dst k : SetKey} {m b : Amount} {S : Sets SetKey Amount}
    (hne : src ≠ dst) (h : b ∈ smove S src dst m k) : ∃ k', b ∈ S k' := by
  rw [mem_smove hne] at h
  split_ifs at h with hb
  · exact ⟨src, hb.1 ▸ hb.2⟩
  · exact ⟨k, h⟩

/-- **Step lemma** of the range. -/
theorem Ranged.step (h : Ranged w past) (hL : Linked w past) (hC : Consistent w) (hnf : NoFault past)
    (hw : system.WStep w x w') (hg : (logic boot).Guarded w past x w') : Ranged w' (past ++ [x]) := by
  have hused : ∀ a, Used w' a → a ∈ seeded := by
    intro a hu
    rcases used_from hL hC hw hu with hu | hl
    · exact h.used a hu
    · exact h.live hL hl
  rcases step_moves hw hg with ⟨hsets, hst⟩ | ⟨p, hp, hst, hm⟩
  · exact ⟨fun k => by rw [hsets]; exact h.sets k, fun q a => by rw [hst q]; exact h.hand q a, hused⟩
  · have hown := h.hand p
    generalize hs : stageOf p past = s at hm hown
    generalize hs' : stageOf p (past ++ [x]) = s' at hm
    have close : (∀ k, ∀ a ∈ w'.sets k, a ∈ seeded) →
        (∀ a, s'.Takes a ∨ s' = .stored a → a ∈ seeded) → Ranged w' (past ++ [x]) := by
      refine fun hsets hstage => ⟨hsets, fun q a hq => ?_, hused⟩
      by_cases hqp : q = p
      · subst hqp
        rw [hs'] at hq
        exact hstage a hq
      · rw [hst q hqp] at hq
        exact h.hand q a hq
    have same : w'.sets = w.sets → ∀ k, ∀ a ∈ w'.sets k, a ∈ seeded :=
      fun hsets k => by rw [hsets]; exact h.sets k
    have moved : ∀ {src dst b}, src ≠ dst → w'.sets = smove w.sets src dst b →
        ∀ k, ∀ a ∈ w'.sets k, a ∈ seeded := by
      intro src dst b hne hsets k a ha
      rw [hsets] at ha
      obtain ⟨k', hk'⟩ := mem_smove_of_mem hne ha
      exact h.sets k' a hk'
    have added : ∀ {k₀ as}, (∀ a ∈ as, a ∈ seeded) → w'.sets = sadd w.sets k₀ as →
        ∀ k, ∀ a ∈ w'.sets k, a ∈ seeded := by
      intro k₀ as has hsets k a ha
      rw [hsets] at ha
      by_cases hk : k = k₀
      · subst hk
        exact (mem_sadd.mp ha).elim (h.sets k a) (has a)
      · rw [sadd_other hk] at ha
        exact h.sets k a ha
    cases hm with
    | aside sets => exact close (same sets) hown
    | @pop b mem sets =>
      refine close ?_ (by simpa [Stage.Takes] using h.sets _ b mem)
      intro k a ha
      rw [sets] at ha
      by_cases hk : k = .freeAmounts
      · subst hk
        exact h.sets _ a (mem_spop.mp ha).2
      · rw [spop_other hk] at ha
        exact h.sets k a ha
    | reserve sets => exact close (moved (by decide) sets) (by simpa [Stage.Takes] using hown)
    | lose sets _ => exact close (same sets) (by simp)
    | giveBack sets => exact close (moved (by decide) sets) (by simpa [Stage.Takes] using hown)
    | @refund b sets =>
      exact close (added (by simpa [Stage.Takes] using hown b) sets) (by simp)
    | release _ sets => exact close (moved (by decide) sets) (by simp)
    | move _ sets => exact close (moved (by decide) sets) (by simp [Stage.Takes])
    | store sets inserts source =>
      rcases source with rfl | ⟨-, hf⟩
      · exact close (same sets) (by simpa [Stage.Takes] using hown)
      · exact absurd hf (hnf p)
    | settle sets => exact close (same sets) (by simp [Stage.Takes])
    | pay commit => exact close (same (by rw [commit, commit_sets])) (by simp [Stage.Takes])
    | close bound commit => exact close (same (by rw [commit, commit_sets])) (by simp)
    | rollback undone may => exact close (same (by rw [undone, rollback_sets])) (by simp)
    | seed hboot _ range sets => exact close (added range sets) hown
    | reread hboot _ rows sets =>
      refine close (added (fun a ha => h.used a ?_) sets) hown
      obtain ⟨i, hi, he⟩ := rows a ha
      exact ⟨i, hi, he⟩
    | clear hboot _ sets =>
      refine close ?_ hown
      intro k a ha
      rw [sets] at ha
      by_cases hk : k = .pendingOrders
      · subst hk
        simp [del] at ha
      · rw [del, Function.update_of_ne hk] at ha
        exact h.sets k a ha
    | rebuild hboot _ sets =>
      refine close ?_ hown
      intro k a ha
      rw [sets] at ha
      by_cases hk : k = .freeAmounts
      · subst hk
        rw [sdiffstore, Function.update_self] at ha
        exact h.sets _ a (Finset.mem_sdiff.mp ha).1
      · rw [sdiffstore, Function.update_of_ne hk] at ha
        exact h.sets k a ha

/-! ## The next startup -/

/-- What a startup makes of the pool of a quiet state. -/
theorem free_restarted (hR : ∀ a ∈ w.amounts, a ∈ seeded) :
    (∀ a, a ∈ restarted w .freeAmounts ↔ a ∈ seeded ∧ ∀ i ∈ w.db.intents, ¬ i.Holds a) ↔
      w.amounts = ∅ ∨ ∀ a ∈ seeded, a ∉ w.amounts → ∃ i ∈ w.db.intents, i.Holds a := by
  have hheld : ∀ a, a ∉ reserved w.db ↔ ∀ i ∈ w.db.intents, ¬ i.Holds a := fun a => by
    rw [mem_reserved]
    push Not
    rfl
  simp only [restarted, Finset.mem_sdiff, hheld]
  by_cases hempty : w.amounts = ∅
  · simp [seedOf, hempty, seeded]
  · rw [seedOf, if_neg hempty]
    constructor
    · intro h
      refine Or.inr fun a ha hna => ?_
      by_contra hno
      push Not at hno
      exact hna ((h a).mpr ⟨ha, hno⟩).1
    · rintro (h | h) a
      · exact absurd h hempty
      · refine and_congr_left fun hn => ⟨hR a, fun ha => ?_⟩
        by_contra hna
        obtain ⟨i, hi, hh⟩ := h a ha hna
        exact hn i hi hh

/-- **A restart recovers the pool** exactly when `amounts` is empty, or every amount of the range that
is missing from it is held by a PENDING intent. -/
theorem restart_recovers {w₀ : World} (hC : Consistent w₀) (hclosed : w₀.Closed)
    (hrows : w₀.db.intents = []) (hempty : ∀ k, w₀.sets k = ∅)
    (hr : Lts.Run (StepsIf (Unfailing True)) (.init w₀) tr c)
    {tr' : List Label} {fuel : ℕ} (hfuel : c.world.db.intents.length < fuel)
    (hstart : Lts.Run (Lts.restrict Steps (Alone p)) c (.spawn p (.lifespan fuel) :: tr') c')
    (hend : c'.thread p = .live (.ret .started)) :
    (∀ a, a ∈ c'.world.free ↔ a ∈ seeded ∧ ∀ i ∈ c'.world.db.intents, ¬ i.Holds a) ↔
      c.world.amounts = ∅ ∨
        ∀ a ∈ seeded, a ∉ c.world.amounts → ∃ i ∈ c.world.db.intents, i.Holds a := by
  obtain ⟨hH, hL, hR, -⟩ := (@sound True).derive (P := fun c x c' => x.Clean)
    (J := fun c => Linked c.world c.past ∧ Ranged c.world c.past ∧ NoFault c.past) hr
    (Holds.init hC fun _ => rfl)
    ⟨Linked.rest hclosed (fun _ => rfl) (by simp [Config.init, hrows]),
      ⟨by simp [Config.init, hempty], by simp [Config.init], by simp [Config.init, Used, hrows]⟩,
      by rintro q ⟨op, r, hm⟩; simp [Config.init] at hm⟩ (by
      rintro c x c' hC ⟨hL, hR, hnf⟩ hs hg hx
      obtain ⟨hw, hpast⟩ := hs.wstep
      rw [hpast]
      exact ⟨hL.step hC hw hg, hR.step hL hC hnf hw hg, hnf.step hx⟩)
  obtain ⟨hw, -⟩ := startup_ends (y := .ok .started) hH.inv hfuel hstart hend
  have hfree : c'.world.free = restarted c.world .freeAmounts := by rw [hw]; rfl
  have hdb : c'.world.db = c.world.db := by rw [hw]; rfl
  rw [hfree, hdb]
  exact free_restarted (hR.sets .amounts)

/-- Nothing fails; startups occur. -/
def unfailing : Check := .label fun x => x.Clean ∧ Outages True World.empty [] x World.empty

theorem unfailing_steps (h : unfailing.Steps c x c') : StepsIf (Unfailing True) c x c' := by
  have hx := of_decide_eq_true h.2
  exact ⟨h.1, hx.2, hx.1⟩

theorem unfailing_consistent {w₀ : World} (hC : Consistent w₀)
    (hr : Lts.Run (StepsIf (Unfailing True)) (.init w₀) tr c) : Consistent c.world :=
  ((@sound True).derive (P := fun _ x _ => x.Clean) (J := fun _ => True) hr
    (Holds.init hC fun _ => rfl) trivial fun _ _ _ _ _ _ _ _ => trivial).1.inv

theorem restart_recovers_sample : ∃ (tr tr' : List Label) (c c' : State),
    Lts.Run (StepsIf (Unfailing True)) (.init World.empty) tr c ∧
      Lts.Run (Lts.restrict Steps (Alone 2)) c (.spawn 2 (.lifespan 2) :: tr') c' ∧
      c'.thread 2 = .live (.ret .started) ∧ (∃ i ∈ c.world.db.intents, i.Holds 1500001) ∧
      ((∀ a, a ∈ c'.world.free ↔ a ∈ seeded ∧ ∀ i ∈ c'.world.db.intents, ¬ i.Holds a) ↔
        c.world.amounts = ∅ ∨
          ∀ a ∈ seeded, a ∉ c.world.amounts → ∃ i ∈ c.world.db.intents, i.Holds a) := by
  obtain ⟨tr₀, h₀⟩ := started_run
  obtain ⟨c, tr, s, m, htest, -, hn, hr⟩ := tracks_run 2 unfailing (Script.create 1 1500001) started
    [1500001] (fun _ k => k ≠ .pendingOrders)
    (fun c _ => c.world.db.intents.length = 1 && c.world.db.intents.any fun i => i.Holds 1500001)
    (by decide +kernel) (started_within (by decide)) (firstStarted_holders (by simp [seeded]))
    (.spawn 0 (.lifespan 1) :: tr₀) (Or.inr fun _ _ _ => rfl)
  simp only [Bool.and_eq_true, decide_eq_true_eq] at htest
  have hrun := (unfailing_of_alone h₀).append (hr.mono fun _ _ _ => unfailing_steps)
  have hfuel : c.world.db.intents.length < 2 := by omega
  obtain ⟨tr', hstart⟩ := startup_runs (unfailing_consistent Consistent.empty hrun)
    hfuel (hn.fresh 2 le_rfl)
  have hend := Function.update_self (f := c.thread) 2 (.live (.ret .started))
  exact ⟨_, tr', _, _, hrun, hstart, hend, by simpa using htest.2,
    restart_recovers Consistent.empty World.empty_closed rfl (fun _ => rfl) hrun hfuel hstart hend⟩

/-- An amount whose order was paid is lost to the next startup. -/
theorem restart_loses : ∃ (tr tr' : List Label) (c c' : State),
    Lts.Run (StepsIf (Unfailing True)) (.init World.empty) tr c ∧ c.Quiet ∧
      Lts.Run (Lts.restrict Steps (Alone 3)) c (.spawn 3 (.lifespan 2) :: tr') c' ∧
      c'.thread 3 = .live (.ret .started) ∧
      ∃ a ∈ seeded, a ∉ c'.world.free ∧ ∀ i ∈ c'.world.db.intents, ¬ i.Holds a := by
  obtain ⟨tr₀, h₀⟩ := started_run
  obtain ⟨c, tr, s, m, htest, hm, hn, hr⟩ := tracks_run 3 unfailing
    (Script.create 1 1500001 ++ Script.confirm 2 1 1) started
    [1500001, 1500002] (fun _ k => k ≠ .pendingOrders)
    (fun c m => (rests 3 (c.at [] World.empty.sets) && decide (c.world.db.intents.length = 1)) &&
      ((c.world.db.intents.all fun i => ¬ i.Holds 1500001) && !m 1500001 .amounts &&
        m 1500002 .amounts))
    (by decide +kernel) (started_within (by decide)) (firstStarted_holders (by simp [seeded]))
    (.spawn 0 (.lifespan 1) :: tr₀) (Or.inr fun _ _ _ => rfl)
  simp only [Bool.and_eq_true, decide_eq_true_eq, Bool.not_eq_true', List.all_eq_true] at htest
  obtain ⟨⟨hrest, hlen⟩, ⟨hnone, hgone⟩, hother⟩ := htest
  have hrun := (unfailing_of_alone h₀).append (hr.mono fun _ _ _ => unfailing_steps)
  have hfuel : c.world.db.intents.length < 2 := by omega
  obtain ⟨tr', hstart⟩ := startup_runs (unfailing_consistent Consistent.empty hrun)
    hfuel (hn.fresh 3 le_rfl)
  have hend := Function.update_self (f := c.thread) 3 (.live (.ret .started))
  refine ⟨_, tr', _, _, hrun, quiet_of_rests hrest hn.fresh, hstart, hend, 1500001, by simp [seeded],
    ?_, hnone⟩
  -- `amounts` is not empty, so the startup takes it as it is
  have hne : s .amounts ≠ ∅ := Finset.ne_empty_of_mem ((hm 1500002 (by simp) .amounts).mp hother)
  have hnot : 1500001 ∉ s .amounts := fun h => by
    simpa [hgone] using (hm 1500001 (by simp) .amounts).mpr h
  intro hmem
  have hmem : 1500001 ∈ seedOf 1500000 1550000 (s .amounts) \ reserved c.world.db := hmem
  rw [seedOf, if_neg hne] at hmem
  exact hnot (Finset.mem_sdiff.mp hmem).1

end Pool

end PaymentRecon
