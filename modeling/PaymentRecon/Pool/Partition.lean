import PaymentRecon.Pool.Exclusion

/-!
# Partition — every amount of the range is in one place

As long as no amount is stored a second time, an amount of the range that leaves `free_amounts` comes to
`pending_orders` and returns from there.  `Placed` says where one amount is in terms of the stages and of
the rows; with no request in flight only the two sets are left.
-/

namespace PaymentRecon

open Interleave Rely SetStore

namespace Pool

variable {boot : Prop} {p q : Pid} {w w' : World} {past : List Label} {a : Amount} {x : Label}

/-- A committed intent, of any status, has the amount. -/
def Used (w : World) (a : Amount) : Prop := ∃ i ∈ w.db.intents, i.exactAmount = a

structure Placed (w : World) (past : List Label) (a : Amount) : Prop where
  somewhere : a ∈ w.free ∨ (∃ p, (stageOf p past).Takes a) ∨ a ∈ w.pending
  reason : a ∈ w.pending → (∃ p, stageOf p past = .reserved a ∧ ¬ Used w a) ∨ Live w past a ∨
    ∃ p, stageOf p past = .paid a
  live : Live w past a → a ∈ w.pending
  paid : ∀ p, stageOf p past = .paid a → a ∈ w.pending ∧ Used w a
  fresh : ¬ Used w a → (a ∈ w.free ∨ ∃ p, stageOf p past = .popped a ∨ stageOf p past = .returning a) →
    a ∈ w.amounts
  reserved : ¬ Used w a → ∀ p, stageOf p past = .reserved a → a ∈ w.pending
  apart : a ∈ w.amounts → a ∉ w.pending ∧ ¬ Used w a

/-! ## What steps do to the rows -/

theorem used_mono (hw : system.WStep w x w') (h : Used w a) : Used w' a := by
  obtain ⟨i, hi, ha⟩ := h
  obtain ⟨q, hq, -⟩ := wstep_tableStep (p := 0) hw
  obtain ⟨j, hj, -, hja⟩ := hq.intent_mono hi
  exact ⟨j, hj, hja.trans ha⟩

/-- A flushed row is live. -/
theorem Linked.flushed_live (h : Linked w past) (hC : Consistent w) {i : PaymentIntent}
    (hm : Write.insIntent i ∈ (w.txn p).writes) : Live w past i.exactAmount := by
  have hi : w.Row (some p) i := hm
  refine ⟨some p, i, hi, ⟨(hC.intents.new p i hi).1, rfl⟩, ?_⟩
  intro q j hq hid
  obtain ⟨hj, -⟩ := h.settling q j (Or.inr hq)
  exact absurd (hC.intents.unique none (some p) j i hj hi hid) (by simp)

/-- An amount comes into use by the commit of a live row. -/
theorem used_from (hL : Linked w past) (hC : Consistent w) (hw : system.WStep w x w')
    (h : Used w' a) : Used w a ∨ Live w past a := by
  obtain ⟨j, hj, rfl⟩ := h
  rcases wstep_intent hw hj with hold | ⟨q, -, -, i, -, -, hi | hi, he⟩
  · exact Or.inl ⟨j, hold, rfl⟩
  · exact Or.inl ⟨i, hi, he.exact.symm⟩
  · rw [he.exact]
    exact Or.inr (hL.flushed_live hC hi)

/-- An amount is moved right after its intent was matched. -/
theorem moved_from (hw : system.WStep w x w') (hg : (logic boot).Guarded w past x w')
    {i : PaymentIntent} (h : stageOf q (past ++ [x]) = .moved i) :
    stageOf q past = .moved i ∨ stageOf q past = .matched i := by
  rcases step_moves hw hg with ⟨-, hst⟩ | ⟨p, -, hst, hm⟩
  · exact Or.inl (hst q ▸ h)
  · by_cases hq : q = p
    · subst hq
      rw [h] at hm
      generalize stageOf q past = s at hm
      cases hm <;> first
        | exact Or.inl rfl
        | exact Or.inr rfl
    · exact Or.inl (hst q hq ▸ h)

/-- A flushed row stays, flushed or committed. -/
theorem flushed_stays (hL : Linked w past) (hw : system.WStep w x w')
    (hg : (logic boot).Guarded w past x w') {i : PaymentIntent}
    (hm : Write.insIntent i ∈ (w.txn q).writes) :
    ∃ o j, w'.Row o j ∧ j.id = i.id ∧ ∀ a, i.Holds a → j.Holds a := by
  have hst := hL.inserted q i hm
  cases x with
  | spawn p y =>
    obtain rfl : w' = w := hw
    exact ⟨some q, i, hm, rfl, fun _ h => h⟩
  | crash p => exact hg.1.elim
  | outer y =>
    obtain rfl : w' = w.tick y := hw
    cases y
    exact ⟨some q, i, hm, rfl, fun _ h => h⟩
  | run p f op r =>
    by_cases hq : q = p
    · subst hq
      by_cases hcommit : op = .commit
      · subst hcommit
        obtain ⟨-, rfl⟩ := outage_run hw hg.1 id
        obtain ⟨j, hj, he⟩ := Db.commit_inserts w.db hm
        refine ⟨none, j, hj, he.id, fun a ha => ⟨?_, he.exact.trans ha.2⟩⟩
        -- the session that inserts the row does not pay it
        rcases he.status with hs | ⟨-, t, ht⟩
        · exact hs.trans ha.1
        · obtain ⟨k, -, hk⟩ := hL.paying q _ _ ht
          rcases hk with hk | hk <;> rw [hst] at hk <;> exact absurd hk (by simp)
      · by_cases hroll : op = .rollback
        · subst hroll
          have hmay : MayRollBack q past := hg.2 q f _ r rfl
          exact absurd (Or.inl ⟨_, hst⟩) hmay.1
        · refine ⟨some q, i, ?_, rfl, fun _ h => h⟩
          show Write.insIntent i ∈ (w'.txn q).writes
          rw [outage_writes hw hg.1]
          exact writesAfter_mono hcommit hroll hm
    · refine ⟨some q, i, ?_, rfl, fun _ h => h⟩
      show Write.insIntent i ∈ (w'.txn q).writes
      rw [(exec_tableStep hw).others hq]
      exact hm

/-- A live amount stays live until it is moved or its row is paid. -/
theorem live_stays (hL : Linked w past) (hC : Consistent w) (hw : system.WStep w x w')
    (hg : (logic boot).Guarded w past x w') (hl : Live w past a) :
    Live w' (past ++ [x]) a ∨ ∃ p i, i.exactAmount = a ∧ stageOf p past = .matched i ∧
      (stageOf p (past ++ [x]) = .moved i ∨ stageOf p (past ++ [x]) = .paid a) := by
  obtain ⟨o, i, hi, hh, hne⟩ := hl
  by_cases hset : ∃ q, stageOf q past = .matched i ∧
      (stageOf q (past ++ [x]) = .moved i ∨ stageOf q (past ++ [x]) = .paid a)
  · obtain ⟨q, hq, hq'⟩ := hset
    exact Or.inr ⟨q, i, hh.2, hq, hq'⟩
  · refine Or.inl ?_
    -- the row is still there, and nobody moved its amount
    have hmoved : ∀ q j, stageOf q (past ++ [x]) = .moved j → j.id ≠ i.id := by
      intro q j hj hid
      rcases moved_from hw hg hj with hold | hold
      · exact hne q j hold hid
      · obtain ⟨hmem, -⟩ := hL.settling q j (Or.inl hold)
        have ho := hC.intents.unique o none i j hi hmem hid.symm
        subst ho
        obtain rfl := hC.intent_eq hmem hi hid
        exact hset ⟨q, hold, Or.inl hj⟩
    have hrow : ∃ o' j, w'.Row o' j ∧ j.id = i.id ∧ j.Holds a := by
      cases o with
      | some q =>
        obtain ⟨o', j, hj, hid, hjh⟩ := flushed_stays hL hw hg hi
        exact ⟨o', j, hj, hid, hjh a hh⟩
      | none =>
        have hmem : i ∈ w.db.intents := hi
        obtain ⟨q, hq, -⟩ := wstep_tableStep (p := 0) hw
        rcases hq.settles with heq | ⟨hdb, hsess⟩
        · have hmem' : i ∈ w'.db.intents := heq ▸ hmem
          exact ⟨none, i, hmem', rfl, hh⟩
        · by_cases hpay : ∃ t, Write.payIntent i.id t ∈ (w.txn q).writes
          · obtain ⟨t, ht⟩ := hpay
            obtain ⟨j, hid, hj⟩ := hL.paying q _ _ ht
            obtain ⟨hjmem, -⟩ := hL.settling q j hj
            obtain rfl := hC.intent_eq hjmem hmem hid
            have hmatched : stageOf q past = .matched j := hj.resolve_right fun hj => hne q j hj rfl
            -- the session that pays the row is over, so its request went on
            have hover : ∀ k, ¬ (stageOf q (past ++ [x])).Settles k := by
              intro k hk
              obtain ⟨-, -, t', ht'⟩ := (hL.step hC hw hg).settling q k hk
              rw [hsess.writes] at ht'
              simp at ht'
            rcases step_moves hw hg with ⟨-, hst⟩ | ⟨p, -, hst, hm⟩
            · exact absurd (Or.inl ((hst q).trans hmatched)) (hover j)
            · have hqp : q = p := by
                by_contra hqp
                exact hover j (Or.inl ((hst q hqp).trans hmatched))
              subst hqp
              generalize hs' : stageOf q (past ++ [x]) = s' at hm
              rw [hmatched] at hm
              rw [hs'] at hover
              cases hm with
              | pay commit => exact absurd ⟨q, hmatched, Or.inr (hs'.trans (by rw [hh.2]))⟩ hset
              | move _ sets => exact absurd (Or.inr rfl) (hover j)
              | close bound commit => simp [Stage.Bound] at bound
              | rollback undone may =>
                have hmem' : j ∈ w'.db.intents := by rw [undone]; exact hmem
                exact ⟨none, j, hmem', rfl, hh⟩
              | store sets inserts source => simp at source
              | _ => exact absurd (Or.inl rfl) (hover j)
          · refine ⟨none, i, ?_, rfl, hh⟩
            show i ∈ w'.db.intents
            rw [hdb]
            exact Db.commit_unpaid hmem fun t ht => hpay ⟨t, ht⟩
    obtain ⟨o', j, hj, hid, hjh⟩ := hrow
    exact ⟨o', j, hj, hjh, fun q k hk => hid ▸ hmoved q k hk⟩

/-! ## What steps do to the place of an amount -/

/-- What concerns other amounts only keeps an amount where it is. -/
theorem Placed.keep (h : Placed w past a) (hsets : ∀ k, a ∈ w'.sets k ↔ a ∈ w.sets k)
    (hstage : ∀ q, (stageOf q (past ++ [x])).Owns a ∨ (stageOf q past).Owns a →
      stageOf q (past ++ [x]) = stageOf q past)
    (hlive : Live w' (past ++ [x]) a ↔ Live w past a) (hused : Used w a → Used w' a)
    (hused' : Used w' a → Used w a ∨ Live w past a) : Placed w' (past ++ [x]) a := by
  have back : ∀ q s, s.Owns a → stageOf q (past ++ [x]) = s → stageOf q past = s :=
    fun q s hs hq => by rw [← hstage q (Or.inl (hq ▸ hs)), hq]
  have forth : ∀ q s, s.Owns a → stageOf q past = s → stageOf q (past ++ [x]) = s :=
    fun q s hs hq => by rw [hstage q (Or.inr (hq ▸ hs)), hq]
  have hp : a ∈ w'.pending ↔ a ∈ w.pending := hsets .pendingOrders
  have hf : a ∈ w'.free ↔ a ∈ w.free := hsets .freeAmounts
  have ha : a ∈ w'.amounts ↔ a ∈ w.amounts := hsets .amounts
  constructor
  · rcases h.somewhere with hfree | ⟨q, hq⟩ | hpend
    · exact Or.inl (hf.mpr hfree)
    · exact Or.inr (Or.inl ⟨q, by rw [hstage q (Or.inr (Or.inl hq))]; exact hq⟩)
    · exact Or.inr (Or.inr (hp.mpr hpend))
  · intro hpend
    rcases h.reason (hp.mp hpend) with ⟨q, hq, hnu⟩ | hl | ⟨q, hq⟩
    · by_cases hu : Used w' a
      · rcases hused' hu with hu | hl
        · exact absurd hu hnu
        · exact Or.inr (Or.inl (hlive.mpr hl))
      · exact Or.inl ⟨q, forth q _ (by simp) hq, hu⟩
    · exact Or.inr (Or.inl (hlive.mpr hl))
    · exact Or.inr (Or.inr ⟨q, forth q _ (by simp) hq⟩)
  · intro hl
    exact hp.mpr (h.live (hlive.mp hl))
  · intro q hq
    obtain ⟨hpend, hu⟩ := h.paid q (back q _ (by simp) hq)
    exact ⟨hp.mpr hpend, hused hu⟩
  · intro hnu hor
    refine ha.mpr (h.fresh (fun hu => hnu (hused hu)) ?_)
    rcases hor with hfree | ⟨q, hq | hq⟩
    · exact Or.inl (hf.mp hfree)
    · exact Or.inr ⟨q, Or.inl (back q _ (by simp) hq)⟩
    · exact Or.inr ⟨q, Or.inr (back q _ (by simp) hq)⟩
  · intro hnu q hq
    exact hp.mpr (h.reserved (fun hu => hnu (hused hu)) q (back q _ (by simp) hq))
  · intro hamt
    obtain ⟨hnp, hnu⟩ := h.apart (ha.mp hamt)
    refine ⟨fun hpend => hnp (hp.mp hpend), fun hu => ?_⟩
    rcases hused' hu with hu | hl
    · exact hnu hu
    · exact hnp (h.live hl)

/-- An order is stored with an amount that no committed intent ever had. -/
def FirstUse : StepCond := fun w _ x _ =>
  match x with
  | .run _ _ (.insertOrder _ _ a) (.ok _) => ¬ Used w a
  | _ => True

theorem FirstUse.of_inserts (h : FirstUse w past x w') (hins : Inserts a x) : ¬ Used w a := by
  obtain ⟨q, f, u, m, o, rfl⟩ := hins.inv
  exact h

/-- An amount in the hand of one request only. -/
theorem Placed.inHand (ht : (stageOf p past).Takes a) (honly : ∀ q, (stageOf q past).Owns a → q = p)
    (hnl : ¬ Live w past a) (hfree : a ∉ w.free)
    (hpend : a ∈ w.pending → stageOf p past = .reserved a ∧ ¬ Used w a)
    (hres : ¬ Used w a → stageOf p past = .reserved a → a ∈ w.pending)
    (hfresh : ¬ Used w a → stageOf p past ≠ .reserved a → a ∈ w.amounts)
    (hapart : a ∈ w.amounts → a ∉ w.pending ∧ ¬ Used w a) : Placed w past a := by
  constructor
  · exact Or.inr (Or.inl ⟨p, ht⟩)
  · intro ha
    exact Or.inl ⟨p, hpend ha⟩
  · exact fun hl => absurd hl hnl
  · intro q hq
    obtain rfl := honly q (Or.inr hq)
    rw [hq] at ht
    simp [Stage.Takes] at ht
  · rintro hnu (hf | ⟨q, hq⟩)
    · exact absurd hf hfree
    · have ho : (stageOf q past).Owns a := by rcases hq with hq | hq <;> rw [hq] <;> simp
      obtain rfl := honly q ho
      refine hfresh hnu ?_
      rcases hq with hq | hq <;> rw [hq] <;> simp
  · intro hnu q hq
    obtain rfl := honly q (by rw [hq]; simp)
    exact hres hnu hq
  · exact hapart

/-- An amount in the pool that no request handles. -/
theorem Placed.pooled (hfree : a ∈ w.free) (hnone : ∀ q, ¬ (stageOf q past).Owns a)
    (hnl : ¬ Live w past a) (hpend : a ∉ w.pending) (hamt : a ∈ w.amounts ↔ ¬ Used w a) :
    Placed w past a := by
  constructor
  · exact Or.inl hfree
  · exact fun ha => absurd ha hpend
  · exact fun hl => absurd hl hnl
  · exact fun q hq => absurd (Or.inr hq) (hnone q)
  · exact fun hnu _ => hamt.mpr hnu
  · exact fun _ q hq => absurd (by rw [hq]; simp) (hnone q)
  · exact fun ha => ⟨hpend, hamt.mp ha⟩

/-- An amount that was used returns to the pool. -/
theorem Placed.released (sets : w'.sets = smove w.sets .pendingOrders .freeAmounts a)
    (hpend : a ∈ w.pending) (hamt : a ∉ w.amounts) (hu : Used w' a)
    (hnone : ∀ q, ¬ (stageOf q past).Owns a) (hnl : ¬ Live w' past a) : Placed w' past a := by
  refine .pooled ?_ hnone hnl ?_ ⟨?_, fun hnu => absurd hu hnu⟩
  · rw [World.free, sets, mem_smove (by decide), if_pos ⟨rfl, hpend⟩]
    exact Or.inl rfl
  · rw [World.pending, sets, mem_smove (by decide), if_pos ⟨rfl, hpend⟩]
    simp
  · intro ha
    rw [World.amounts, sets, smove_other (by decide) (by decide)] at ha
    exact absurd ha hamt

/-- Nothing happens to the amount. -/
theorem Placed.other (h : Placed w past a) (hL : Linked w past) (hC : Consistent w)
    (hw : system.WStep w x w') (hg : (logic boot).Guarded w past x w')
    (hsets : ∀ k, a ∈ w'.sets k ↔ a ∈ w.sets k)
    (hstage : ∀ q, (stageOf q (past ++ [x])).Owns a ∨ (stageOf q past).Owns a →
      stageOf q (past ++ [x]) = stageOf q past)
    (hins : ¬ Inserts a x) (hmatched : ∀ q i, i.exactAmount = a → stageOf q past = .matched i →
      stageOf q (past ++ [x]) ≠ .moved i ∧ stageOf q (past ++ [x]) ≠ .paid a) :
    Placed w' (past ++ [x]) a := by
  refine h.keep hsets hstage ⟨?_, ?_⟩ (used_mono hw) (used_from hL hC hw)
  · intro hl
    rcases live_step hL hC hw hg hl with hl | hb
    · exact hl
    · exact absurd hb hins
  · intro hl
    rcases live_stays hL hC hw hg hl with hl | ⟨q, i, hi, hq, hq'⟩
    · exact hl
    · exact hq'.elim (fun h => absurd h (hmatched q i hi hq).1)
        fun h => absurd h (hmatched q i hi hq).2

/-- A stored order makes its amount live. -/
theorem inserts_live (hL' : Linked w' (past ++ [x])) (hC' : Consistent w') (hw : system.WStep w x w')
    (hg : (logic boot).Guarded w past x w') (hins : Inserts a x) : Live w' (past ++ [x]) a := by
  obtain ⟨q, f, u, m, o, rfl⟩ := hins.inv
  have hm : Write.insIntent (w.newIntent m a) ∈ (w'.txn q).writes := by
    rw [outage_writes hw hg.1]
    simp [Op.writesAfter, Op.flushed]
  exact hL'.flushed_live hC' hm

/-- An amount that one request at most has in hand, and that is not live, is pending only on the
account of that request. -/
theorem Placed.notPending (h : Placed w past a) (hnl : ¬ Live w past a)
    (honly : ∀ q, (stageOf q past).Owns a → q = p)
    (hres : stageOf p past = .reserved a → Used w a) (hpaid : stageOf p past ≠ .paid a) :
    a ∉ w.pending := by
  intro hp
  rcases h.reason hp with ⟨q, hq, hnu⟩ | hl | ⟨q, hq⟩
  · obtain rfl := honly q (by rw [hq]; simp)
    exact hnu (hres hq)
  · exact hnl hl
  · obtain rfl := honly q (by rw [hq]; simp)
    exact hpaid hq

/-- **Step lemma** of the partition. -/
theorem Placed.step (h : Placed w past a) (hE : Exclusive w past a)
    (hE' : Exclusive w' (past ++ [x]) a) (hL : Linked w past) (hC : Consistent w) (ha : a ≠ 0)
    (hnf : ∀ p, ¬ Faulted p past) (hclean : x.Clean)
    (hw : system.WStep w x w') (hg : (logic False).Guarded w past x w')
    (hfirst : FirstUse w past x w') : Placed w' (past ++ [x]) a := by
  have hused := used_mono (a := a) hw
  have hused' := used_from (a := a) hL hC hw
  rcases step_moves hw hg with ⟨hsets, hst⟩ | ⟨p, hp, hst, hm⟩
  · refine h.other hL hC hw hg (fun k => by rw [hsets]) (fun q _ => hst q) ?_ ?_
    · intro hins
      cases x with
      | run p f op r =>
        have hstage := inserts_stage hg rfl hins
        rw [hst p] at hstage
        exact hstage.2 hstage.1
      | _ => exact hins
    · intro q i _ hq
      rw [hst q, hq]
      simp
  · have hL' : Linked w' (past ++ [x]) := hL.step hC hw hg
    have hC' : Consistent w' := by
      obtain ⟨q, hq, -⟩ := wstep_tableStep (p := 0) hw
      exact hC.tableStep hq
    have hins := fun (hb : Inserts a x) => inserts_stage hg hp hb
    generalize hs : stageOf p past = s at hm hins
    generalize hs' : stageOf p (past ++ [x]) = s' at hm hins
    -- what keeps the amount where it is
    have keep : (∀ k, a ∈ w'.sets k ↔ a ∈ w.sets k) → (s'.Owns a ∨ s.Owns a → s' = s) →
        (s' = .stored a → s = .stored a) →
        (∀ i, i.exactAmount = a → s = .matched i → s' ≠ .moved i ∧ s' ≠ .paid a) →
        Placed w' (past ++ [x]) a := by
      intro hsets hown hstored hmatched
      refine h.other hL hC hw hg hsets ?_ (fun hb => (hins hb).2 (hstored (hins hb).1)) ?_
      · intro q hq
        by_cases hqp : q = p
        · subst hqp
          rw [hs, hs'] at hq ⊢
          exact hown hq
        · exact hst q hqp
      · intro q i hi hq
        by_cases hqp : q = p
        · subst hqp
          rw [hs] at hq
          rw [hs']
          exact hmatched i hi hq
        · rw [hst q hqp, hq]
          simp
    -- unless an order is stored, no amount becomes live
    have hlive : (s' = .stored a → s = .stored a) → ¬ Live w past a → ¬ Live w' (past ++ [x]) a := by
      intro hss hnl hl
      rcases live_step hL hC hw hg hl with hl | hb
      · exact hnl hl
      · exact (hins hb).2 (hss (hins hb).1)
    have hunused : ¬ Live w past a → ¬ Used w a → ¬ Used w' a := by
      intro hnl hnu hu
      rcases hused' hu with hu | hl
      · exact hnu hu
      · exact hnl hl
    -- a request that owned the amount alone still does, or gave it up
    have only : (∀ q, (stageOf q past).Owns a → q = p) →
        ∀ q, (stageOf q (past ++ [x])).Owns a → q = p := by
      intro honly q ho
      by_contra hq
      rw [hst q hq] at ho
      exact hq (honly q ho)
    have none : (∀ q, (stageOf q past).Owns a → q = p) → ¬ s'.Owns a →
        ∀ q, ¬ (stageOf q (past ++ [x])).Owns a := by
      intro honly hno q ho
      obtain rfl := only honly q ho
      exact hno (hs' ▸ ho)
    cases hm with
    | aside sets =>
      exact keep (fun k => by rw [sets]) (fun _ => rfl) id (by rintro i - rfl; simp)
    | @pop b mem sets =>
      have hset : ∀ k, k ≠ .freeAmounts → w'.sets k = w.sets k := fun k hk => by
        rw [sets, spop_other hk]
      by_cases hab : b = a
      · subst hab
        obtain ⟨hnl, hno⟩ := hE.free mem
        have honly : ∀ q, (stageOf q past).Owns b → q = p := fun q ho => absurd ho (hno q)
        have hpend : b ∉ w'.pending := by
          rw [World.pending, hset _ (by decide)]
          exact h.notPending hnl honly (by rw [hs]; simp) (by rw [hs]; simp)
        refine .inHand (p := p) (by rw [hs']; exact Or.inl rfl) (only honly) (hlive (by simp) hnl) ?_
          (fun hb => absurd hb hpend) (by rw [hs']; simp) ?_ ?_
        · rw [World.free, sets, mem_spop]
          simp
        · intro hnu _
          rw [World.amounts, hset _ (by decide)]
          exact h.fresh (fun hu => hnu (hused hu)) (Or.inl mem)
        · intro hb
          rw [World.amounts, hset _ (by decide)] at hb
          exact ⟨hpend, hunused hnl (h.apart hb).2⟩
      · refine keep ?_ (by simp [hab]) (by simp) (by simp)
        intro k
        by_cases hk : k = .freeAmounts
        · subst hk
          rw [sets, mem_spop]
          simp [Ne.symm hab]
        · rw [hset k hk]
    | @reserve b sets =>
      by_cases hab : b = a
      · subst hab
        obtain ⟨hnl, honly⟩ := hE.taken p (by rw [hs]; exact Or.inl rfl)
        have hpend : b ∉ w.pending := h.notPending hnl honly (by rw [hs]; simp) (by rw [hs]; simp)
        have hfree : b ∉ w'.free := by
          rw [World.free, sets, smove_other (by decide) (by decide)]
          exact fun hb => (hE.free hb).2 p (by rw [hs]; simp)
        have hnl' := hlive (by simp) hnl
        by_cases hu : Used w b
        · -- an amount that was used before is no member of `amounts`: the command does nothing
          have hamt : b ∉ w.amounts := fun hb => (h.apart hb).2 hu
          rw [smove_of_notMem (s := w.sets) hamt] at sets
          refine .inHand (p := p) (by rw [hs']; exact Or.inr (Or.inl rfl)) (only honly) hnl' hfree
            ?_ (fun hnu => absurd (hused hu) hnu) (fun hnu => absurd (hused hu) hnu) ?_
          · intro hb
            rw [World.pending, sets] at hb
            exact absurd hb hpend
          · intro hb
            rw [World.amounts, sets] at hb
            exact absurd hb hamt
        · have hamt : b ∈ w.amounts := h.fresh hu (Or.inr ⟨p, Or.inl hs⟩)
          have hnu' : ¬ Used w' b := hunused hnl hu
          refine .inHand (p := p) (by rw [hs']; exact Or.inr (Or.inl rfl)) (only honly) hnl' hfree
            (fun _ => ⟨hs', hnu'⟩) ?_ (fun _ hne => absurd hs' hne) ?_
          · intro _ _
            rw [World.pending, sets, mem_smove (by decide), if_pos ⟨rfl, hamt⟩]
            exact Or.inl rfl
          · intro hb
            rw [World.amounts, sets, mem_smove (by decide), if_pos ⟨rfl, hamt⟩] at hb
            simp at hb
      · refine keep (fun k => ?_) (by simp [hab]) (by simp) (by simp)
        rw [sets, mem_smove_of_ne (Ne.symm hab)]
    | lose sets fault => exact absurd hclean fault
    | @giveBack b sets =>
      by_cases hab : b = a
      · subst hab
        obtain ⟨hnl, honly⟩ := hE.taken p (by rw [hs]; exact Or.inr (Or.inl rfl))
        have hfree : b ∉ w'.free := by
          rw [World.free, sets, smove_other (by decide) (by decide)]
          exact fun hb => (hE.free hb).2 p (by rw [hs]; simp)
        have hnl' := hlive (by simp) hnl
        by_cases hu : Used w b
        · have hpend : b ∉ w.pending := h.notPending hnl honly (fun _ => hu) (by rw [hs]; simp)
          have hamt : b ∉ w.amounts := fun hb => (h.apart hb).2 hu
          rw [smove_of_notMem (s := w.sets) hpend] at sets
          refine .inHand (p := p) (by rw [hs']; exact Or.inr (Or.inr rfl)) (only honly) hnl' hfree
            ?_ (fun hnu => absurd (hused hu) hnu) (fun hnu => absurd (hused hu) hnu) ?_
          · intro hb
            rw [World.pending, sets] at hb
            exact absurd hb hpend
          · intro hb
            rw [World.amounts, sets] at hb
            exact absurd hb hamt
        · have hpend : b ∈ w.pending := h.reserved hu p hs
          have hpend' : b ∉ w'.pending := by
            rw [World.pending, sets, mem_smove (by decide), if_pos ⟨rfl, hpend⟩]
            simp
          refine .inHand (p := p) (by rw [hs']; exact Or.inr (Or.inr rfl)) (only honly) hnl' hfree
            (fun hb => absurd hb hpend') (by rw [hs']; simp) ?_ fun _ => ⟨hpend', hunused hnl hu⟩
          intro _ _
          rw [World.amounts, sets, mem_smove (by decide), if_pos ⟨rfl, hpend⟩]
          exact Or.inl rfl
      · refine keep (fun k => ?_) (by simp [hab]) (by simp) (by simp)
        rw [sets, mem_smove_of_ne (Ne.symm hab)]
    | @refund b sets =>
      by_cases hab : b = a
      · subst hab
        obtain ⟨hnl, honly⟩ := hE.taken p (by rw [hs]; exact Or.inr (Or.inr rfl))
        have hpend : b ∉ w.pending := h.notPending hnl honly (by rw [hs]; simp) (by rw [hs]; simp)
        refine .pooled ?_ (none honly (by simp)) (hlive (by simp) hnl) ?_ ⟨?_, ?_⟩
        · simp [World.free, sets]
        · rw [World.pending, sets, sadd_other (by decide)]
          exact hpend
        · intro hb
          rw [World.amounts, sets, sadd_other (by decide)] at hb
          exact hunused hnl (h.apart hb).2
        · intro hnu
          rw [World.amounts, sets, sadd_other (by decide)]
          exact h.fresh (fun hu => hnu (hused hu)) (Or.inr ⟨p, Or.inr hs⟩)
      · refine keep ?_ (by simp [hab]) (by simp) (by simp)
        intro k
        by_cases hk : k = .freeAmounts
        · subst hk
          rw [sets, mem_sadd]
          simp [Ne.symm hab]
        · rw [sets, sadd_other hk]
    | @release b _ sets =>
      by_cases hab : b = a
      · subst hab
        obtain ⟨hpend, hu⟩ := h.paid p hs
        obtain ⟨hnl, honly⟩ := hE.paid p hs hpend
        exact .released sets hpend (fun hb => (h.apart hb).1 hpend) (hused hu)
          (none honly (by simp)) (hlive (by simp) hnl)
      · refine keep (fun k => ?_) (by simp [hab]) (by simp) (by simp)
        rw [sets, mem_smove_of_ne (Ne.symm hab)]
    | @move i _ sets =>
      by_cases hab : i.exactAmount = a
      · subst hab
        have hpend := h.live (hL.live hC hs)
        have hu : Used w i.exactAmount := ⟨i, (hL.settling p i (Or.inl hs)).1, rfl⟩
        have hfree : i.exactAmount ∈ w'.free := by
          rw [World.free, sets, mem_smove (by decide), if_pos ⟨rfl, hpend⟩]
          exact Or.inl rfl
        obtain ⟨hnl', hno'⟩ := hE'.free hfree
        exact .released sets hpend (fun hb => (h.apart hb).1 hpend) (hused hu) hno' hnl'
      · refine keep (fun k => ?_) (by simp) (by simp) ?_
        · rw [sets, mem_smove_of_ne (Ne.symm hab)]
        · rintro j hj hij
          simp only [Stage.matched.injEq] at hij
          exact absurd (hij ▸ hj) hab
    | @store _ b sets inserts source =>
      rcases source with rfl | ⟨-, hf⟩
      · by_cases hab : b = a
        · subst hab
          have hnu : ¬ Used w b := hfirst.of_inserts inserts
          obtain ⟨hnl, honly⟩ := hE.taken p (by rw [hs]; exact Or.inr (Or.inl rfl))
          have hno := none honly (by simp)
          have hpend : b ∈ w'.pending := by
            rw [World.pending, sets]
            exact h.reserved hnu p hs
          have hl' : Live w' (past ++ [x]) b := inserts_live hL' hC' hw hg inserts
          constructor
          · exact Or.inr (Or.inr hpend)
          · exact fun _ => Or.inr (Or.inl hl')
          · exact fun _ => hpend
          · exact fun q hq => absurd (by rw [hq]; simp) (hno q)
          · rintro - (hf | ⟨q, hq | hq⟩)
            · exact absurd hl' (hE'.free hf).1
            · exact absurd (by rw [hq]; simp) (hno q)
            · exact absurd (by rw [hq]; simp) (hno q)
          · exact fun _ q hq => absurd (by rw [hq]; simp) (hno q)
          · intro hb
            rw [World.amounts, sets] at hb
            exact absurd (h.reserved hnu p hs) (h.apart hb).1
        · exact keep (fun k => by rw [sets]) (by simp [hab]) (by simp [hab]) (by simp)
      · exact absurd hf (hnf p)
    | settle sets =>
      exact keep (fun k => by rw [sets]) (by simp) (by simp) (by simp)
    | @pay i commit =>
      have sets : w'.sets = w.sets := by rw [commit, commit_sets]
      by_cases hab : i.exactAmount = a
      · subst hab
        have hpend := h.live (hL.live hC hs)
        have hu : Used w' i.exactAmount := hused ⟨i, (hL.settling p i (Or.inl hs)).1, rfl⟩
        have hpend' : i.exactAmount ∈ w'.pending := by rw [World.pending, sets]; exact hpend
        constructor
        · exact Or.inr (Or.inr hpend')
        · exact fun _ => Or.inr (Or.inr ⟨p, hs'⟩)
        · exact fun _ => hpend'
        · exact fun _ _ => ⟨hpend', hu⟩
        · exact fun hnu _ => absurd hu hnu
        · exact fun hnu _ _ => absurd hu hnu
        · intro hb
          rw [World.amounts, sets] at hb
          exact absurd hpend (h.apart hb).1
      · exact keep (fun k => by rw [sets]) (by simp [hab]) (by simp) (by simp [hab])
    | close bound commit =>
      refine keep (fun k => by rw [commit, commit_sets]) ?_ (by simp) (by simp)
      rcases bound with ⟨b, rfl⟩ | ⟨i, rfl⟩ <;> simp
    | rollback undone may =>
      refine keep (fun k => by rw [undone, rollback_sets]) ?_ (by simp) (by simp)
      rintro (ho | ho)
      · simp at ho
      · rcases may.2 a (hs.symm ▸ ho) with ⟨h0, -⟩ | hf
        · exact absurd h0 ha
        · exact absurd hf (hnf p)
    | seed hboot => exact hboot.elim
    | reread hboot => exact hboot.elim
    | clear hboot => exact hboot.elim
    | rebuild hboot => exact hboot.elim

end Pool

end PaymentRecon
