import PaymentRecon.Pipeline.Attached
import PaymentRecon.Pipeline.Recoverable

/-!
# Attribution — which order a transfer can pay

The payload of a recorded transfer can be delivered as long as it is stored somewhere or a request in
flight has read it (`Live`); once that is over it never becomes live again (`Live.of_step`).  So a
transfer can only pay an order of its amount that was PENDING when the transfer was recorded, provided
that no order with its amount is created while the transfer is live and not attached.
-/

namespace PaymentRecon

open Interleave Streams

namespace Pipeline

variable {c c' : State} {a : Label} {t : Id}

/-- The payload of `t` can still reach the handler. -/
def Live (c : State) (t : Id) : Prop :=
  Stored c.world t ∨ ∃ p d, Carries t d ∧ Got p c.past d ∧ (c.thread p).Running

/-- Facts about threads and sessions that every run keeps. -/
structure Traced (c : State) : Prop where
  outboxOk : OutboxOk c.world
  fresh : ∀ p, c.thread p = .fresh → ∀ b ∈ c.past, b.pid ≠ some p
  reported : ∀ p u, Write.eventError u ∈ (c.world.txn p).writes →
    ∃ d, Known c.world u.id d ∧ Got p c.past d

theorem Traced.step (h : Traced c) (hs : Steps c a c') (hg : Allows logic.Guarded c a c') :
    Traced c' := by
  obtain ⟨hw, hpast⟩ := hs.wstep
  refine ⟨h.outboxOk.step hw, ?_, ?_⟩
  · intro p hp b hb
    obtain ⟨hfresh, hne⟩ := hs.fresh hp
    rw [hpast] at hb
    rcases List.mem_append.mp hb with hb | hb
    · exact h.fresh p hfresh b hb
    · exact List.mem_singleton.mp hb ▸ hne
  · intro p u hm
    rw [hpast]
    rcases wstep_eventError hw hm with hm | ⟨f, us, r, rfl, hu⟩
    · obtain ⟨d, hk, hgot⟩ := h.reported p u hm
      exact ⟨d, hk.step hw, hgot.mono⟩
    · obtain ⟨-, d, hk, hgot⟩ := hg.2 p f _ r rfl u hu
      exact ⟨d, hk.step hw, hgot.mono⟩

theorem Traced.init : Traced (.init World.empty) := by
  refine ⟨OutboxOk.empty, by simp [Config.init], ?_⟩
  intro p u hm
  simp [Config.init, World.empty, Txn.empty] at hm

/-! ## A payload that is not live stays so -/

/-- What a read answers was stored. -/
theorem gives_stored {w w' : World} {p : Pid} {f : Fault} {op : Op} {r : Except Exc op.Ret}
    (h : exec f p op w r w') {d : Json} (hd : Gives d op r) (ht : Carries t d) : Stored w t := by
  have hrun : op.run p w r w' := by
    rcases exec_cases h with hrun | ⟨-, e, -, rfl⟩ | ⟨-, r₀, -, e, -, rfl⟩
    · exact hrun
    · cases op <;> exact hd.elim
    · cases op <;> exact hd.elim
  cases op with
  | xreadgroup consumer count =>
    obtain ⟨rfl, -⟩ := hrun
    obtain ⟨e, he, hed⟩ := hd
    have hmem := List.mem_filter.mp (List.mem_of_mem_take he)
    exact Or.inr (Or.inl ⟨e, hmem.1, d, hed, ht, Or.inl (by simpa using hmem.2)⟩)
  | xclaim consumer minIdle id =>
    simp only [Op.run] at hrun
    split_ifs at hrun with hc
    · obtain ⟨rfl, -⟩ := hrun
      obtain ⟨e, he, hed⟩ := hd
      obtain ⟨hmem, hlo, hhi⟩ := Stream.mem_xrange.mp he
      obtain ⟨x, hx, hid, -⟩ := hc
      exact Or.inr (Or.inl ⟨e, hmem, d, hed, ht, Or.inr ⟨x, hx, hid.trans (le_antisymm hlo hhi)⟩⟩)
    · obtain ⟨rfl, -⟩ := hrun
      obtain ⟨e, he, -⟩ := hd
      simp at he
  | xrangeDead x =>
    obtain ⟨rfl, -⟩ := hrun
    obtain ⟨e, he, hed⟩ := hd
    exact Or.inr (Or.inr ⟨e, (Stream.mem_xrange.mp he).1, d, hed, ht⟩)
  | claimEvents now staleLock limit =>
    obtain ⟨sel, hsel, rfl, -⟩ := hrun
    obtain ⟨e, he, rfl⟩ := hd
    obtain ⟨e₀, he₀, rfl⟩ := List.mem_map.mp he
    obtain ⟨hmem, hclaim, -⟩ := hsel.claimable e₀ he₀
    exact Or.inl ⟨e₀, hmem, ht, hclaim.imp_right And.left⟩
  | _ => cases r <;> exact hd.elim

/-- Reading and claiming open no entry. -/
theorem open_of_wstep {w w' : World} (h : system.WStep w a w') {id : StreamId}
    (ho : w'.group.Open id) : w.group.Open id := by
  cases a with
  | spawn q r =>
    obtain rfl : w' = w := h
    exact ho
  | run q f op r =>
    rcases exec_effect h with ⟨r₀, heff⟩ | rfl
    · rw [heff.group] at ho
      cases op with
      | xreadgroup consumer count => exact Group.open_of_deliver ho
      | xclaim consumer minIdle id =>
        simp only [Op.groupAfter] at ho
        split_ifs at ho
        · exact Group.open_claim.mp ho
        · exact ho
      | xack id => exact Group.open_of_xack ho
      | _ => exact ho
    · exact ho
  | crash q =>
    obtain rfl : w' = w.rollback q := h
    exact ho
  | outer x =>
    obtain rfl : w' = w.tick x := h
    cases x
    exact ho

/-- An entry that a step appended carries a payload that the thread had read. -/
theorem appended_got {w w' : World} {past : List Label} (h : system.WStep w a w')
    (hg : logic.Guarded w past a w') {e : StreamId × Fields} {d : Json} (hd : e.2.data = some d)
    (he : e ∈ w'.main.entries ∧ e ∉ w.main.entries ∨ e ∈ w'.dead.entries ∧ e ∉ w.dead.entries) :
    ∃ p f op r, a = .run p f op r ∧ Got p past d := by
  have carried : ∀ {p : Pid} {g : Fields}, Carried p w past g → g.data = some d → Got p past d := by
    rintro p g ⟨d', hd', -, hgot⟩ hgd
    obtain rfl : d' = d := Option.some.inj (hd'.symm.trans hgd)
    exact hgot
  cases a with
  | spawn q r =>
    obtain rfl : w' = w := h
    exact he.elim (fun he => absurd he.1 he.2) fun he => absurd he.1 he.2
  | run q f op r =>
    refine ⟨q, f, op, r, rfl, ?_⟩
    rcases exec_effect h with ⟨r₀, heff⟩ | rfl
    · rw [heff.main, heff.dead] at he
      cases op with
      | xadd g =>
        rcases he with ⟨he, hnot⟩ | ⟨he, hnot⟩
        · obtain rfl := (Stream.mem_xadd.mp he).resolve_left hnot
          exact carried (hg.2 q f _ r rfl) hd
        · exact absurd he hnot
      | xaddDead g =>
        rcases he with ⟨he, hnot⟩ | ⟨he, hnot⟩
        · exact absurd he hnot
        · obtain rfl := (Stream.mem_xadd.mp he).resolve_left hnot
          exact carried (hg.2 q f _ r rfl).1 hd
      | moveDead g x =>
        rcases he with ⟨he, hnot⟩ | ⟨he, hnot⟩
        · obtain rfl := (Stream.mem_xadd.mp he).resolve_left hnot
          obtain ⟨g₀, rfl, hc, -⟩ := hg.2 q f _ r rfl
          exact carried hc hd
        · exact absurd (Stream.mem_xdel.mp he).1 hnot
      | _ => exact he.elim (fun he => absurd he.1 he.2) fun he => absurd he.1 he.2
    · exact he.elim (fun he => absurd he.1 he.2) fun he => absurd he.1 he.2
  | crash q =>
    obtain rfl : w' = w.rollback q := h
    exact he.elim (fun he => absurd he.1 he.2) fun he => absurd he.1 he.2
  | outer x =>
    obtain rfl : w' = w.tick x := h
    cases x
    exact he.elim (fun he => absurd he.1 he.2) fun he => absurd he.1 he.2

/-- **A payload that is not live stays so.** -/
theorem Live.of_step (hT : Traced c) (hP : Provenance c.world) (hs : Steps c a c')
    (hg : Allows logic.Guarded c a c') (hrec : ∃ r ∈ c.world.db.sms, r.id = t)
    (h : Live c' t) : Live c t := by
  obtain ⟨hw, hpast⟩ := hs.wstep
  have inFlight : ∀ p f op r d, a = .run p f op r → Carries t d → Got p c.past d → Live c t := by
    rintro p f op r d rfl hd hgot
    exact Or.inr ⟨p, d, hd, hgot, hs.mover⟩
  rcases h with (⟨e', he', hd, hst⟩ | ⟨e, he, d, hed, hd, hopen⟩ | ⟨e, he, d, hed, hd⟩) |
    ⟨p, d, hd, hgot, hrun⟩
  · rcases wstep_event hw he' with hmem | ⟨e, hmem, n, rfl, e₀, hmem₀, hid, hst₀⟩ |
      ⟨q, f, r, e, rfl, -, hmem, hev⟩
    · exact Or.inl (Or.inl ⟨e', hmem, hd, hst⟩)
    · have hdata : e₀.data = e.data := (hT.outboxOk.unique none none e₀ e hmem₀ hmem hid).2
      refine Or.inl (Or.inl ⟨e₀, hmem₀, ?_, hst₀⟩)
      rw [hdata]
      exact hd
    · rw [hev.data] at hd
      rcases hmem with hmem | hmem
      · rcases hev.status with rfl | ⟨hpub, -⟩ | ⟨u, hm, hu, -, -⟩
        · exact Or.inl (Or.inl ⟨e', hmem, hd, hst⟩)
        · rw [hpub] at hst
          exact absurd hst (by simp)
        · obtain ⟨d, hk, hgot⟩ := hT.reported q u hm
          rw [hu] at hk
          rw [known_data hT.outboxOk (o := none) hmem hk] at hd
          exact inFlight q f _ r d rfl hd hgot
      · -- the event would belong to an uncommitted transfer with the id `t`
        obtain ⟨s, traceId, hs', hdata⟩ := hP.flushed q e hmem
        obtain ⟨r, hr, hrid⟩ := hrec
        have hsid : s.id = t := by
          rw [hdata] at hd
          simpa [Carries] using hd
        have huniq := hP.consistent.sms.unique none (some q) r s hr hs' (Or.inl (hrid.trans hsid.symm))
        exact absurd huniq (by simp)
  · by_cases hmem : e ∈ c.world.main.entries
    · exact Or.inl (Or.inr (Or.inl ⟨e, hmem, d, hed, hd, open_of_wstep hw hopen⟩))
    · obtain ⟨p, f, op, r, ha, hgot⟩ := appended_got hw hg hed (Or.inl ⟨he, hmem⟩)
      exact inFlight p f op r d ha hd hgot
  · by_cases hmem : e ∈ c.world.dead.entries
    · exact Or.inl (Or.inr (Or.inr ⟨e, hmem, d, hed, hd⟩))
    · obtain ⟨p, f, op, r, ha, hgot⟩ := appended_got hw hg hed (Or.inr ⟨he, hmem⟩)
      exact inFlight p f op r d ha hd hgot
  · obtain ⟨f, op, r, hm, hgives⟩ := hgot
    rw [hpast] at hm
    rcases List.mem_append.mp hm with hm | hm
    · rcases hs.running hrun with hold | hfresh
      · exact Or.inr ⟨p, d, hd, ⟨f, op, r, hm, hgives⟩, hold⟩
      · exact absurd rfl (hT.fresh p hfresh _ hm)
    · obtain rfl := List.mem_singleton.mp hm
      exact Or.inl (gives_stored hw hgives hd)

/-! ## Orders that a transfer can pay -/

/-- No order with the amount of a live transfer that is not attached is committed. -/
def NoLiveTransfer (c : State) (a : Label) (_ : State) : Prop :=
  ∀ p f r, a = .run p f Op.commit r → f ≠ .failed → ∀ i, Write.insIntent i ∈ (c.world.txn p).writes →
    ∀ s ∈ c.world.db.sms, s.smsAmount = i.exactAmount → Live c s.id →
      ∃ k ∈ c.world.db.intents, k.smsTransactionId = some s.id

/-- The transfer `t` of the amount `m` pays, or can still pay, orders in `Old` only. -/
structure Attributed (t : Id) (m : Amount) (Old : Id → Prop) (c : State) : Prop where
  recorded : ∃ s ∈ c.world.db.sms, s.id = t ∧ s.smsAmount = m
  attached : ∀ i ∈ c.world.db.intents, i.smsTransactionId = some t → Old i.id
  flying : ∀ p id, Write.payIntent id (some t) ∈ (c.world.txn p).writes → Old id
  candidates : (∀ k ∈ c.world.db.intents, k.smsTransactionId ≠ some t) → Live c t →
    ∀ i ∈ c.world.db.intents, i.Holds m → Old i.id

variable {m : Amount} {Old : Id → Prop}

/-- A transfer has one amount. -/
theorem sms_eq {w : World} (h : Consistent w) {r s : SMSTransaction} (hr : r ∈ w.db.sms)
    (hs : s ∈ w.db.sms) (hid : r.id = s.id) : r = s :=
  List.inj_on_of_nodup_map h.sms.ids hr hs hid

theorem Attributed.attached_step (h : Attributed t m Old c) (hP : Provenance c.world)
    (hs : Steps c a c') {j : PaymentIntent} (hj : j ∈ c'.world.db.intents)
    (ht : j.smsTransactionId = some t) : Old j.id := by
  rcases wstep_intent hs.wstep.1 hj with hj | ⟨q, f, r, i, -, -, hi, he⟩
  · exact h.attached j hj ht
  · rw [he.id]
    rcases he.sms with hsame | ⟨n, hn, hjn, -⟩
    · rcases hi with hi | hi
      · exact h.attached i hi (hsame ▸ ht)
      · have hnone := (hP.consistent.intents.new q i hi).2
        rw [← hsame, ht] at hnone
        exact absurd hnone (by simp)
    · obtain rfl : n = t := by simpa [hjn] using ht
      exact h.flying q _ hn

theorem Attributed.flying_step (h : Attributed t m Old c) (hP : Provenance c.world)
    (hP' : Consistent c'.world) (hA : AttachedOk c.world) (hs : Steps c a c')
    (hg : Allows logic.Guarded c a c') {p : Pid} {id : Id}
    (hx : Write.payIntent id (some t) ∈ (c'.world.txn p).writes) : Old id := by
  have hw := hs.wstep.1
  rcases wstep_payIntent hw hx with hold | ⟨f, i, r, rfl, rfl⟩
  · exact h.flying p id hold
  · obtain ⟨hheld, -, hr⟩ := lawful_flushPaid (hg.2 p f _ r rfl)
    obtain ⟨s, hs', hsid, hholds, traceId, hgot⟩ := hr t rfl
    obtain ⟨s', hs'', hsid', hm⟩ := h.recorded
    obtain rfl := sms_eq hP.consistent hs' hs'' (hsid.trans hsid'.symm)
    refine h.candidates ?_ ?_ i hheld.1 (hm ▸ hholds)
    · -- an attached transfer would settle the row that it is attached to
      intro k hk hkt
      have hk' := hA.stays hP.consistent hw hk hkt
      have hid := hP'.settled.cross p i.id t hx k hk' hkt
      rw [hP.consistent.intent_eq hk hheld.1 hid] at hkt
      have hpaid := hP.consistent.settled.paid i hheld.1 t hkt
      rw [hholds.1] at hpaid
      exact absurd hpaid (by decide)
    · refine Or.inr ⟨p, _, ?_, hgot, hs.mover⟩
      show Carries t (transactionData s.id traceId s.smsAmount)
      rw [hsid]
      rfl

theorem Attributed.step (h : Attributed t m Old c) (hT : Traced c) (hP : Provenance c.world)
    (hP' : Consistent c'.world) (hA : AttachedOk c.world) (hs : Steps c a c')
    (hg : Allows logic.Guarded c a c') (hn : NoLiveTransfer c a c') :
    Attributed t m Old c' := by
  have hw := hs.wstep.1
  obtain ⟨s, hs', rfl, rfl⟩ := h.recorded
  refine ⟨⟨s, wstep_sms hw hs', rfl, rfl⟩, fun j hj ht => h.attached_step hP hs hj ht,
    fun p id hx => h.flying_step hP hP' hA hs hg hx, ?_⟩
  intro hun hlive j hj hholds
  have hun' : ∀ k ∈ c.world.db.intents, k.smsTransactionId ≠ some s.id :=
    fun k hk hkt => hun k (hA.stays hP.consistent hw hk hkt) hkt
  have hlive' : Live c s.id := Live.of_step hT hP hs hg ⟨s, hs', rfl⟩ hlive
  rcases wstep_intent hw hj with hj | ⟨q, f, r, i, rfl, hf, hi, he⟩
  · exact h.candidates hun' hlive' j hj hholds
  · have hih := he.holds hholds
    rw [he.id]
    rcases hi with hi | hi
    · exact h.candidates hun' hlive' i hi hih
    · -- a new order: the condition on commits
      obtain ⟨k, hk, hkt⟩ := hn q f r rfl hf i hi s hs' hih.2.symm hlive'
      exact absurd hkt (hun' k hk)

/-- At the moment a transfer is recorded, the orders it can pay are those of its amount. -/
theorem Attributed.start {r : SMSTransaction} (hP : Provenance c.world)
    (hs : Steps c a c') (hg : Allows logic.Guarded c a c')
    (hnew : ∀ s ∈ c.world.db.sms, s.id ≠ r.id) (hr : r ∈ c'.world.db.sms) :
    Attributed r.id r.smsAmount
      (fun id => ∃ k ∈ c'.world.db.intents, k.id = id ∧ k.Holds r.smsAmount) c' := by
  have hw := hs.wstep.1
  have hunknown : ∀ {n : Id}, (∃ s ∈ c.world.db.sms, s.id = n) → n ≠ r.id := by
    rintro n ⟨s, hs, rfl⟩
    exact hnew s hs
  refine ⟨⟨r, hr, rfl, rfl⟩, ?_, ?_, fun _ _ i hi hholds => ⟨i, hi, rfl, hholds⟩⟩
  · intro j hj ht
    rcases wstep_intent hw hj with hj | ⟨q, f, r', i, -, -, hi, he⟩
    · exact absurd rfl (hunknown (hP.consistent.settled.known j hj _ ht))
    · rcases he.sms with hsame | ⟨n, hn, hjn, -⟩
      · rcases hi with hi | hi
        · exact absurd rfl (hunknown (hP.consistent.settled.known i hi _ (hsame ▸ ht)))
        · have hnone := (hP.consistent.intents.new q i hi).2
          rw [← hsame, ht] at hnone
          exact absurd hnone (by simp)
      · obtain rfl : n = r.id := by simpa [hjn] using ht
        exact absurd rfl (hunknown (hP.consistent.settled.flyingKnown q _ _ hn))
  · intro p id hx
    rcases wstep_payIntent hw hx with hx | ⟨f, i, r', rfl, -⟩
    · exact absurd rfl (hunknown (hP.consistent.settled.flyingKnown p _ _ hx))
    · obtain ⟨-, -, hr'⟩ := lawful_flushPaid (hg.2 p f _ r' rfl)
      obtain ⟨s, hs', hsid, -⟩ := hr' r.id rfl
      exact absurd hsid (hnew s hs')

/-- The steps of runs in which no order meets a live transfer of its amount. -/
abbrev AttributedSteps : State → Label → State → Prop :=
  Lts.restrict Steps fun c a c' => Allows ByStream c a c' ∧ NoLiveTransfer c a c'

/-- **No misattributed transfer.**  Where no order is committed with the amount of a live transfer that
is not attached, an order that a transfer paid was PENDING with its amount when it was recorded. -/
theorem paid_order_was_pending {c₁ c₂ c : State} {b : Label} {tr₁ tr₂ : List Label}
    (h₁ : Lts.Run AttributedSteps (.init World.empty) tr₁ c₁) (hb : AttributedSteps c₁ b c₂)
    (h₂ : Lts.Run AttributedSteps c₂ tr₂ c) {t : Id} (hnew : ∀ r ∈ c₁.world.db.sms, r.id ≠ t)
    (hrec : ∃ r ∈ c₂.world.db.sms, r.id = t) {i : PaymentIntent} (hi : i ∈ c.world.db.intents)
    (ht : i.smsTransactionId = some t) :
    ∃ k ∈ c₂.world.db.intents, k.id = i.id ∧ k.Holds i.exactAmount := by
  have hstep : ∀ c a c', Provenance c.world → (Traced c ∧ AttachedOk c.world) → Steps c a c' →
      Allows logic.Guarded c a c' → NoLiveTransfer c a c' → Traced c' ∧ AttachedOk c'.world :=
    fun c a c' hP hJ hs hg _ =>
      ⟨hJ.1.step hs hg, hJ.2.step hP.consistent hs.wstep.1 hg⟩
  obtain ⟨hH₁, hT₁, hA₁⟩ := lawful_run Provenance.empty h₁ ⟨Traced.init, AttachedOk.empty⟩ hstep
  obtain ⟨hg, hH₂⟩ := sound.step hb.1 hb.2.1 hH₁
  obtain ⟨hT₂, hA₂⟩ := hstep _ _ _ hH₁.1 ⟨hT₁, hA₁⟩ hb.1 hg hb.2.2
  obtain ⟨r, hr, rfl⟩ := hrec
  have hatt := Attributed.start hH₁.1 hb.1 hg hnew hr
  have hrun := h₂.inv (fun c => logic.Holds c ∧ (Traced c ∧ AttachedOk c.world) ∧
    Attributed r.id r.smsAmount
      (fun id => ∃ k ∈ c₂.world.db.intents, k.id = id ∧ k.Holds r.smsAmount) c)
    ⟨hH₂, ⟨hT₂, hA₂⟩, hatt⟩ ?_
  · obtain ⟨hH, ⟨-, hA⟩, hatt'⟩ := hrun
    obtain ⟨k, hk, hkid, hholds⟩ := hatt'.attached i hi ht
    obtain ⟨s, hs, hsid, hexact⟩ := hA.attached i hi _ ht
    obtain ⟨s', hs', hsid', hm⟩ := hatt'.recorded
    obtain rfl := sms_eq hH.1.consistent hs hs' (hsid.trans hsid'.symm)
    exact ⟨k, hk, hkid, by rw [hexact, hm]; exact hholds⟩
  · rintro c a c' ⟨hH, hJ, hatt⟩ ⟨hs, hc, hn⟩
    obtain ⟨hg, hH'⟩ := sound.step hs hc hH
    exact ⟨hH', hstep _ _ _ hH.1 hJ hs hg hn,
      hatt.step hJ.1 hH.1 hH'.1.consistent hJ.2 hs hg hn⟩

/-- `ByStream`, and no order is committed with the amount of a recorded transfer. -/
def unrecorded : Check where
  test w past a := byStream.test w past a && match a with
    | .run p _ .commit _ => (w.txn p).writes.all fun x => match x with
      | .insIntent i => w.db.sms.all fun s => s.smsAmount ≠ i.exactAmount
      | _ => true
    | _ => true
  sets _ _ _ _ := rfl

theorem unrecorded_steps (h : unrecorded.Steps c a c') : AttributedSteps c a c' := by
  obtain ⟨hs, htest⟩ := h
  have htest := (Bool.and_eq_true _ _).mp htest
  refine ⟨hs, (byStream_steps ⟨hs, htest.1⟩).2, ?_⟩
  rintro p f r rfl - i hi s hs' ham
  have hall := List.all_eq_true.mp htest.2 _ hi
  have hne := List.all_eq_true.mp hall s hs'
  simp [ham] at hne

/-- Some intent is paid by the transfer `t`. -/
def paidBy (t : Id) (c : State) : Bool :=
  c.world.db.intents.any fun i => i.smsTransactionId = some t

theorem paid_order_was_pending_sample : ∃ (c₁ c₂ c : State) (b : Label) (tr₁ tr₂ : List Label),
    Lts.Run AttributedSteps (.init World.empty) tr₁ c₁ ∧ AttributedSteps c₁ b c₂ ∧
      Lts.Run AttributedSteps c₂ tr₂ c ∧ (∀ r ∈ c₁.world.db.sms, r.id ≠ 1) ∧
      (∃ r ∈ c₂.world.db.sms, r.id = 1) ∧ ∃ i ∈ c.world.db.intents, i.smsTransactionId = some 1 ∧
        ∃ k ∈ c₂.world.db.intents, k.id = i.id ∧ k.Holds i.exactAmount := by
  have hplay : visits 4 unrecorded
      [(Script.createDown 0 1500001 ++ (Script.webhook 1 1500001).dropLast,
          fun c => c.world.db.sms.isEmpty),
        ([.go 1 none], fun c => c.world.db.sms.any fun r => r.id = 1),
        (Script.relay 2 ++ Script.pay 3, paidBy 1)] (.init World.empty) [] World.empty.sets = true := by
    decide +kernel
  obtain ⟨tr₁, c₁, h₁, -, hnew, -, trb, c₂, hb, hlen, hrec, -, tr₂, c, h₂, -, hpaid, -⟩ :=
    visits_run hplay (Within.init 4 World.empty_closed)
  obtain ⟨b, hb⟩ := hb.step_of_length hlen
  have hnew : ∀ r ∈ c₁.world.db.sms, r.id ≠ 1 := by
    rw [List.isEmpty_iff.mp hnew]
    simp
  have hrec : ∃ r ∈ c₂.world.db.sms, r.id = 1 := by simpa using hrec
  obtain ⟨i, hi, ht⟩ : ∃ i ∈ c.world.db.intents, i.smsTransactionId = some 1 := by
    simpa [paidBy] using hpaid
  have h₁ := h₁.mono fun _ _ _ => unrecorded_steps
  have hb := unrecorded_steps hb
  have h₂ := h₂.mono fun _ _ _ => unrecorded_steps
  exact ⟨c₁, c₂, c, b, tr₁, tr₂, h₁, hb, h₂, hnew, hrec, i, hi, ht,
    paid_order_was_pending h₁ hb h₂ hnew hrec hi ht⟩

/-- A transfer that was recorded before any order existed pays an order. -/
theorem late_order_paid : ∃ (c₁ c₂ c : State) (b : Label) (tr₁ tr₂ : List Label),
    Lts.Run (StepsIf ByStream) (.init World.empty) tr₁ c₁ ∧ StepsIf ByStream c₁ b c₂ ∧
      Lts.Run (StepsIf ByStream) c₂ tr₂ c ∧ (∀ r ∈ c₁.world.db.sms, r.id ≠ 1) ∧
      (∃ r ∈ c₂.world.db.sms, r.id = 1) ∧ c₂.world.db.intents = [] ∧
      ∃ i ∈ c.world.db.intents, i.smsTransactionId = some 1 := by
  have hplay : visits 4 byStream
      [((Script.webhook 0 1500001).dropLast, fun c => c.world.db.sms.isEmpty),
        ([.go 0 none], fun c => (c.world.db.sms.any fun r => r.id = 1) && c.world.db.intents.isEmpty),
        (Script.createDown 1 1500001 ++ Script.relay 2 ++ Script.pay 3, paidBy 1)]
      (.init World.empty) [] World.empty.sets = true := by
    decide +kernel
  obtain ⟨tr₁, c₁, h₁, -, hnew, -, trb, c₂, hb, hlen, hrec, -, tr₂, c, h₂, -, hpaid, -⟩ :=
    visits_run hplay (Within.init 4 World.empty_closed)
  obtain ⟨b, hb⟩ := hb.step_of_length hlen
  have hrec := (Bool.and_eq_true _ _).mp hrec
  refine ⟨c₁, c₂, c, b, tr₁, tr₂, h₁.mono fun _ _ _ => byStream_steps, byStream_steps hb,
    h₂.mono fun _ _ _ => byStream_steps, ?_, by simpa using hrec.1, List.isEmpty_iff.mp hrec.2,
    by simpa [paidBy] using hpaid⟩
  rw [List.isEmpty_iff.mp hnew]
  simp

end Pipeline

end PaymentRecon
