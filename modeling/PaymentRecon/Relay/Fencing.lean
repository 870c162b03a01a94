import PaymentRecon.Play
import PaymentRecon.Relay.Claims

/-!
# Fencing — who may change an event

A lock is not checked again when a relay reports: a relay that is later than the lock timeout writes
over whatever happened since.  As long as no update of an event comes that late, the event is changed by
claims of stale locks, and by the relay whose lock it carries.
-/

namespace PaymentRecon

open Interleave Rely

namespace Relay

variable {p q : Pid} {w w' : World} {past : List Label} {a : Label} {id : Id} {t : ℕ}

/-- `p` claimed the event at `t`, and its update has not ended. -/
def Claims (p : Pid) (past : List Label) (t : ℕ) (id : Id) : Prop :=
  ∃ es, claimOf p past = .held t es ∧ ∃ e ∈ es, e.id = id

/-- The relay that claimed the event last. -/
def holder (id : Id) (past : List Label) : Option Pid :=
  past.foldl (fun h a => match a with
    | .run p _ (.claimEvents _ _ _) (.ok es) => if es.any fun e => e.id = id then some p else h
    | _ => h) none

/-- No update of the event is committed later than the lock timeout after its claim. -/
def OnTime (id : Id) : StepCond := fun w past a _ =>
  match a with
  | .run p f .commit _ => f ≠ .failed → (∃ x ∈ (w.txn p).writes, x.Touches id) →
      ∀ t, Claims p past t id → (w.clock : ℤ) ≤ t + lockTimeout
  | _ => True

/-! ## Claims, step by step -/

variable (id past a) in
theorem holder_append : holder id (past ++ [a]) = match a with
    | .run p _ (.claimEvents _ _ _) (.ok es) =>
      if es.any fun e => e.id = id then some p else holder id past
    | _ => holder id past := by
  simp only [holder, List.foldl_append, List.foldl_cons, List.foldl_nil]

theorem holder_claim {f : Fault} {s : ℤ} {l : ℕ} {es : List ClaimedEvent} (h : ∃ e ∈ es, e.id = id) :
    holder id (past ++ [.run p f (Op.claimEvents t s l) (.ok es)]) = some p := by
  rw [holder_append]
  exact if_pos (by simpa using h)

/-- The holder changes with a claim of the event only. -/
theorem holder_step : holder id (past ++ [a]) = holder id past ∨ ∃ p f t s l es,
    a = .run p f (Op.claimEvents t s l) (.ok es) ∧ ∃ e ∈ es, e.id = id := by
  cases a with
  | run p f op r =>
    cases op with
    | claimEvents t s l =>
      cases r with
      | ok es =>
        by_cases h : ∃ e ∈ es, e.id = id
        · exact Or.inr ⟨p, f, t, s, l, es, rfl, h⟩
        · left
          rw [holder_append]
          exact if_neg (by simpa using fun e he hid => h ⟨e, he, hid⟩)
      | error e => exact Or.inl (holder_append ..)
    | _ => exact Or.inl (holder_append ..)
  | _ => exact Or.inl (holder_append ..)

/-- A claim is a new one, or was there before. -/
theorem Claims.of_step (h : Claims p (past ++ [a]) t id) : Claims p past t id ∨ ∃ f s l es,
    a = .run p f (Op.claimEvents t s l) (.ok es) ∧ ∃ e ∈ es, e.id = id := by
  obtain ⟨es, hes, he⟩ := h
  rcases claim_of_step hes with hes | ⟨f, s, l, rfl⟩
  · exact Or.inl ⟨es, hes, he⟩
  · exact Or.inr ⟨f, s, l, es, rfl, he⟩

/-- What a relay claimed it keeps until its update ends. -/
theorem claimOf_step (hg : logic.Guarded w past a w') (hne : claimOf p past ≠ .none) :
    claimOf p (past ++ [a]) = claimOf p past ∨ claimOf p (past ++ [a]) = .over := by
  by_cases hp : a.pid = some p
  · cases a with
    | run q f op r =>
      obtain rfl : q = p := by simpa [Act.pid] using hp
      rw [claimOf_own]
      by_cases hq : Quiet op
      · exact Or.inl (Claim.next_quiet hq)
      · cases op with
        | claimEvents t s l => exact absurd (hg.2 q f _ r rfl).1 hne
        | commit => cases hs : claimOf q past <;> simp_all [Claim.next]
        | rollback => cases hs : claimOf q past <;> simp_all [Claim.next]
        | _ => exact absurd trivial hq
    | spawn q y => exact Or.inl track_spawn
    | crash q => exact Or.inl (by simp [claimOf, track, List.foldl_append])
    | outer y => simp [Act.pid] at hp
  · exact Or.inl (claimOf_other hp)

/-! ## The fence -/

/-- An event with a fresh claim carries its lock. -/
structure Fenced (id : Id) (w : World) (past : List Label) : Prop where
  outbox : OutboxOk w
  ids : EventIds w
  known : ∀ p t, Claims p past t id → ∃ e ∈ w.db.outbox, e.id = id
  writes : ∀ p, ∀ x ∈ (w.txn p).writes, x.Touches id →
    claimOf p past = .over ∨ ∃ t, Claims p past t id
  held : ∀ p t, Claims p past t id → (t : ℤ) + lockTimeout < w.clock ∨
    holder id past = some p ∧
      ∀ e ∈ w.db.outbox, e.id = id → e.status = .PROCESSING ∧ e.lockedAt = some t

/-- The relay whose update touches the event carries out what it claimed. -/
theorem Fenced.updater (h : Fenced id w past) {f : Fault} {r : Except Exc Unit}
    (hg : logic.Guarded w past (.run p f Op.commit r) w') (hf : f ≠ .failed) {x : Write}
    (hx : x ∈ (w.txn p).writes) (ht : x.Touches id)
    (hon : OnTime id w past (.run p f Op.commit r) w') : ∃ t, Claims p past t id ∧
      holder id past = some p ∧
        ∀ e ∈ w.db.outbox, e.id = id → e.status = .PROCESSING ∧ e.lockedAt = some t := by
  have hguard : claimOf p past ≠ .over := hg.2 p f Op.commit r rfl
  obtain ⟨t, hc⟩ := (h.writes p x hx ht).resolve_left hguard
  have hfresh := hon hf ⟨x, hx, ht⟩ t hc
  exact ⟨t, hc, (h.held p t hc).resolve_left (not_lt.mpr hfresh)⟩

/-- A lock that somebody takes over is stale. -/
theorem stale_of_claimable (hg : logic.Guarded w past a w') {f : Fault} {n : ℕ} {s : ℤ} {l : ℕ}
    {es : List ClaimedEvent} (ha : a = .run p f (Op.claimEvents n s l) (.ok es))
    {e : OutBoxOrderEvent} (hclaim : e.Claimable s) (hst : e.status = .PROCESSING)
    (hl : e.lockedAt = some t) : (t : ℤ) + lockTimeout < w.clock := by
  obtain ⟨-, hs, hn⟩ : claimOf p past = .none ∧ s = n - lockTimeout ∧ n ≤ w.clock :=
    hg.2 p f _ _ ha
  rcases hclaim with hp | ⟨-, t', ht', hlt⟩
  · rw [hp] at hst
    exact absurd hst (by decide)
  · obtain rfl : t = t' := by simpa [hl] using ht'
    have hn' : (n : ℤ) ≤ w.clock := Int.ofNat_le.mpr hn
    rw [hs] at hlt
    exact lt_of_lt_of_le (by omega) hn'

theorem Fenced.held_step (h : Fenced id w past) (hw : system.WStep w a w')
    (hg : logic.Guarded w past a w') (hon : OnTime id w past a w')
    (hc : Claims p (past ++ [a]) t id) : (t : ℤ) + lockTimeout < w'.clock ∨
      holder id (past ++ [a]) = some p ∧
        ∀ e ∈ w'.db.outbox, e.id = id → e.status = .PROCESSING ∧ e.lockedAt = some t := by
  have hclock : (w.clock : ℤ) ≤ w'.clock := Int.ofNat_le.mpr (wstep_clock hw)
  rcases hc.of_step with hold | ⟨f, s, l, es, rfl, hmem⟩
  · by_cases hstale : (t : ℤ) + lockTimeout < w.clock
    · exact Or.inl (lt_of_lt_of_le hstale hclock)
    obtain ⟨hholder, hrows⟩ := (h.held p t hold).resolve_left hstale
    refine Or.inr ⟨?_, ?_⟩
    · rcases (holder_step : holder id (past ++ [a]) = holder id past ∨ _) with hs | ⟨q, f, n, s, l, es, rfl, hmem⟩
      · rw [hs, hholder]
      · obtain ⟨sel, hsel, rfl, -⟩ := claimed_rows hw
        obtain ⟨_, hin, hid⟩ := hmem
        obtain ⟨e, he, rfl⟩ := List.mem_map.mp hin
        obtain ⟨hmem, hclaim, -⟩ := hsel.claimable e he
        obtain ⟨hst, hl⟩ := hrows e hmem hid
        exact absurd (stale_of_claimable hg rfl hclaim hst hl) hstale
    · intro e' he' hid
      rcases event_from h.ids h.outbox hw he' with ⟨e, he, hstep⟩ | ⟨q, e, he, hev⟩
      · obtain ⟨hst, hl⟩ := hrows e he (hstep.id.1.symm.trans hid)
        cases hstep with
        | stay => exact ⟨hst, hl⟩
        | claimed label _ hclaim =>
          exact absurd (stale_of_claimable hg label hclaim hst hl) hstale
        | @updated q f r x _ label hf hx htouch hev =>
          subst label
          rw [hev.id.symm.trans hid] at htouch
          obtain ⟨-, -, hq, -⟩ := h.updater hg hf hx htouch hon
          obtain rfl : q = p := by simpa [hholder] using hq.symm
          -- the update of `p` is over
          obtain ⟨es, hes, -⟩ := hc
          obtain ⟨es', hes', -⟩ := hold
          rw [claimOf_own, hes'] at hes
          simp [Claim.next] at hes
      · obtain ⟨e₀, he₀, hid₀⟩ := h.known p t hold
        have huniq := h.outbox.unique none (some q) e₀ e he₀ he (by rw [hid₀, ← hid, hev.id])
        exact absurd huniq.1 (by simp)
  · refine Or.inr ⟨holder_claim hmem, ?_⟩
    obtain ⟨sel, -, rfl, hout⟩ := claimed_rows hw
    intro e' he' hid
    rw [hout] at he'
    obtain ⟨e, -, rfl⟩ := List.mem_map.mp he'
    obtain ⟨_, hin, hid'⟩ := hmem
    obtain ⟨e₀, he₀, rfl⟩ := List.mem_map.mp hin
    have hin : e.id ∈ sel.map (·.id) := by
      have heq : e.id = id := by
        rw [← hid]
        split_ifs <;> rfl
      exact List.mem_map.mpr ⟨e₀, he₀, hid'.trans heq.symm⟩
    rw [if_pos hin]
    exact ⟨rfl, rfl⟩

/-- **Step lemma** of the fence. -/
theorem Fenced.step (h : Fenced id w past) (hw : system.WStep w a w')
    (hg : logic.Guarded w past a w') (hon : OnTime id w past a w') : Fenced id w' (past ++ [a]) := by
  refine ⟨h.outbox.step hw, h.ids.step h.outbox hw, ?_, ?_, fun p t hc => h.held_step hw hg hon hc⟩
  · intro p t hc
    have hrow : ∃ e ∈ w.db.outbox, e.id = id := by
      rcases hc.of_step with hold | ⟨f, s, l, es, rfl, hmem⟩
      · exact h.known p t hold
      · obtain ⟨sel, hsel, rfl, -⟩ := claimed_rows hw
        obtain ⟨_, hin, hid⟩ := hmem
        obtain ⟨e, he, rfl⟩ := List.mem_map.mp hin
        exact ⟨e, (hsel.claimable e he).1, hid⟩
    obtain ⟨e, he, hid⟩ := hrow
    obtain ⟨e', he', hid', -⟩ := wstep_outbox hw he
    exact ⟨e', he', hid'.trans hid⟩
  · intro p x hx ht
    have keep : ∀ {s : Claim}, claimOf p past = s → s ≠ .none →
        (s = .over ∨ ∃ t es, s = .held t es ∧ ∃ e ∈ es, e.id = id) →
        claimOf p (past ++ [a]) = .over ∨ ∃ t, Claims p (past ++ [a]) t id := by
      rintro s hs hne hcase
      rcases claimOf_step hg (p := p) (hs ▸ hne) with heq | hover
      · rcases hcase with rfl | ⟨t, es, rfl, he⟩
        · exact Or.inl (heq.trans hs)
        · exact Or.inr ⟨t, es, heq.trans hs, he⟩
      · exact Or.inl hover
    rcases wstep_writes hw hx with hx | ⟨f, op, r, r₀, rfl, hx⟩
    · rcases h.writes p x hx ht with hover | ⟨t, es, hes, he⟩
      · exact keep hover (by simp) (Or.inl rfl)
      · exact keep hes (by simp) (Or.inr ⟨t, es, rfl, he⟩)
    · have hlaw : Lawful p w past op := hg.2 p f op r rfl
      cases op with
      | publishEvents ids =>
        obtain rfl : x = .publish ids := by simpa [Op.flushed] using hx
        obtain ⟨t, es, hes, hall⟩ := hlaw
        obtain ⟨e, he, hid, -⟩ := hall id ht
        exact keep hes (by simp) (Or.inr ⟨t, es, rfl, e, he, hid⟩)
      | failEvents us =>
        obtain ⟨u, hu, rfl⟩ : ∃ u ∈ us, Write.eventError u = x := by simpa [Op.flushed] using hx
        obtain ⟨t, es, hes, hall⟩ := hlaw
        obtain ⟨⟨e, he, hid⟩, -⟩ := hall u hu
        exact keep hes (by simp) (Or.inr ⟨t, es, rfl, e, he, hid.trans ht⟩)
      | insertOrder _ _ _ | insertSms _ _ _ _ _ | flushPaid _ _ | insertEvent _ =>
        cases r₀ with
        | ok o =>
          simp only [Op.flushed, List.mem_cons, List.not_mem_nil, or_false] at hx
          rcases hx with rfl | rfl <;> exact ht.elim
        | error e => simp [Op.flushed] at hx
      | _ => simp [Op.flushed] at hx

/-! ## Runs -/

/-- The steps that may change the event `e`: a claim, of an event that is free or whose lock is stale,
and the update of the relay whose lock the event carries. -/
def MayChange (w : World) (past : List Label) (e : OutBoxOrderEvent) : Label → Prop
  | .run _ _ (.claimEvents _ _ _) _ => e.status = .PENDING ∨
      e.status = .PROCESSING ∧ ∃ t, e.lockedAt = some t ∧ (t : ℤ) + lockTimeout < w.clock
  | .run p _ .commit _ => e.status = .PROCESSING ∧
      ∃ t, e.lockedAt = some t ∧ Claims p past t e.id ∧ holder e.id past = some p
  | _ => False

theorem MayChange.unpublished {e : OutBoxOrderEvent} (h : MayChange w past e a) :
    e.status ≠ .PUBLISHED := by
  intro hpub
  cases a with
  | run p f op r =>
    cases op with
    | claimEvents t s l =>
      rcases h with hs | ⟨hs, -⟩ <;> exact absurd (hpub.symm.trans hs) (by decide)
    | commit => exact absurd (hpub.symm.trans h.1) (by decide)
    | _ => exact h
  | _ => exact h

theorem Fenced.change (h : Fenced id w past) (hw : system.WStep w a w')
    (hg : logic.Guarded w past a w') (hon : OnTime id w past a w') {e : OutBoxOrderEvent}
    (he : e ∈ w.db.outbox) (hid : e.id = id) : e ∈ w'.db.outbox ∨ MayChange w past e a := by
  obtain ⟨e', he', hstep⟩ := event_step h.ids hw he
  cases hstep with
  | stay => exact Or.inl he'
  | claimed label _ hclaim =>
    subst label
    refine Or.inr ?_
    rcases hclaim with hp | ⟨hst, t, ht, hlt⟩
    · exact Or.inl hp
    · exact Or.inr ⟨hst, t, ht, stale_of_claimable hg rfl (Or.inr ⟨hst, t, ht, hlt⟩) hst ht⟩
  | @updated p f r x _ label hf hx htouch hev =>
    subst label
    rw [hid] at htouch
    obtain ⟨t, hc, hholder, hrows⟩ := h.updater hg hf hx htouch hon
    obtain ⟨hst, hl⟩ := hrows e he hid
    exact Or.inr ⟨hst, t, hl, hid.symm ▸ hc, hid.symm ▸ hholder⟩

/-- The runs in which no update of the event is committed late. -/
abbrev OnTimeSteps (id : Id) : State → Label → State → Prop := StepsIf (OnTime id)

theorem fenced_run {w₀ : World} (hclosed : w₀.Closed) (hO : OutboxOk w₀)
    (hids : (w₀.db.outbox.map (·.id)).Nodup) {tr : List Label} {c : State}
    (hr : Lts.Run (OnTimeSteps id) (.init w₀) tr c) :
    logic.Holds c ∧ Fenced id c.world c.past := by
  have hnone : ∀ p t, ¬ Claims p [] t id := by
    rintro p t ⟨es, hes, -⟩
    exact absurd hes (by simp)
  refine sound.derive (P := fun c a c' => Allows (OnTime id) c a c')
    (J := fun c => Fenced id c.world c.past)
    (hr.mono fun _ _ _ h => ⟨h.1, trivial, h.2⟩) (Holds.init trivial fun _ => rfl) ?_ ?_
  · refine ⟨hO, .of_closed hclosed hids, fun p t h => absurd h (hnone p t), ?_,
      fun p t h => absurd h (hnone p t)⟩
    intro p x hx
    have hx' : x ∈ (w₀.txn p).writes := hx
    simp [hclosed p, Txn.empty] at hx'
  · intro c a c' _ hJ hs hg hon
    obtain ⟨hw, hpast⟩ := hs.wstep
    rw [hpast]
    exact hJ.step hw hg hon

/-- One more step of such a run. -/
theorem fenced_change {c c' : State} (h : logic.Holds c ∧ Fenced id c.world c.past)
    (hs : OnTimeSteps id c a c') {e : OutBoxOrderEvent} (he : e ∈ c.world.db.outbox)
    (hid : e.id = id) : e ∈ c'.world.db.outbox ∨ MayChange c.world c.past e a := by
  obtain ⟨hg, -⟩ := sound.step hs.1 trivial h.1
  exact h.2.change hs.1.wstep.1 hg hs.2 he hid

/-- **Fencing.**  As long as no update of an event is committed later than the lock timeout after the
claim it belongs to, a PUBLISHED event stays as it is, every change of the event is a claim of a stale
lock or the update of the holder of the lock, and of two relays with fresh claims one is the other. -/
theorem event_fenced {w₀ : World} (hclosed : w₀.Closed) (hO : OutboxOk w₀)
    (hids : (w₀.db.outbox.map (·.id)).Nodup) {tr : List Label} {c : State}
    (hr : Lts.Run (OnTimeSteps id) (.init w₀) tr c) :
    (∀ tr' c', Lts.Run (OnTimeSteps id) c tr' c' → ∀ e ∈ c.world.db.outbox, e.id = id →
      e.status = .PUBLISHED → e ∈ c'.world.db.outbox) ∧
    (∀ a c', OnTimeSteps id c a c' → ∀ e ∈ c.world.db.outbox, e.id = id →
      e ∈ c'.world.db.outbox ∨ MayChange c.world c.past e a) ∧
    ∀ p q s t, Claims p c.past s id → Claims q c.past t id →
      (c.world.clock : ℤ) ≤ s + lockTimeout → (c.world.clock : ℤ) ≤ t + lockTimeout → p = q := by
  have h := fenced_run hclosed hO hids hr
  refine ⟨?_, fun a c' hs e he hid => fenced_change h hs he hid, ?_⟩
  · intro tr' c' hr' e he hid hpub
    refine (hr'.invariant (fun c₁ tr₁ => Lts.Run (OnTimeSteps id) c tr₁ c₁ ∧
      e ∈ c₁.world.db.outbox) ⟨.nil, he⟩ ?_).2
    rintro tr₁ c₁ a c₂ - ⟨hr₁, he₁⟩ hs
    refine ⟨hr₁.snoc hs, ?_⟩
    exact (fenced_change (fenced_run hclosed hO hids (hr.append hr₁)) hs he₁ hid).resolve_right
      fun hm => hm.unpublished hpub
  · intro p q s t hp hq hs ht
    obtain ⟨hp', -⟩ := (h.2.held p s hp).resolve_left (not_lt.mpr hs)
    obtain ⟨hq', -⟩ := (h.2.held q t hq).resolve_left (not_lt.mpr ht)
    exact Option.some.inj (hp'.symm.trans hq')

/-- The updates of all events are committed in time. -/
def timely : Check where
  test w past a := match a with
    | .run p _ .commit _ => match claimOf p past with
      | .held t _ => (w.clock : ℤ) ≤ t + lockTimeout
      | _ => true
    | _ => true
  sets _ _ _ _ := rfl

theorem timely_steps {c c' : State} (h : timely.Steps c a c') : OnTimeSteps id c a c' := by
  obtain ⟨hs, htest⟩ := h
  refine ⟨hs, ?_⟩
  cases a with
  | run p f op r =>
    cases op with
    | commit =>
      rintro - - t ⟨es, hes, -⟩
      simpa [timely, hes] using htest
    | _ => trivial
  | _ => trivial

/-- The event 1 has this status. -/
def eventIs (s : EventStatus) (c : State) : Bool :=
  c.world.db.outbox.any fun e => e.id = 1 ∧ e.status = s

theorem eventIs_iff {s : EventStatus} {c : State} :
    eventIs s c = true ↔ ∃ e ∈ c.world.db.outbox, e.id = 1 ∧ e.status = s := by
  simp [eventIs]

/-- The relay 1 crashes, and the relay 2 takes its event over and publishes it. -/
theorem event_fenced_sample : ∃ (tr tr' : List Label) (c c' : State) (e : OutBoxOrderEvent),
    Lts.Run (OnTimeSteps 1) (.init World.empty) tr c ∧ Lts.Run (OnTimeSteps 1) c tr' c' ∧
      e ∈ c.world.db.outbox ∧ e.id = 1 ∧ e.status = .PUBLISHED ∧ e ∈ c'.world.db.outbox := by
  have hplay : visits 4 timely
      [(Script.webhook 0 1500001 ++ .spawn 1 .processOutboxEvent :: Move.goes 1 2 ++
          [.crash 1, .wait 300001] ++ Script.relay 2, eventIs .PUBLISHED),
        ((Script.relay 3).take 3, fun _ => true)] (.init World.empty) [] World.empty.sets = true := by
    decide +kernel
  obtain ⟨tr, c, hr, -, hpub, -, tr', c', hr', -⟩ :=
    visits_run hplay (Within.init 4 World.empty_closed)
  obtain ⟨e, he, hid, hst⟩ := eventIs_iff.mp hpub
  have hr := hr.mono fun _ _ _ h => (timely_steps h : OnTimeSteps 1 _ _ _)
  have hr' := hr'.mono fun _ _ _ h => (timely_steps h : OnTimeSteps 1 _ _ _)
  exact ⟨tr, tr', c, c', e, hr, hr', he, hid, hst,
    (event_fenced World.empty_closed OutboxOk.empty List.nodup_nil hr).1 tr' c' hr' e he hid hst⟩

/-- The commit of the session `p`. -/
def commitOf (p : Pid) : Label → Bool
  | .run q _ .commit _ => q = p
  | _ => false

/-- The event 1 is the relay 2's. -/
def takenOver (c : State) : Bool := holder 1 c.past = some 2

/-- A relay that is late takes back the event that the relay 2 published meanwhile. -/
theorem late_update : ∃ (tr : List Label) (c c' : State) (f : Fault) (r : Except Exc Unit),
    Lts.Run Steps (.init World.empty) tr c ∧ holder 1 c.past = some 2 ∧
      (∃ e ∈ c.world.db.outbox, e.id = 1 ∧ e.status = .PUBLISHED) ∧
      Steps c (.run 1 f Op.commit r) c' ∧
      ∃ e ∈ c'.world.db.outbox, e.id = 1 ∧ e.status = .PENDING := by
  have hplay : visits 3 (.label fun _ => true)
      [(Script.webhook 0 1500001 ++ .spawn 1 .processOutboxEvent :: Move.goes 1 3 ++
          [.fail 1 RedisError, .wait 300001] ++ Script.relay 2 ++ [.go 1 none],
          fun c => takenOver c && eventIs .PUBLISHED c),
        ([.go 1 none], fun c => eventIs .PENDING c && c.past.getLast?.any (commitOf 1))] (.init World.empty) [] World.empty.sets = true := by
    decide +kernel
  obtain ⟨tr, c, hr, -, htest, -, tr', c', hr', hlen, htest', -⟩ :=
    visits_run hplay (Within.init 3 World.empty_closed)
  obtain ⟨a, hs, -⟩ := hr'.step_of_length hlen
  have htest := (Bool.and_eq_true _ _).mp htest
  have htest' := (Bool.and_eq_true _ _).mp htest'
  have hlast := htest'.2
  rw [hs.wstep.2, List.getLast?_concat] at hlast
  simp only [Option.any_some, commitOf] at hlast
  split at hlast
  · rename_i p f r
    obtain rfl : p = 1 := of_decide_eq_true hlast
    exact ⟨tr, c, c', f, r, hr.of_restrict, of_decide_eq_true htest.1, eventIs_iff.mp htest.2, hs,
      eventIs_iff.mp htest'.1⟩
  · exact absurd hlast (by simp)

end Relay

end PaymentRecon
