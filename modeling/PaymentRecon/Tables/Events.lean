import PaymentRecon.Tables.Growth

/-!
# Events — ids identify outbox events

The same for `outbox_order_event` as for the other tables: an event is committed or flushed by a
session, its id is below the sequence, and events with one id are one event.
-/

namespace PaymentRecon

open Interleave Streams

variable {p : Pid} {w w' : World} {a : Label}

/-- An event that is committed, or flushed by the session given. -/
def World.EventRow (w : World) : Option Pid → OutBoxOrderEvent → Prop
  | none, e => e ∈ w.db.outbox
  | some p, e => Write.insEvent e ∈ (w.txn p).writes

structure OutboxOk (w : World) : Prop where
  bound : ∀ o e, w.EventRow o e → e.id < w.db.nextEvent
  unique : ∀ o o' e e', w.EventRow o e → w.EventRow o' e' → e.id = e'.id →
    o = o' ∧ e.data = e'.data

theorem OutboxOk.empty : OutboxOk World.empty := by
  have hrow : ∀ o e, ¬ World.empty.EventRow o e := by
    intro o e
    cases o <;> simp [World.EventRow, World.empty, Db.empty, Txn.empty]
  exact ⟨fun o e h => absurd h (hrow o e), fun o _ e _ h => absurd h (hrow o e)⟩

/-- The sequence of the events. -/
theorem run_nextEvent {op : Op} {r : Except Exc op.Ret} (h : op.run p w r w') :
    w'.db.nextEvent = w.db.nextEvent ∨
      (∃ d, op = .insertEvent d) ∧ w'.db.nextEvent = w.db.nextEvent + 1 := by
  cases op with
  | spop k =>
    rcases h with ⟨a, -, -, rfl⟩ | ⟨-, -, rfl⟩ <;> exact Or.inl rfl
  | insertOrder userId amount a =>
    simp only [Op.run] at h
    split_ifs at h
    · rcases h with ⟨-, ⟨-, -, rfl⟩ | ⟨-, -, rfl⟩⟩ <;> exact Or.inl rfl
    · obtain ⟨-, rfl⟩ := h
      exact Or.inl rfl
  | lockPending a =>
    simp only [Op.run] at h
    split at h
    · exact Or.inl (by rw [h.2])
    · split at h
      · exact Or.inl (by rw [Locks.parts h, lock_db])
      · exact Or.inl (by rw [h.2])
  | lockById paymentId orderId =>
    simp only [Op.run] at h
    split_ifs at h
    · exact Or.inl (by rw [Locks.parts h, lock_db])
    · exact Or.inl (by rw [h.2])
  | flushPaid i sms =>
    obtain ⟨-, -, ⟨-, -, rfl⟩ | ⟨-, -, rfl⟩⟩ := h <;> exact Or.inl rfl
  | insertSms amount inventory date time payload =>
    simp only [Op.run] at h
    split_ifs at h
    · rcases h with ⟨-, ⟨-, -, rfl⟩ | ⟨-, -, rfl⟩⟩ <;> exact Or.inl rfl
    · obtain ⟨-, rfl⟩ := h
      exact Or.inl rfl
  | insertEvent data =>
    obtain ⟨-, rfl⟩ := h
    exact Or.inr ⟨⟨data, rfl⟩, rfl⟩
  | claimEvents t s l =>
    obtain ⟨sel, -, -, rfl⟩ := h
    exact Or.inl rfl
  | commit =>
    obtain ⟨-, rfl⟩ := h
    exact Or.inl (Db.commit_next w.db (w.txn p).writes).2.2.2
  | xclaim consumer minIdle id =>
    simp only [Op.run] at h
    split_ifs at h <;> exact Or.inl (by rw [h.2])
  | publishEvents ids | failEvents us =>
    obtain ⟨-, -, rfl⟩ := h
    exact Or.inl rfl
  | candidate lo hi =>
    obtain ⟨rfl, -⟩ := h
    exact Or.inl rfl
  | intentBySms t =>
    obtain ⟨rfl, -⟩ := h
    exact Or.inl rfl
  | outOfFuel => exact h.elim
  | _ =>
    obtain ⟨-, rfl⟩ := h
    exact Or.inl rfl

theorem wstep_nextEvent (h : system.WStep w a w') : w'.db.nextEvent = w.db.nextEvent ∨
    (∃ q f d r, a = .run q f (Op.insertEvent d) r) ∧ w'.db.nextEvent = w.db.nextEvent + 1 := by
  cases a with
  | spawn q r =>
    obtain rfl : w' = w := h
    exact Or.inl rfl
  | run q f op r =>
    rcases exec_cases h with h | ⟨rfl, -⟩ | ⟨-, r₀, h, -⟩
    · rcases run_nextEvent h with hn | ⟨⟨d, rfl⟩, hn⟩
      · exact Or.inl hn
      · exact Or.inr ⟨⟨q, f, d, r, rfl⟩, hn⟩
    · exact Or.inl rfl
    · rcases run_nextEvent h with hn | ⟨⟨d, rfl⟩, hn⟩
      · exact Or.inl hn
      · exact Or.inr ⟨⟨q, f, d, r, rfl⟩, hn⟩
  | crash q =>
    obtain rfl : w' = w.rollback q := h
    exact Or.inl rfl
  | outer x =>
    obtain rfl : w' = w.tick x := h
    cases x
    exact Or.inl rfl

/-- An event that a step flushes has the next id. -/
theorem wstep_insEvent (h : system.WStep w a w') {q : Pid} {e : OutBoxOrderEvent}
    (he : Write.insEvent e ∈ (w'.txn q).writes) : Write.insEvent e ∈ (w.txn q).writes ∨
      ∃ f d r, a = .run q f (Op.insertEvent d) r ∧ e = w.newEvent d ∧
        w'.db.nextEvent = w.db.nextEvent + 1 := by
  rcases wstep_writes h he with hold | ⟨f, op, r, r₀, rfl, hnew⟩
  · exact Or.inl hold
  · cases op with
    | insertEvent d =>
      rcases exec_cases h with ⟨rfl, rfl⟩ | ⟨rfl, -⟩ | ⟨hl, -⟩
      · cases r₀ with
        | ok e₀ =>
          obtain rfl : e = w.newEvent d := by simpa [Op.flushed] using hnew
          exact Or.inr ⟨f, d, _, rfl, rfl, rfl⟩
        | error _ => simp [Op.flushed] at hnew
      · exact Or.inl he
      · simp [Op.Loses, Op.OnRedis] at hl
    | insertOrder _ _ _ | insertSms _ _ _ _ _ | flushPaid _ _ =>
      cases r₀ <;> simp [Op.flushed] at hnew
    | _ => simp [Op.flushed] at hnew

/-- What a row of the new world was before the step. -/
theorem wstep_eventRow (h : system.WStep w a w') {o' : Option Pid} {e' : OutBoxOrderEvent}
    (he : w'.EventRow o' e') : (∃ o e, w.EventRow o e ∧ e.id = e'.id ∧ e.data = e'.data ∧
      (o = o' ∨ o' = none ∧ ∃ q, o = some q ∧ w'.txn q = Txn.empty)) ∨
      ∃ q f d r, a = .run q f (Op.insertEvent d) r ∧ o' = some q ∧ e' = w.newEvent d ∧
        w'.db.nextEvent = w.db.nextEvent + 1 := by
  cases o' with
  | none =>
    obtain ⟨e, hid, hd, hmem | ⟨q, hmem, rfl⟩⟩ := wstep_outbox_from h he
    · exact Or.inl ⟨none, e, hmem, hid, hd, Or.inl rfl⟩
    · refine Or.inl ⟨some q, e, hmem, hid, hd, Or.inr ⟨rfl, q, rfl, ?_⟩⟩
      rw [commit_txn, if_pos rfl]
  | some q =>
    rcases wstep_insEvent h he with he | ⟨f, d, r, rfl, rfl, hn⟩
    · exact Or.inl ⟨some q, e', he, rfl, rfl, Or.inl rfl⟩
    · exact Or.inr ⟨q, f, d, r, rfl, rfl, rfl, hn⟩

/-- Two rows that come from one row are in one place. -/
theorem same_place {o o₁ o₂ : Option Pid} {e₁ e₂ : OutBoxOrderEvent}
    (h₁ : o = o₁ ∨ o₁ = none ∧ ∃ q, o = some q ∧ w'.txn q = Txn.empty)
    (h₂ : o = o₂ ∨ o₂ = none ∧ ∃ q, o = some q ∧ w'.txn q = Txn.empty)
    (he₁ : w'.EventRow o₁ e₁) (he₂ : w'.EventRow o₂ e₂) : o₁ = o₂ := by
  have hclosed : ∀ q e, w'.txn q = Txn.empty → ¬ w'.EventRow (some q) e := by
    intro q e hq he
    have he' : Write.insEvent e ∈ (w'.txn q).writes := he
    simp [hq, Txn.empty] at he'
  rcases h₁ with rfl | ⟨rfl, q, rfl, hq⟩
  · rcases h₂ with h | ⟨rfl, q, rfl, hq⟩
    · exact h
    · exact absurd he₁ (hclosed q _ hq)
  · rcases h₂ with rfl | ⟨rfl, -⟩
    · exact absurd he₂ (hclosed q _ hq)
    · rfl

theorem OutboxOk.step (h : OutboxOk w) (hw : system.WStep w a w') : OutboxOk w' := by
  have hmono : w.db.nextEvent ≤ w'.db.nextEvent := by
    rcases wstep_nextEvent hw with heq | ⟨-, heq⟩
    · exact heq.ge
    · exact heq ▸ (Int.lt_succ w.db.nextEvent).le
  constructor
  · intro o' e' he'
    rcases wstep_eventRow hw he' with ⟨o, e, he, hid, -, -⟩ | ⟨q, f, d, r, -, -, rfl, hn⟩
    · exact hid ▸ lt_of_lt_of_le (h.bound o e he) hmono
    · rw [hn]
      exact Int.lt_succ w.db.nextEvent
  · intro o₁ o₂ e₁ e₂ he₁ he₂ hid
    rcases wstep_eventRow hw he₁ with ⟨o, e, he, hi, hd, hp⟩ | ⟨q, f, d, r, ha, ho, rfl, hn⟩
    · rcases wstep_eventRow hw he₂ with ⟨o', e', he', hi', hd', hp'⟩ | ⟨q, f, d, r, -, -, rfl, -⟩
      · obtain ⟨rfl, hdata⟩ := h.unique o o' e e' he he' (by rw [hi, hi', hid])
        exact ⟨same_place hp hp' he₁ he₂, by rw [← hd, ← hd', hdata]⟩
      · have hlt := h.bound o e he
        rw [hi, hid] at hlt
        exact absurd hlt (lt_irrefl _)
    · rcases wstep_eventRow hw he₂ with ⟨o', e', he', hi', -, -⟩ | ⟨q', f', d', r', ha', ho', rfl, -⟩
      · have hlt := h.bound o' e' he'
        rw [hi', ← hid] at hlt
        exact absurd hlt (lt_irrefl _)
      · rw [ha] at ha'
        cases ha'
        exact ⟨ho.trans ho'.symm, rfl⟩

/-! ## The primary key -/

structure EventIds (w : World) : Prop where
  committed : (w.db.outbox.map (·.id)).Nodup
  flushed : ∀ p, (insertedEvents (w.txn p).writes).Nodup

theorem EventIds.of_closed (h : w.Closed) (ids : (w.db.outbox.map (·.id)).Nodup) : EventIds w :=
  ⟨ids, fun p => by simp [h p, Txn.empty, insertedEvents]⟩

theorem EventIds.eq (h : EventIds w) {e e' : OutBoxOrderEvent} (he : e ∈ w.db.outbox)
    (he' : e' ∈ w.db.outbox) (hid : e.id = e'.id) : e = e' :=
  List.inj_on_of_nodup_map h.committed he he' hid

/-- The ids of the events that an operation flushes. -/
theorem flushed_eventIds {op : Op} {r : Except Exc op.Ret} :
    insertedEvents (op.flushed w r) = [] ∨ insertedEvents (op.flushed w r) = [w.db.nextEvent] := by
  cases op with
  | insertEvent d => cases r <;> simp [Op.flushed, insertedEvents, World.newEvent]
  | insertOrder _ _ _ | insertSms _ _ _ _ _ | flushPaid _ _ =>
    cases r <;> simp [Op.flushed, insertedEvents]
  | failEvents us => simp [Op.flushed, insertedEvents]
  | _ => simp [Op.flushed, insertedEvents]

theorem EventIds.step (h : EventIds w) (hO : OutboxOk w) (hw : system.WStep w a w') :
    EventIds w' := by
  cases a with
  | spawn q r =>
    obtain rfl : w' = w := hw
    exact h
  | run q f op r =>
    rcases exec_effect hw with ⟨r₀, heff⟩ | rfl
    · refine ⟨?_, fun p => ?_⟩
      · have hout := heff.outbox
        cases op with
        | claimEvents t s l =>
          obtain ⟨sel, -, heq⟩ := hout
          have hids : (w'.db.outbox.map (·.id)) = w.db.outbox.map (·.id) := by
            rw [heq, Db.claim, List.map_map]
            refine List.map_congr_left fun e _ => ?_
            simp only [Function.comp_apply]
            split_ifs <;> rfl
          rw [hids]
          exact h.committed
        | commit =>
          have hids : w'.db.outbox.map (·.id) =
              w.db.outbox.map (·.id) ++ insertedEvents (w.txn q).writes := by
            rw [hout]
            exact Db.commit_eventIds w.db (w.txn q).writes
          rw [hids, List.nodup_append]
          refine ⟨h.committed, h.flushed q, ?_⟩
          rintro id hid _ hid' rfl
          obtain ⟨e, he, rfl⟩ := List.mem_map.mp hid
          obtain ⟨e', he', heq⟩ := mem_insertedEvents.mp hid'
          exact absurd (hO.unique none (some q) e e' he he' heq.symm).1 (by simp)
        | _ => exact hout ▸ h.committed
      · by_cases hp : p = q
        · subst hp
          rw [heff.writes]
          have hgrown : (insertedEvents ((w.txn p).writes ++ op.flushed w r₀)).Nodup := by
            rw [insertedEvents_append]
            rcases flushed_eventIds (w := w) (r := r₀) with hf | hf <;> rw [hf]
            · simpa using h.flushed p
            · refine List.nodup_append.mpr ⟨h.flushed p, by simp, ?_⟩
              rintro id hid _ hid' rfl
              obtain ⟨e, he, rfl⟩ := mem_insertedEvents.mp hid
              have hlt := hO.bound (some p) e he
              rw [List.mem_singleton.mp hid'] at hlt
              exact lt_irrefl _ hlt
          cases op <;> first
            | exact hgrown
            | exact List.nodup_nil
        · rw [heff.others p hp]
          exact h.flushed p
    · exact h
  | crash q =>
    obtain rfl : w' = w.rollback q := hw
    refine ⟨h.committed, fun p => ?_⟩
    rw [rollback_txn]
    split_ifs
    · exact List.nodup_nil
    · exact h.flushed p
  | outer x =>
    obtain rfl : w' = w.tick x := hw
    cases x
    exact ⟨h.committed, h.flushed⟩

/-! ## One event -/

/-- What the step `a` from `w` makes of a committed event. -/
inductive EventStep (w : World) (a : Label) (e : OutBoxOrderEvent) : OutBoxOrderEvent → Prop
  | stay : EventStep w a e e
  | claimed {p : Pid} {f : Fault} {t : ℕ} {s : ℤ} {l : ℕ} {es : List ClaimedEvent}
      (label : a = .run p f (Op.claimEvents t s l) (.ok es)) (mem : e.claimed ∈ es)
      (claimable : e.Claimable s) : EventStep w a e (e.claim t)
  | updated {p : Pid} {f : Fault} {r : Except Exc Unit} {x : Write} {e' : OutBoxOrderEvent}
      (label : a = .run p f Op.commit r) (done : f ≠ .failed) (mem : x ∈ (w.txn p).writes)
      (touches : x.Touches e.id) (evolves : EventEvolves (w.txn p).writes e e') : EventStep w a e e'

theorem EventStep.id {e e' : OutBoxOrderEvent} (h : EventStep w a e e') :
    e'.id = e.id ∧ e'.data = e.data := by
  cases h with
  | stay => exact ⟨rfl, rfl⟩
  | claimed => exact ⟨rfl, rfl⟩
  | updated _ _ _ _ hev => exact ⟨hev.id, hev.data⟩

/-- What a commit makes of an event. -/
theorem event_commit {q : Pid} {f : Fault} {r : Except Exc Unit} {e e' : OutBoxOrderEvent}
    (hf : f ≠ .failed) (hev : EventEvolves (w.txn q).writes e e') :
    EventStep w (.run q f Op.commit r) e e' := by
  rcases hev.touched with rfl | ⟨x, hx, ht⟩
  · exact .stay
  · exact .updated rfl hf hx ht hev

/-- What a claim makes of an event. -/
theorem event_claim (h : EventIds w) {q : Pid} {f : Fault} {t : ℕ} {s : ℤ} {l : ℕ}
    {sel : List OutBoxOrderEvent} (hsel : Selects w q s l sel) {e : OutBoxOrderEvent}
    (he : e ∈ w.db.outbox) : EventStep w (.run q f (Op.claimEvents t s l) (.ok (sel.map (·.claimed))))
      e (if e.id ∈ sel.map (·.id) then e.claim t else e) := by
  split_ifs with hid
  · obtain ⟨e₀, he₀, hid₀⟩ := List.mem_map.mp hid
    obtain ⟨hmem, hclaim, -⟩ := hsel.claimable e₀ he₀
    obtain rfl := h.eq hmem he hid₀
    exact .claimed rfl (List.mem_map.mpr ⟨e₀, he₀, rfl⟩) hclaim
  · exact .stay

/-- **Step lemma** for one event. -/
theorem event_step (h : EventIds w) (hw : system.WStep w a w') {e : OutBoxOrderEvent}
    (he : e ∈ w.db.outbox) : ∃ e' ∈ w'.db.outbox, EventStep w a e e' := by
  have same : w'.db.outbox = w.db.outbox → ∃ e' ∈ w'.db.outbox, EventStep w a e e' :=
    fun heq => ⟨e, heq ▸ he, .stay⟩
  cases a with
  | spawn q r =>
    obtain rfl : w' = w := hw
    exact same rfl
  | run q f op r =>
    by_cases hfailed : f = .failed
    · subst hfailed
      obtain ⟨rfl, -⟩ := hw
      exact same rfl
    · cases op with
      | claimEvents t s l =>
        rcases exec_cases hw with ⟨sel, hsel, rfl, rfl⟩ | ⟨rfl, -⟩ | ⟨hl, -⟩
        · exact ⟨_, List.mem_map.mpr ⟨e, he, rfl⟩, event_claim h hsel he⟩
        · exact same rfl
        · simp [Op.Loses, Op.OnRedis] at hl
      | commit =>
        rcases exec_effect hw with ⟨r₀, heff⟩ | rfl
        · obtain ⟨e', he', hev⟩ := Db.commit_outbox_keeps (w.txn q).writes (Or.inl he)
          exact ⟨e', heff.outbox ▸ he', event_commit hfailed hev⟩
        · exact same rfl
      | _ =>
        rcases exec_effect hw with ⟨r₀, heff⟩ | rfl
        · exact same heff.outbox
        · exact same rfl
  | crash q =>
    obtain rfl : w' = w.rollback q := hw
    exact same rfl
  | outer x =>
    obtain rfl : w' = w.tick x := hw
    cases x
    exact same rfl

/-- Where an event comes from: an event from before, or one that its session inserted and commits. -/
theorem event_from (h : EventIds w) (hO : OutboxOk w) (hw : system.WStep w a w')
    {e' : OutBoxOrderEvent} (he' : e' ∈ w'.db.outbox) :
    (∃ e ∈ w.db.outbox, EventStep w a e e') ∨ ∃ q e, Write.insEvent e ∈ (w.txn q).writes ∧
      EventEvolves (w.txn q).writes e e' := by
  rcases wstep_event hw he' with hmem | ⟨e, hmem, t, rfl, -⟩ | ⟨q, f, r, e, rfl, -, hmem | hmem, hev⟩
  · obtain ⟨e₁, he₁, hstep⟩ := event_step h hw hmem
    obtain rfl := (h.step hO hw).eq he₁ he' hstep.id.1
    exact Or.inl ⟨_, hmem, hstep⟩
  · obtain ⟨e₁, he₁, hstep⟩ := event_step h hw hmem
    obtain rfl := (h.step hO hw).eq he₁ he' hstep.id.1
    exact Or.inl ⟨e, hmem, hstep⟩
  · obtain ⟨e₁, he₁, hstep⟩ := event_step h hw hmem
    obtain rfl := (h.step hO hw).eq he₁ he' (hstep.id.1.trans hev.id.symm)
    exact Or.inl ⟨e, hmem, hstep⟩
  · exact Or.inr ⟨q, e, hmem, hev⟩

/-! ## The clock -/

theorem wstep_clock (hw : system.WStep w a w') : w.clock ≤ w'.clock := by
  cases a with
  | spawn q r =>
    obtain rfl : w' = w := hw
    exact le_rfl
  | run q f op r =>
    rcases exec_effect hw with ⟨r₀, heff⟩ | rfl
    · exact heff.clock.ge
    · exact le_rfl
  | crash q =>
    obtain rfl : w' = w.rollback q := hw
    exact le_rfl
  | outer x =>
    obtain rfl : w' = w.tick x := hw
    cases x
    exact Nat.le_add_right _ _

end PaymentRecon
