import PaymentRecon.Play
import PaymentRecon.Relay.Claims

/-!
# Published — an event is marked only after its payload is in the stream

The relay claims, publishes and reports in three steps, and may crash between any two of them.  What a
relay reports PUBLISHED it has sent before, and an event that no relay reports on keeps its lock, so
that it is claimed again.
-/

namespace PaymentRecon

open Interleave Rely

namespace Relay

variable {p q : Pid} {w w' : World} {past : List Label} {a : Label}

/-- An XADD of the payload `d`, which is valid, succeeded. -/
def Enqueued (past : List Label) (d : Json) : Prop :=
  validateEventData d = .ok d ∧
    ∃ p fl f x, Act.run p fl (Op.xadd f) (.ok x) ∈ past ∧ f.data = some d

theorem Enqueued.mono {d : Json} (h : Enqueued past d) : Enqueued (past ++ [a]) d := by
  obtain ⟨hv, p, fl, f, x, hm, hd⟩ := h
  exact ⟨hv, p, fl, f, x, List.mem_append_left _ hm, hd⟩

theorem Sent.enqueued {e : ClaimedEvent} (h : Sent p past e) : Enqueued past e.data := by
  obtain ⟨-, hv, fl, f, x, hm, hd⟩ := h
  exact ⟨hv, p, fl, f, x, hm, hd⟩

/-- The event is not stranded: it was sent when it is PUBLISHED, and locked when it is PROCESSING. -/
structure Recorded (past : List Label) (e : OutBoxOrderEvent) : Prop where
  published : e.status = .PUBLISHED → Enqueued past e.data
  locked : e.status = .PROCESSING → ∃ t, e.lockedAt = some t

theorem Recorded.mono {e : OutBoxOrderEvent} (h : Recorded past e) : Recorded (past ++ [a]) e :=
  ⟨fun hs => (h.published hs).mono, h.locked⟩

/-- There is an event with this id and this payload. -/
def World.HasEvent (w : World) (id : Id) (d : Json) : Prop :=
  ∃ e ∈ w.db.outbox, e.id = id ∧ e.data = d

/-- What an update that is not committed yet may say. -/
def Founded (w : World) (past : List Label) : Write → Prop
  | .publish ids => ∀ id ∈ ids, ∃ d, World.HasEvent w id d ∧ Enqueued past d
  | .eventError u => u.status = .PENDING ∨ u.status = .FAILED
  | .insEvent e => e.status = .PENDING
  | _ => True

structure Accounted (w : World) (past : List Label) : Prop where
  outbox : OutboxOk w
  ids : EventIds w
  recorded : ∀ e ∈ w.db.outbox, Recorded past e
  claimed : ∀ p t es, claimOf p past = .held t es → ∀ x ∈ es, World.HasEvent w x.id x.data
  writes : ∀ p, ∀ x ∈ (w.txn p).writes, Founded w past x

theorem hasEvent_step (hw : system.WStep w a w') {id : Id} {d : Json} (h : World.HasEvent w id d) :
    World.HasEvent w' id d := by
  obtain ⟨e, he, rfl, rfl⟩ := h
  exact wstep_outbox hw he

theorem Founded.step (hw : system.WStep w a w') {x : Write} (h : Founded w past x) :
    Founded w' (past ++ [a]) x := by
  cases x with
  | publish ids =>
    intro id hid
    obtain ⟨d, hd, hs⟩ := h id hid
    exact ⟨d, hasEvent_step hw hd, hs.mono⟩
  | _ => exact h

/-- What committed updates make of an event. -/
theorem Accounted.evolves (h : Accounted w past) {e e' : OutBoxOrderEvent}
    (hev : EventEvolves (w.txn p).writes e e') (he : Recorded past e)
    (hdata : ∀ d, World.HasEvent w e.id d → d = e.data) : Recorded past e' := by
  rcases hev.status with rfl | ⟨hs, ids, hm, hid⟩ | ⟨u, hm, -, hs, -⟩
  · exact he
  · obtain ⟨d, hd, hsent⟩ := h.writes p _ hm e.id hid
    obtain rfl := hdata d hd
    rw [← hev.data] at hsent
    exact ⟨fun _ => hsent, fun hp => absurd (hs.symm.trans hp) (by decide)⟩
  · have hu : u.status = .PENDING ∨ u.status = .FAILED := h.writes p _ hm
    rw [← hs] at hu
    refine ⟨fun hp => ?_, fun hp => ?_⟩ <;> rcases hu with hu | hu <;>
      exact absurd (hu.symm.trans hp) (by decide)

theorem Accounted.recorded_step (h : Accounted w past) (hw : system.WStep w a w')
    {e' : OutBoxOrderEvent} (he' : e' ∈ w'.db.outbox) : Recorded (past ++ [a]) e' := by
  refine Recorded.mono ?_
  rcases event_from h.ids h.outbox hw he' with ⟨e, he, hstep⟩ | ⟨p, e, he, hev⟩
  · cases hstep with
    | stay => exact h.recorded e' he
    | claimed _ _ _ => exact ⟨fun hs => absurd hs (by simp [OutBoxOrderEvent.claim]), fun _ => ⟨_, rfl⟩⟩
    | updated _ _ _ _ hev =>
      refine h.evolves hev (h.recorded e he) ?_
      rintro d ⟨e₁, he₁, hid, rfl⟩
      rw [h.ids.eq he₁ he hid]
  · have hpend : e.status = .PENDING := h.writes p _ he
    refine h.evolves hev ⟨fun hs => ?_, fun hs => ?_⟩ ?_
    · exact absurd (hpend.symm.trans hs) (by decide)
    · exact absurd (hpend.symm.trans hs) (by decide)
    · rintro d ⟨e₁, he₁, hid, -⟩
      exact absurd (h.outbox.unique none (some p) e₁ e he₁ he hid).1 (by simp)

/-- **Step lemma.** -/
theorem Accounted.step (h : Accounted w past) (hw : system.WStep w a w')
    (hg : logic.Guarded w past a w') : Accounted w' (past ++ [a]) := by
  refine ⟨h.outbox.step hw, h.ids.step h.outbox hw, fun e he => h.recorded_step hw he, ?_, ?_⟩
  · intro p t es hes x hx
    rcases claim_of_step hes with hold | ⟨f, s, l, rfl⟩
    · exact hasEvent_step hw (h.claimed p t es hold x hx)
    · obtain ⟨sel, hsel, rfl, -⟩ := claimed_rows hw
      obtain ⟨e, he, rfl⟩ := List.mem_map.mp hx
      exact hasEvent_step hw ⟨e, (hsel.claimable e he).1, rfl, rfl⟩
  · intro p x hx
    rcases wstep_writes hw hx with hx | ⟨f, op, r, r₀, rfl, hx⟩
    · exact (h.writes p x hx).step hw
    · refine Founded.step hw ?_
      have hlaw : Lawful p w past op := hg.2 p f op r rfl
      cases op with
      | publishEvents ids =>
        obtain rfl : x = .publish ids := by simpa [Op.flushed] using hx
        obtain ⟨t, es, hes, hall⟩ := hlaw
        intro id hid
        obtain ⟨e, he, rfl, hsent⟩ := hall id hid
        exact ⟨e.data, h.claimed p t es hes e he, hsent.enqueued⟩
      | failEvents us =>
        obtain ⟨u, hu, rfl⟩ : ∃ u ∈ us, Write.eventError u = x := by simpa [Op.flushed] using hx
        obtain ⟨t, es, -, hall⟩ := hlaw
        exact (hall u hu).2
      | insertEvent d =>
        cases r₀ with
        | ok e =>
          obtain rfl : x = .insEvent (w.newEvent d) := by simpa [Op.flushed] using hx
          rfl
        | error e => simp [Op.flushed] at hx
      | insertOrder _ _ _ | insertSms _ _ _ _ _ | flushPaid _ _ =>
        cases r₀ with
        | ok o =>
          simp only [Op.flushed, List.mem_cons, List.not_mem_nil, or_false] at hx
          rcases hx with rfl | rfl <;> trivial
        | error e => simp [Op.flushed] at hx
      | _ => simp [Op.flushed] at hx

theorem accounted_run {w₀ : World} (hclosed : w₀.Closed) (hO : OutboxOk w₀)
    (hids : (w₀.db.outbox.map (·.id)).Nodup)
    (hnew : ∀ e ∈ w₀.db.outbox, e.status ≠ .PUBLISHED ∧ (e.status = .PROCESSING → e.lockedAt ≠ none))
    {tr : List Label} {c : State} (hr : Lts.Run Steps (.init w₀) tr c) :
    Accounted c.world c.past := by
  refine (sound.derive (P := fun _ _ _ => True) (J := fun c => Accounted c.world c.past)
    (hr.mono fun _ _ _ h => ⟨h, trivial, trivial⟩) (Holds.init trivial fun _ => rfl) ?_ ?_).2
  · refine ⟨hO, .of_closed hclosed hids, fun e he => ?_, ?_, ?_⟩
    · obtain ⟨hpub, hlock⟩ := hnew e he
      exact ⟨fun hs => absurd hs hpub, fun hs => Option.ne_none_iff_exists'.mp (hlock hs)⟩
    · intro p t es hes
      exact absurd hes (by simp [Config.init])
    · intro p x hx
      have hx' : x ∈ (w₀.txn p).writes := hx
      simp [hclosed p, Txn.empty] at hx'
  · intro c a c' _ hJ hs hg _
    obtain ⟨hw, hpast⟩ := hs.wstep
    rw [hpast]
    exact hJ.step hw hg

/-- **Published after sent, and never stranded.**  Whatever the requests do and wherever they crash or
fail: an event is PUBLISHED only after an XADD of its valid payload succeeded, and a PROCESSING event has
a lock, so that once the lock is older than the timeout every claim takes the event, unless another
relay is updating it or the claim is full of events at least as old. -/
theorem published_after_xadd {w₀ : World} (hclosed : w₀.Closed) (hO : OutboxOk w₀)
    (hids : (w₀.db.outbox.map (·.id)).Nodup)
    (hnew : ∀ e ∈ w₀.db.outbox, e.status ≠ .PUBLISHED ∧ (e.status = .PROCESSING → e.lockedAt ≠ none))
    {tr : List Label} {c : State} (hr : Lts.Run Steps (.init w₀) tr c) {e : OutBoxOrderEvent}
    (he : e ∈ c.world.db.outbox) :
    (e.status = .PUBLISHED → validateEventData e.data = .ok e.data ∧
      ∃ p fl f x, Act.run p fl (Op.xadd f) (.ok x) ∈ tr ∧ f.data = some e.data) ∧
    (e.status = .PROCESSING → ∃ t, e.lockedAt = some t ∧ ∀ p now limit sel,
      (t : ℤ) + lockTimeout < now → Selects c.world p (now - lockTimeout) limit sel →
      e ∈ sel ∨ c.world.EventLocked p e.id ∨
        sel.length = limit ∧ ∀ e' ∈ sel, e'.createdAt ≤ e.createdAt) := by
  have hJ := accounted_run hclosed hO hids hnew hr
  have hpast : c.past = tr := run_past hr
  obtain ⟨hpub, hlock⟩ := hJ.recorded e he
  refine ⟨fun hs => hpast ▸ hpub hs, fun hs => ?_⟩
  obtain ⟨t, ht⟩ := hlock hs
  refine ⟨t, ht, fun p now limit sel hnow hsel => ?_⟩
  have hclaim : e.Claimable (now - lockTimeout) := Or.inr ⟨hs, t, ht, by omega⟩
  by_cases hmem : e ∈ sel
  · exact Or.inl hmem
  · by_cases hl : c.world.EventLocked p e.id
    · exact Or.inr (Or.inl hl)
    · exact Or.inr (Or.inr (hsel.oldest e he hclaim hl hmem))

/-- One event is published, and the relay of another one crashes. -/
theorem published_after_xadd_sample : ∃ (tr : List Label) (c : State) (e e' : OutBoxOrderEvent),
    Lts.Run Steps (.init World.empty) tr c ∧ e ∈ c.world.db.outbox ∧ e' ∈ c.world.db.outbox ∧
      (∃ p fl f x, Act.run p fl (Op.xadd f) (.ok x) ∈ tr ∧ f.data = some e.data) ∧
      ∃ t, e'.lockedAt = some t := by
  obtain ⟨tr, c, hr, htest, -⟩ := plays_run 4 .none
    (Script.webhook 0 1500001 ++ Script.relay 1 ++ Script.webhook 2 1500002 ++
      .spawn 3 .processOutboxEvent :: Move.goes 3 2 ++ [.crash 3])
    (fun c => (c.world.db.outbox.any fun e => e.status = .PUBLISHED) &&
      c.world.db.outbox.any fun e => e.status = .PROCESSING)
    (by decide +kernel) World.empty_closed
  have hr := hr.of_restrict
  simp only [Bool.and_eq_true, List.any_eq_true, decide_eq_true_eq] at htest
  obtain ⟨⟨e, he, hs⟩, e', he', hs'⟩ := htest
  have h := published_after_xadd World.empty_closed OutboxOk.empty List.nodup_nil
    (fun _ h => absurd h List.not_mem_nil) hr he
  have h' := published_after_xadd World.empty_closed OutboxOk.empty List.nodup_nil
    (fun _ h => absurd h List.not_mem_nil) hr he'
  obtain ⟨t, ht, -⟩ := h'.2 hs'
  exact ⟨tr, c, e, e', hr, he, he', (h.1 hs).2, t, ht⟩

end Relay

end PaymentRecon
