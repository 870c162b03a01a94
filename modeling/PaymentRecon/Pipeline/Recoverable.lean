import PaymentRecon.Pipeline.Programs
import PaymentRecon.Tables.Events

/-!
# Recoverable — an accepted payment always leaves a copy

The payload of an accepted SMS is in the outbox until a relay published or dead-lettered it, and from
then on a copy of it is in a dead-letter entry or in an open entry of the main stream until a worker
acknowledges one after handling it.  An entry whose worker has just copied it to the dead-letter
stream does not count: it may be acknowledged at any moment.
-/

namespace PaymentRecon

open Interleave Streams

namespace Pipeline

variable {p : Pid} {w w' : World} {a : Label} {past : List Label}

/-- A worker acknowledged an entry with the payload `d` right after its handler succeeded or raised
`IgnoreAndAckMessage`. -/
def Acked (w : World) (past : List Label) (d : Json) : Prop :=
  ∃ p fl id r before after, past = before ++ Act.run p fl (Op.xack id) r :: after ∧
    fl ≠ .failed ∧ HandledLast p before id ∧ Entry w id d

/-- A copy of the payload that nobody is about to acknowledge. -/
def Copy (w : World) (past : List Label) (d : Json) : Prop :=
  (∃ e ∈ w.dead.entries, e.2.data = some d) ∨
    (∃ e ∈ w.main.entries, e.2.data = some d ∧ w.group.Open e.1 ∧ ∀ q, ¬ CopiedLast q past e.1) ∨
    Acked w past d

/-- The relay has not done with the event, or has given it up. -/
def Waiting (e : OutBoxOrderEvent) : Prop :=
  e.status = .PENDING ∨ e.status = .PROCESSING ∨
    e.status = .FAILED ∧ ∃ n ∈ e.retryCount, MAX_OUTBOX_RETRIES ≤ n

structure Safe (w : World) (past : List Label) : Prop where
  outboxOk : OutboxOk w
  cursor : w.group.cursor ≤ w.main.last
  bound : ∀ q id, CopiedLast q past id → id ≤ w.main.last
  copies : ∀ d, Enqueued past d ∨ DeadLettered past d → Copy w past d
  published : ∀ p ids, Write.publish ids ∈ (w.txn p).writes →
    ∀ id ∈ ids, ∃ d, Known w id d ∧ Enqueued past d
  reported : ∀ p u, Write.eventError u ∈ (w.txn p).writes → Unpublished w past u
  new : ∀ p e, Write.insEvent e ∈ (w.txn p).writes → e.status = .PENDING
  events : ∀ e ∈ w.db.outbox, Waiting e ∨ Enqueued past e.data ∨ DeadLettered past e.data

/-! ## Writes of the relay -/

theorem wstep_publish (h : system.WStep w a w') {q : Pid} {ids : List Id}
    (hx : Write.publish ids ∈ (w'.txn q).writes) : Write.publish ids ∈ (w.txn q).writes ∨
      ∃ f r, a = .run q f (Op.publishEvents ids) r := by
  rcases wstep_writes h hx with hx | ⟨f, op, r, r₀, rfl, hx⟩
  · exact Or.inl hx
  · cases op with
    | publishEvents ids' =>
      obtain rfl : ids = ids' := by simpa [Op.flushed] using hx
      exact Or.inr ⟨f, r, rfl⟩
    | insertOrder _ _ _ | insertSms _ _ _ _ _ | flushPaid _ _ | insertEvent _ =>
      cases r₀ <;> simp [Op.flushed] at hx
    | _ => simp [Op.flushed] at hx

theorem wstep_eventError (h : system.WStep w a w') {q : Pid} {u : EventUpdate}
    (hx : Write.eventError u ∈ (w'.txn q).writes) : Write.eventError u ∈ (w.txn q).writes ∨
      ∃ f us r, a = .run q f (Op.failEvents us) r ∧ u ∈ us := by
  rcases wstep_writes h hx with hx | ⟨f, op, r, r₀, rfl, hx⟩
  · exact Or.inl hx
  · cases op with
    | failEvents us => exact Or.inr ⟨f, us, r, rfl, by simpa [Op.flushed] using hx⟩
    | insertOrder _ _ _ | insertSms _ _ _ _ _ | flushPaid _ _ | insertEvent _ =>
      cases r₀ <;> simp [Op.flushed] at hx
    | _ => simp [Op.flushed] at hx

/-- An event has one payload. -/
theorem known_data (h : OutboxOk w) {o : Option Pid} {e : OutBoxOrderEvent}
    (he : w.EventRow o e) {d : Json} (hk : Known w e.id d) : e.data = d := by
  obtain ⟨e', he', hid, hd⟩ := hk
  rw [← hd]
  exact (h.unique o none e e' he he' hid.symm).2

/-! ## Copies -/

theorem Acked.step (h : system.WStep w a w') {d : Json} (hd : Acked w past d) :
    Acked w' (past ++ [a]) d := by
  obtain ⟨q, fl, id, r, before, after, rfl, hfl, hh, he⟩ := hd
  exact ⟨q, fl, id, r, before, after ++ [a], by simp, hfl, hh, he.step h⟩

/-- Somebody is about to acknowledge the entry: it was so before, or the entry was just copied. -/
theorem copiedLast_step {q : Pid} {id : StreamId} (h : CopiedLast q (past ++ [a]) id) :
    CopiedLast q past id ∨
      ∃ fl f x, a = .run q fl (Op.xaddDead f) (.ok x) ∧ f.originalId = some id := by
  obtain ⟨fl, f, x, hl, hid⟩ := h
  by_cases hq : a.pid = some q
  · rw [lastOf_own hq] at hl
    exact Or.inr ⟨fl, f, x, by simpa using hl, hid⟩
  · rw [lastOf_other hq] at hl
    exact Or.inl ⟨fl, f, x, hl, hid⟩

/-- An entry that was appended to the main stream is a copy. -/
theorem Safe.appended (h : Safe w past) {now : ℕ} {f : Fields} {d : Json} (hd : f.data = some d)
    (hmain : w'.main = w.main.xadd now f) (hgroup : w'.group = w.group)
    (ha : ∀ q fl g x, a ≠ .run q fl (Op.xaddDead g) (.ok x)) : Copy w' (past ++ [a]) d := by
  have hlt : w.main.last < nextId w.main.last now := lt_nextId _ _
  refine Or.inr (Or.inl ⟨(nextId w.main.last now, f), ?_, hd, ?_, ?_⟩)
  · rw [hmain]
    exact Stream.mem_xadd.mpr (Or.inr rfl)
  · rw [hgroup]
    exact Or.inl (lt_of_le_of_lt h.cursor hlt)
  · intro q hc
    rcases copiedLast_step hc with hc | ⟨fl, g, x, heq, -⟩
    · exact absurd (h.bound q _ hc) (not_le_of_gt hlt)
    · exact ha q fl g x heq

theorem wstep_xaddDead {fl : Fault} {f : Fields} {x : StreamId}
    (h : system.WStep w (.run p fl (Op.xaddDead f) (.ok x)) w') :
    w'.dead = w.dead.xadd w.clock f ∧ w'.main = w.main := by
  rcases exec_cases h with ⟨-, rfl⟩ | ⟨-, e, -, he⟩ | ⟨-, r₀, -, e, -, he⟩
  · exact ⟨rfl, rfl⟩
  · exact absurd he (by simp)
  · exact absurd he (by simp)

theorem wstep_xadd {fl : Fault} {f : Fields} {x : StreamId}
    (h : system.WStep w (.run p fl (Op.xadd f) (.ok x)) w') :
    w'.main = w.main.xadd w.clock f ∧ w'.group = w.group := by
  rcases exec_cases h with ⟨-, rfl⟩ | ⟨-, e, -, he⟩ | ⟨-, r₀, -, e, -, he⟩
  · exact ⟨rfl, rfl⟩
  · exact absurd he (by simp)
  · exact absurd he (by simp)

/-- A dead letter stays, or it is moved to the main stream. -/
theorem Safe.dead_copy (h : Safe w past) (hw : system.WStep w a w')
    (hg : logic.Guarded w past a w') {e : StreamId × Fields} (he : e ∈ w.dead.entries) {d : Json}
    (hd : e.2.data = some d) : Copy w' (past ++ [a]) d := by
  have stay : e ∈ w'.dead.entries → Copy w' (past ++ [a]) d := fun h => Or.inl ⟨e, h, hd⟩
  cases a with
  | spawn q r =>
    obtain rfl : w' = w := hw
    exact stay he
  | run q f op r =>
    rcases exec_effect hw with ⟨r₀, heff⟩ | rfl
    · cases op with
      | xaddDead g =>
        refine stay ?_
        rw [heff.dead]
        exact Stream.mem_xadd.mpr (Or.inl he)
      | moveDead g x =>
        by_cases hid : e.1 = x.lo
        · obtain ⟨g₀, rfl, -, heq⟩ := hg.2 q f _ r rfl
          have hg₀ : g₀.data = some d := heq e he hid ▸ hd
          exact h.appended (f := { g₀ with attempts := some 0 }) hg₀ heff.main heff.group (by simp)
        · refine stay ?_
          rw [heff.dead]
          exact Stream.mem_xdel.mpr ⟨he, hid⟩
      | _ => exact stay (heff.dead ▸ he)
    · exact stay he
  | crash q =>
    obtain rfl : w' = w.rollback q := hw
    exact stay he
  | outer x =>
    obtain rfl : w' = w.tick x := hw
    cases x
    exact stay he

/-- An open entry that nobody is about to acknowledge stays open, or it is acknowledged after its
handler. -/
theorem Safe.open_step (h : Safe w past) (hw : system.WStep w a w')
    (hg : logic.Guarded w past a w') {e : StreamId × Fields} (he : e ∈ w.main.entries) {d : Json}
    (hd : e.2.data = some d) (hopen : w.group.Open e.1) (hnot : ∀ q, ¬ CopiedLast q past e.1) :
    w'.group.Open e.1 ∨ Acked w' (past ++ [a]) d := by
  cases a with
  | spawn q r =>
    obtain rfl : w' = w := hw
    exact Or.inl hopen
  | run q f op r =>
    rcases exec_effect hw with ⟨r₀, heff⟩ | rfl
    · have hgroup := heff.group
      cases op with
      | xreadgroup consumer count =>
        rw [hgroup]
        exact Or.inl (Group.open_deliver he hopen)
      | xclaim consumer minIdle id =>
        rw [hgroup]
        simp only [Op.groupAfter]
        split_ifs
        · exact Or.inl (Group.open_claim.mpr hopen)
        · exact Or.inl hopen
      | xack id =>
        by_cases hid : e.1 = id
        · rcases hg.2 q f _ r rfl with hh | hc
          · by_cases hf : f = .failed
            · subst hf
              obtain ⟨rfl, -⟩ := hw
              exact Or.inl hopen
            · right
              exact ⟨q, f, id, r, past, [], rfl, hf, hh, e.2, hid ▸ heff.main ▸ he, hd⟩
          · exact absurd (hid ▸ hc) (hnot q)
        · rw [hgroup]
          exact Or.inl (Group.open_xack hopen hid)
      | _ => exact Or.inl (hgroup ▸ hopen)
    · exact Or.inl hopen
  | crash q =>
    obtain rfl : w' = w.rollback q := hw
    exact Or.inl hopen
  | outer x =>
    obtain rfl : w' = w.tick x := hw
    cases x
    exact Or.inl hopen

/-- **Copies are conserved.** -/
theorem Copy.step (h : Safe w past) (hw : system.WStep w a w') (hg : logic.Guarded w past a w')
    {d : Json} (hd : Copy w past d) : Copy w' (past ++ [a]) d := by
  rcases hd with ⟨e, he, hd⟩ | ⟨e, he, hd, hopen, hnot⟩ | hack
  · exact h.dead_copy hw hg he hd
  · rcases h.open_step hw hg he hd hopen hnot with hopen' | hack
    · by_cases hc : ∃ q, CopiedLast q (past ++ [a]) e.1
      · -- the entry was copied just now, so the copy is there
        obtain ⟨q, hc⟩ := hc
        rcases copiedLast_step hc with hc | ⟨fl, f, x, rfl, hid⟩
        · exact absurd hc (hnot q)
        · obtain ⟨-, hentry⟩ := hg.2 q fl _ _ rfl
          obtain ⟨d', hd', g, hmem, hg'⟩ := hentry e.1 hid
          have heq : e = (e.1, g) := Stream.eq_of_id he hmem rfl
          have hdd : d' = d := by
            rw [heq] at hd
            exact Option.some.inj (hg'.symm.trans hd)
          refine Or.inl ⟨(nextId w.dead.last w.clock, f), ?_, hdd ▸ hd'⟩
          rw [(wstep_xaddDead hw).1]
          exact Stream.mem_xadd.mpr (Or.inr rfl)
      · exact Or.inr (Or.inl ⟨e, wstep_main hw he, hd, hopen', fun q hq => hc ⟨q, hq⟩⟩)
    · exact Or.inr (Or.inr hack)
  · exact Or.inr (Or.inr (hack.step hw))

/-! ## The invariant -/

theorem enqueued_step {d : Json} (h : Enqueued (past ++ [a]) d) : Enqueued past d ∨
    ∃ q fl f x, a = .run q fl (Op.xadd f) (.ok x) ∧ f.data = some d := by
  obtain ⟨q, fl, f, x, hm, hd⟩ := h
  rcases List.mem_append.mp hm with hm | hm
  · exact Or.inl ⟨q, fl, f, x, hm, hd⟩
  · exact Or.inr ⟨q, fl, f, x, (List.mem_singleton.mp hm).symm, hd⟩

theorem deadLettered_step {d : Json} (h : DeadLettered (past ++ [a]) d) : DeadLettered past d ∨
    ∃ q fl f x, a = .run q fl (Op.xaddDead f) (.ok x) ∧ f.data = some d := by
  obtain ⟨q, fl, f, x, hm, hd⟩ := h
  rcases List.mem_append.mp hm with hm | hm
  · exact Or.inl ⟨q, fl, f, x, hm, hd⟩
  · exact Or.inr ⟨q, fl, f, x, (List.mem_singleton.mp hm).symm, hd⟩

theorem Safe.copies_step (h : Safe w past) (hw : system.WStep w a w')
    (hg : logic.Guarded w past a w') (d : Json)
    (hd : Enqueued (past ++ [a]) d ∨ DeadLettered (past ++ [a]) d) : Copy w' (past ++ [a]) d := by
  rcases hd with hd | hd
  · rcases enqueued_step hd with hd | ⟨q, fl, f, x, rfl, hf⟩
    · exact Copy.step h hw hg (h.copies d (Or.inl hd))
    · obtain ⟨hmain, hgroup⟩ := wstep_xadd hw
      exact h.appended hf hmain hgroup (by simp)
  · rcases deadLettered_step hd with hd | ⟨q, fl, f, x, rfl, hf⟩
    · exact Copy.step h hw hg (h.copies d (Or.inr hd))
    · refine Or.inl ⟨(nextId w.dead.last w.clock, f), ?_, hf⟩
      rw [(wstep_xaddDead hw).1]
      exact Stream.mem_xadd.mpr (Or.inr rfl)

/-- The cursor of the group stays behind the last id, and the last id grows. -/
theorem Safe.cursor_step (h : Safe w past) (hw : system.WStep w a w') :
    w'.group.cursor ≤ w'.main.last ∧ w.main.last ≤ w'.main.last := by
  cases a with
  | spawn q r =>
    obtain rfl : w' = w := hw
    exact ⟨h.cursor, le_rfl⟩
  | run q f op r =>
    rcases exec_effect hw with ⟨r₀, heff⟩ | rfl
    · rw [heff.group, heff.main]
      cases op with
      | xadd f | moveDead f x =>
        exact ⟨h.cursor.trans (lt_nextId _ _).le, (lt_nextId _ _).le⟩
      | xreadgroup consumer count =>
        refine ⟨?_, le_rfl⟩
        show ((w.group.unread w.main count).getLast?.map (·.1)).getD w.group.cursor ≤ w.main.last
        cases hl : (w.group.unread w.main count).getLast? with
        | none => exact h.cursor
        | some e =>
          have hmem := List.mem_of_mem_take (List.mem_of_getLast? hl)
          exact w.main.le_last e (List.mem_filter.mp hmem).1
      | xclaim consumer minIdle id =>
        refine ⟨?_, le_rfl⟩
        simp only [Op.groupAfter]
        split_ifs <;> exact h.cursor
      | _ => exact ⟨h.cursor, le_rfl⟩
    · exact ⟨h.cursor, le_rfl⟩
  | crash q =>
    obtain rfl : w' = w.rollback q := hw
    exact ⟨h.cursor, le_rfl⟩
  | outer x =>
    obtain rfl : w' = w.tick x := hw
    cases x
    exact ⟨h.cursor, le_rfl⟩

/-- What the commit of a relay makes of an event. -/
theorem Safe.event_commit (h : Safe w past) {q : Pid} {e e' : OutBoxOrderEvent}
    (he : e ∈ w.db.outbox ∨ Write.insEvent e ∈ (w.txn q).writes)
    (hev : EventEvolves (w.txn q).writes e e') :
    Waiting e' ∨ Enqueued past e'.data ∨ DeadLettered past e'.data := by
  have hrow : ∃ o, w.EventRow o e := he.elim (fun he => ⟨none, he⟩) fun he => ⟨some q, he⟩
  obtain ⟨o, hrow⟩ := hrow
  rcases hev.status with rfl | ⟨-, ids, hm, hid⟩ | ⟨u, hm, hu, hs, hr⟩
  · rcases he with he | he
    · exact h.events e' he
    · exact Or.inl (Or.inl (h.new q e' he))
  · obtain ⟨d, hk, hd⟩ := h.published q ids hm e.id hid
    rw [hev.data, known_data h.outboxOk hrow hk]
    exact Or.inr (Or.inl hd)
  · rcases h.reported q u hm with hp | ⟨hf, hn | ⟨d, hk, hd⟩⟩
    · exact Or.inl (Or.inl (hs.trans hp))
    · exact Or.inl (Or.inr (Or.inr ⟨hs.trans hf, u.retryCount, hr, hn⟩))
    · rw [hev.data, known_data h.outboxOk hrow (hu ▸ hk)]
      exact Or.inr (Or.inr hd)

theorem Safe.step (h : Safe w past) (hw : system.WStep w a w') (hg : logic.Guarded w past a w') :
    Safe w' (past ++ [a]) := by
  obtain ⟨hcur, hlast⟩ := h.cursor_step hw
  refine ⟨h.outboxOk.step hw, hcur, ?_, h.copies_step hw hg, ?_, ?_, ?_, ?_⟩
  · intro q id hc
    rcases copiedLast_step hc with hc | ⟨fl, f, x, rfl, hid⟩
    · exact (h.bound q id hc).trans hlast
    · obtain ⟨-, hentry⟩ := hg.2 q fl _ _ rfl
      obtain ⟨d, -, g, hmem, -⟩ := hentry id hid
      exact (w.main.le_last _ hmem).trans hlast
  · intro q ids hm id hid
    rcases wstep_publish hw hm with hm | ⟨f, r, rfl⟩
    · obtain ⟨d, hk, hd⟩ := h.published q ids hm id hid
      exact ⟨d, hk.step hw, hd.mono⟩
    · obtain ⟨d, hk, hd⟩ := hg.2 q f _ r rfl id hid
      exact ⟨d, hk.step hw, hd.mono⟩
  · intro q u hm
    rcases wstep_eventError hw hm with hm | ⟨f, us, r, rfl, hu⟩
    · exact (h.reported q u hm).step hw
    · exact (hg.2 q f _ r rfl u hu).1.step hw
  · intro q e hm
    rcases wstep_insEvent hw hm with hm | ⟨f, d, r, -, rfl, -⟩
    · exact h.new q e hm
    · rfl
  · intro e' he'
    have hmono : ∀ d, Enqueued past d ∨ DeadLettered past d →
        Enqueued (past ++ [a]) d ∨ DeadLettered (past ++ [a]) d :=
      fun d hd => hd.imp Enqueued.mono DeadLettered.mono
    rcases wstep_event hw he' with hmem | ⟨e, -, t, rfl, -⟩ | ⟨q, f, r, e, -, -, hmem, hev⟩
    · exact (h.events e' hmem).imp_right (hmono _)
    · exact Or.inl (Or.inr (Or.inl rfl))
    · exact (h.event_commit hmem hev).imp_right (hmono _)

theorem Safe.empty : Safe World.empty [] := by
  refine ⟨OutboxOk.empty, le_rfl, ?_, ?_, ?_, ?_, ?_, ?_⟩
  · rintro q id ⟨fl, f, x, hl, -⟩
    simp [lastOf] at hl
  · rintro d (⟨q, fl, f, x, hm, -⟩ | ⟨q, fl, f, x, hm, -⟩) <;> simp at hm
  all_goals simp [World.empty, Db.empty, Txn.empty]

/-! ## Accepted payments -/

/-- The payload carries the transaction id `t`. -/
def Carries (t : Id) (d : Json) : Prop := d.get "transaction_id" = .ok (.int t)

/-- The outbox or a stream holds the payment `t` for somebody to fetch. -/
def Stored (w : World) (t : Id) : Prop :=
  (∃ e ∈ w.db.outbox, Carries t e.data ∧ (e.status = .PENDING ∨ e.status = .PROCESSING)) ∨
    (∃ e ∈ w.main.entries, ∃ d, e.2.data = some d ∧ Carries t d ∧ w.group.Open e.1) ∨
    ∃ e ∈ w.dead.entries, ∃ d, e.2.data = some d ∧ Carries t d

/-- The payment `t` can still be fetched, or a worker acknowledged it after handling it. -/
def Recoverable (c : State) (t : Id) : Prop :=
  Stored c.world t ∨ ∃ d, Carries t d ∧ Acked c.world c.past d

/-- The relay gave the event of `t` up after its last attempt. -/
def GivenUp (c : State) (t : Id) : Prop :=
  ∃ e ∈ c.world.db.outbox, Carries t e.data ∧ e.status = .FAILED ∧
    ∃ n ∈ e.retryCount, MAX_OUTBOX_RETRIES ≤ n

theorem Copy.recoverable {c : State} {t : Id} {d : Json} (ht : Carries t d)
    (h : Copy c.world c.past d) : Recoverable c t := by
  rcases h with ⟨e, he, hd⟩ | ⟨e, he, hd, hopen, -⟩ | hack
  · exact Or.inl (Or.inr (Or.inr ⟨e, he, d, hd, ht⟩))
  · exact Or.inl (Or.inr (Or.inl ⟨e, he, d, hd, ht, hopen⟩))
  · exact Or.inr ⟨d, ht, hack⟩

/-- **No accepted payment is lost silently**: it is recoverable, or its event says that the relay
gave it up. -/
theorem accepted_not_lost {c : State} {tr : List Label}
    (hr : Lts.Run (StepsIf ByStream) (.init World.empty) tr c) {p : Pid} {t : Id}
    (ht : c.thread p = .live (.ret (.accepted t))) : Recoverable c t ∨ GivenUp c t := by
  have hr' : Lts.Run (Lts.restrict Steps fun c a c' => Allows ByStream c a c' ∧ True)
      (.init World.empty) tr c := hr.mono fun _ _ _ hs => ⟨hs.1, hs.2, trivial⟩
  obtain ⟨hH, hS⟩ := lawful_run (J := fun c => Safe c.world c.past) Provenance.empty hr'
    Safe.empty fun c a c' _ hJ hs hg _ => hs.wstep.2 ▸ hJ.step hs.wstep.1 hg
  obtain ⟨s, -, rfl, e, he, traceId, hd⟩ := hH.final ht t rfl
  have hcar : Carries s.id e.data := by
    rw [hd]
    rfl
  rcases hS.events e he with (hw | hw | hw) | hc
  · exact Or.inl (Or.inl (Or.inl ⟨e, he, hcar, Or.inl hw⟩))
  · exact Or.inl (Or.inl (Or.inl ⟨e, he, hcar, Or.inr hw⟩))
  · exact Or.inr ⟨e, he, hcar, hw⟩
  · exact Or.inl ((hS.copies e.data hc).recoverable hcar)

/-- The thread answered `accepted`, with this transaction id. -/
def accepts (c : State) (p : Pid) (t : Id) : Bool :=
  match c.thread p with
  | .live (.ret (.accepted t')) => t' = t
  | _ => false

theorem accepts_iff {c : State} {p : Pid} {t : Id} (h : accepts c p t = true) :
    c.thread p = .live (.ret (.accepted t)) := by
  unfold accepts at h
  split at h
  · rename_i ht
    rw [ht, of_decide_eq_true h]
  · exact absurd h (by simp)

theorem accepted_not_lost_sample : ∃ (c : State) (tr : List Label),
    Lts.Run (StepsIf ByStream) (.init World.empty) tr c ∧
      c.thread 0 = .live (.ret (.accepted 1)) ∧ (Recoverable c 1 ∨ GivenUp c 1) := by
  obtain ⟨tr, c, hr, htest, -⟩ := plays_run 3 byStream (Script.webhook 0 1500001 ++ Script.relay 1)
    (accepts · 0 1) (by decide +kernel) World.empty_closed
  have hr' := hr.mono fun _ _ _ => byStream_steps
  have ht := accepts_iff htest
  exact ⟨c, tr, hr', ht, accepted_not_lost hr' ht⟩

/-- Five relays that Redis fails leave no copy of the payment but the row that says so. -/
theorem lost_to_outage : ∃ (c : State) (tr : List Label),
    Lts.Run (StepsIf ByStream) (.init World.empty) tr c ∧
      c.thread 0 = .live (.ret (.accepted 1)) ∧ ¬ Recoverable c 1 := by
  obtain ⟨tr, c, hr, htest, -⟩ := plays_run 6 byStream
    (Script.webhook 0 1500001 ++ Script.relayDown 1 ++ Script.relayDown 2 ++ Script.relayDown 3 ++
      Script.relayDown 4 ++ Script.relayDown 5)
    (fun c => accepts c 0 1 && (c.world.db.outbox.all fun e => e.status = .FAILED) &&
      c.world.main.entries.isEmpty && c.world.dead.entries.isEmpty) (by decide +kernel)
    World.empty_closed
  simp only [Bool.and_eq_true, List.all_eq_true, decide_eq_true_eq, List.isEmpty_iff] at htest
  obtain ⟨⟨⟨hacc, hfailed⟩, hmain⟩, hdead⟩ := htest
  refine ⟨c, tr, hr.mono fun _ _ _ => byStream_steps, accepts_iff hacc, ?_⟩
  rintro ((⟨e, he, -, hst | hst⟩ | ⟨e, he, -⟩ | ⟨e, he, -⟩) | ⟨d, -, hack⟩)
  · rw [hfailed e he] at hst
    exact absurd hst (by decide)
  · rw [hfailed e he] at hst
    exact absurd hst (by decide)
  · simp [hmain] at he
  · simp [hdead] at he
  · obtain ⟨p, fl, id, r, before, after, -, -, -, f, hf, -⟩ := hack
    simp [hmain] at hf

end Pipeline

end PaymentRecon
