import PaymentRecon.Lib.Drain
import PaymentRecon.Requests.Outbox
import PaymentRecon.Tables.Effects

/-!
# Drain — the outbox runs dry

One run of the relay takes the 100 oldest events that are left, and each of them leaves the outbox or loses
one of its attempts.  So every event is published or given up after as many runs as the attempts of
all events take, however Redis fares; and while Redis answers, one attempt each is enough.
-/

namespace PaymentRecon

open Interleave Streams Requests Drain

namespace Outbox

variable {p : Pid} {w w₁ w' : World} {cs : Calls} {r : Except Exc Response} {d n j : ℕ}
  {sel : List OutBoxOrderEvent} {final : OutBoxOrderEvent → OutBoxOrderEvent} {e : OutBoxOrderEvent}

/-- The event is neither published nor given up. -/
def Unsent (e : OutBoxOrderEvent) : Prop := e.status = .PENDING ∨ e.status = .PROCESSING

instance (e : OutBoxOrderEvent) : Decidable (Unsent e) := inferInstanceAs (Decidable (_ ∨ _))

/-- The attempts an event has left. -/
def attemptsLeft (e : OutBoxOrderEvent) : ℕ :=
  if Unsent e then (MAX_OUTBOX_RETRIES - e.retryCount.getD 0).toNat else 0

/-- One for an event that is left. -/
def unsent (e : OutBoxOrderEvent) : ℕ := if Unsent e then 1 else 0

/-- No session has uncommitted writes, the locks of earlier relays are stale, and every event that is left
has attempts left. -/
structure Ready (w : World) : Prop where
  ids : (w.db.outbox.map (·.id)).Nodup
  closed : ∀ p, (w.txn p).writes = []
  stale : ∀ e ∈ w.db.outbox, Unsent e → e.Claimable (w.clock - lockTimeout)
  tries : ∀ e ∈ w.db.outbox, Unsent e → e.retryCount.getD 0 < MAX_OUTBOX_RETRIES

/-- A run of the relay some time later, in which PostgreSQL does not fail. -/
def Rerun (w w' : World) : Prop :=
  ∃ p d cs r, Executes p processOutboxEvent (w.tick (.tick d)) cs r w' ∧ Sound cs

/-- And Redis answers. -/
def RerunUp (w w' : World) : Prop :=
  ∃ p d cs r, Executes p processOutboxEvent (w.tick (.tick d)) cs r w' ∧ ∀ c ∈ cs, c.fault = .done

theorem RerunUp.rerun (h : RerunUp w w') : Rerun w w' := by
  obtain ⟨p, d, cs, r, hrun, hup⟩ := h
  exact ⟨p, d, cs, r, hrun, fun c hc _ => hup c hc⟩

theorem Ready.quiet (h : Ready w) (id : Id) : ¬ w.EventLocked p id := by
  rintro ⟨q, -, ⟨ids, hw, -⟩ | ⟨u, hw, -⟩⟩ <;> rw [h.closed q] at hw <;> exact absurd hw List.not_mem_nil

/-! ## One run -/

/-- The clock and the other sessions stay as they are. -/
theorem runs_frame {β : Type} {x : App β} {r : Except Exc β} (h : Executes p x w cs r w') :
    w'.clock = w.clock ∧ ∀ q, q ≠ p → w'.txn q = w.txn q := by
  induction h with
  | ret => exact ⟨rfl, fun _ _ => rfl⟩
  | raise => exact ⟨rfl, fun _ _ => rfl⟩
  | call hx _ ih =>
    rcases exec_effect hx with ⟨r₀, heff⟩ | rfl
    · exact ⟨ih.1.trans heff.clock, fun q hq => (ih.2 q hq).trans (heff.others q hq)⟩
    · exact ih

/-- The session of the reports ends with its commit. -/
theorem runs_updates_writes {us : List EventUpdate} {u : Unit} (hw : (w.txn p).writes = [])
    (h : Executes p (processOutboxUpdates us) w cs (.ok u) w') : (w'.txn p).writes = [] := by
  unfold processOutboxUpdates at h
  split_ifs at h
  · obtain ⟨-, -, rfl⟩ := runs_ret.mp h
    exact hw
  · rcases runs_tryCatch.mp h with ⟨u, hbody, -⟩ | ⟨e, w₁, cs₁, cs₂, -, hcatch, -⟩
    · obtain ⟨_, w₁, cs₁, cs₂, -, hrest, -⟩ :=
        (runs_bind.mp hbody).resolve_right fun ⟨e, _, he⟩ => by cases he
      obtain ⟨_, w₂, cs₃, cs₄, -, hcommit, -⟩ :=
        (runs_bind.mp hrest).resolve_right fun ⟨e, _, he⟩ => by cases he
      obtain ⟨f, hx, -⟩ := runs_perform.mp hcommit
      cases f with
      | done =>
        obtain ⟨-, rfl⟩ := hx
        simp [World.commit, Txn.empty]
      | failed =>
        obtain ⟨-, e, -, he⟩ := hx
        cases he
      | lost =>
        obtain ⟨-, -, e, -, he⟩ := hx
        cases he
    · rcases runs_bind.mp hcatch with ⟨_, w₂, cs₃, cs₄, -, hraise, -⟩ | ⟨e', -, he⟩
      · exact absurd (runs_raise.mp hraise).2.1 (by simp)
      · cases he

/-- **One run of the relay**: what became of the rows, and that its session is over. -/
theorem runs_relay (h : Ready w) (hrun : Executes p processOutboxEvent w cs r w') (hs : Sound cs) :
    (w'.txn p).writes = [] ∧ ∃ sel final, Ran w cs r w' sel final := by
  obtain ⟨sel, final, hran⟩ := runs_processOutboxEvent h.ids (h.closed p) h.quiet hrun hs
  refine ⟨?_, sel, final, hran⟩
  obtain ⟨events, w₁, cs₁, cs₂, hclaim, hrest, rfl⟩ :=
    (runs_bind.mp hrun).resolve_right fun ⟨e, _, he⟩ => by rw [hran.returns] at he; cases he
  obtain ⟨hs₁, hs₂⟩ := sound_append.mp hs
  obtain ⟨-, sel', -, -, rfl⟩ := runs_claimProcessEvents hclaim hs₁
  split_ifs at hrest with hempty
  · obtain ⟨-, -, rfl⟩ := runs_ret.mp hrest
    exact h.closed p
  · obtain ⟨us, w₂, cs₃, cs₄, hevents, hrest₂, rfl⟩ :=
      (runs_bind.mp hrest).resolve_right fun ⟨e, _, he⟩ => by rw [hran.returns] at he; cases he
    obtain ⟨hs₃, hs₄⟩ := sound_append.mp hs₂
    obtain ⟨-, happ, -⟩ := runs_processEvents hevents hs₃
    obtain ⟨u, w₃, cs₅, cs₆, hup, hret, rfl⟩ :=
      (runs_bind.mp hrest₂).resolve_right fun ⟨e, _, he⟩ => by rw [hran.returns] at he; cases he
    obtain ⟨-, -, rfl⟩ := runs_ret.mp hret
    refine runs_updates_writes ?_ hup
    rw [happ.txn]
    exact h.closed p

/-- The call on behalf of a claimed row. -/
theorem Ran.reported (h : Ran w cs r w' sel final) (he : e ∈ sel) :
    ∃ c ∈ redisCalls cs, Reported e (answered c) (final e) := by
  obtain ⟨i, hi, rfl⟩ := List.mem_iff_getElem.mp he
  have hlen := h.events.length_eq
  obtain ⟨-, hrep⟩ := (List.forall₂_iff_get.mp h.events).2 i hi (hlen ▸ hi)
  exact ⟨_, List.getElem_mem _, hrep⟩

/-- A claimed row that is left afterwards is to be tried again. -/
theorem Reported.unsent {ok : Bool} {e' : OutBoxOrderEvent} (h : Reported e ok e') (hu : Unsent e') :
    ok = false ∧ e'.status = .PENDING ∧ e'.retryCount = some (e.retryCount.getD 0 + 1) ∧
      e.retryCount.getD 0 + 1 < MAX_OUTBOX_RETRIES := by
  cases ok with
  | true =>
    exfalso
    cases hv : validateEventData e.data with
    | ok d =>
      obtain rfl := validateEventData_eq hv
      have hst := (h.published rfl hv).1
      rcases hu with hu | hu <;> rw [hst] at hu <;> cases hu
    | error reason =>
      have hst := h.rejected rfl ⟨reason, hv⟩
      rcases hu with hu | hu <;> rw [hst] at hu <;> cases hu
  | false =>
    obtain ⟨hn, hst⟩ := h.retried rfl
    split_ifs at hst with hmax
    · rcases hu with hu | hu <;> rw [hst] at hu <;> cases hu
    · exact ⟨rfl, hst, hn, not_le.mp hmax⟩

/-- The claimable rows are those that are left. -/
theorem Ready.mem_claimables (h : Ready w) (he : e ∈ w.db.outbox) : e ∈ claimables w ↔ Unsent e := by
  rw [claimables, List.mem_filter, decide_eq_true_eq]
  refine ⟨fun hc => ?_, fun hu => ⟨he, h.stale e he hu⟩⟩
  exact hc.2.imp_right fun hp => hp.1

/-- A row that was not claimed did not change; the others have the ids they had. -/
theorem Ran.same_id (h : Ran w cs r w' sel final) (he : e ∈ w.db.outbox) : (final e).id = e.id := by
  by_cases hs : e ∈ sel
  · obtain ⟨c, -, hrep⟩ := h.reported hs
    exact hrep.same.1
  · rw [h.others e he hs]

theorem Ready.tick (h : Ready w) (d : ℕ) : Ready (w.tick (.tick d)) := by
  refine ⟨h.ids, h.closed, fun e he hu => ?_, h.tries⟩
  rcases h.stale e he hu with hp | ⟨hp, t, ht, hlt⟩
  · exact Or.inl hp
  · refine Or.inr ⟨hp, t, ht, hlt.trans_le ?_⟩
    simp only [World.tick]
    push_cast
    omega

/-- After one run the next one is possible. -/
theorem Ready.run (h : Ready w) (hrun : Executes p processOutboxEvent w cs r w') (hs : Sound cs) :
    Ready w' := by
  obtain ⟨hwrites, sel, final, hran⟩ := runs_relay h hrun hs
  obtain ⟨hclock, hothers⟩ := runs_frame hrun
  have hrow : ∀ e' ∈ w'.db.outbox, ∃ e ∈ w.db.outbox, e' = final e := by
    intro e' he'
    rw [hran.db] at he'
    obtain ⟨e, he, rfl⟩ := List.mem_map.mp he'
    exact ⟨e, he, rfl⟩
  refine ⟨?_, fun q => ?_, fun e' he' hu => ?_, fun e' he' hu => ?_⟩
  · have hids : w.db.outbox.map ((·.id) ∘ final) = w.db.outbox.map (·.id) :=
      List.map_congr_left fun e he => hran.same_id he
    rw [hran.db, List.map_map, hids]
    exact h.ids
  · by_cases hq : q = p
    · exact hq ▸ hwrites
    · rw [hothers q hq]
      exact h.closed q
  · obtain ⟨e, he, rfl⟩ := hrow e' he'
    by_cases hsel : e ∈ sel
    · obtain ⟨c, -, hrep⟩ := hran.reported hsel
      exact Or.inl (hrep.unsent hu).2.1
    · rw [hran.others e he hsel] at hu ⊢
      rw [hclock]
      exact h.stale e he hu
  · obtain ⟨e, he, rfl⟩ := hrow e' he'
    by_cases hsel : e ∈ sel
    · obtain ⟨c, -, hrep⟩ := hran.reported hsel
      obtain ⟨-, -, hn, hlt⟩ := hrep.unsent hu
      rw [hn]
      exact hlt
    · rw [hran.others e he hsel] at hu ⊢
      exact h.tries e he hu

/-- A run takes something off the weight of the oldest rows, if the weight says what is left of a row. -/
theorem Ran.lightens {v : OutBoxOrderEvent → ℕ} (h : Ran w cs r w' sel final) (hready : Ready w)
    (hpos : ∀ e, 0 < v e → Unsent e) (hless : ∀ e ∈ sel, v (final e) < v e) :
    Lightens 100 (w.db.outbox.map v) (w'.db.outbox.map v) := by
  have hmem : ∀ e ∈ sel, e ∈ w.db.outbox := fun e he =>
    (List.mem_filter.mp (h.oldest.claimable e he)).1
  rw [h.db, List.map_map]
  refine Lightens.of_rows (fun e he => ?_) ?_
  · by_cases hs : e ∈ sel
    · exact (hless e hs).le
    · exact (congrArg v (h.others e he hs)).le
  · have hleft : (w.db.outbox.countP fun e => 0 < v e) ≤ (claimables w).length := by
      rw [claimables, ← List.countP_eq_length_filter]
      refine List.countP_mono_left fun e he hv => ?_
      exact decide_eq_true (hready.stale e he (hpos e (of_decide_eq_true hv)))
    have htaken : sel.length ≤ w.db.outbox.countP fun e => v (final e) < v e := by
      rw [List.countP_eq_length_filter]
      refine ((h.oldest.nodup.of_map _).subperm fun e he => ?_).length_le
      exact List.mem_filter.mpr ⟨hmem e he, decide_eq_true (hless e he)⟩
    have hlen := h.oldest.length
    show min 100 _ ≤ w.db.outbox.countP fun e => v (final e) < v e
    omega

/-! ## However Redis fares -/

theorem unsent_of_attemptsLeft (h : 0 < attemptsLeft e) : Unsent e := by
  by_contra hu
  rw [attemptsLeft, if_neg hu] at h
  exact absurd h (lt_irrefl 0)

theorem Ran.attempts (h : Ran w cs r w' sel final) (hready : Ready w) :
    ∀ e ∈ sel, attemptsLeft (final e) < attemptsLeft e := by
  intro e he
  have hclaim := h.oldest.claimable e he
  have hmem := (List.mem_filter.mp hclaim).1
  have hu := (hready.mem_claimables hmem).mp hclaim
  have htries := hready.tries e hmem hu
  obtain ⟨c, -, hrep⟩ := h.reported he
  rw [attemptsLeft, attemptsLeft, if_pos hu]
  split_ifs with hu'
  · obtain ⟨-, -, hn, -⟩ := hrep.unsent hu'
    rw [hn, Option.getD_some]
    omega
  · omega

theorem rerun_ready (h : Ready w) (hrun : Rerun w w') :
    Ready w' ∧ Lightens 100 (w.db.outbox.map attemptsLeft) (w'.db.outbox.map attemptsLeft) := by
  obtain ⟨p, d, cs, r, hrun, hs⟩ := hrun
  have hd := h.tick d
  obtain ⟨-, sel, final, hran⟩ := runs_relay hd hrun hs
  exact ⟨hd.run hrun hs, hran.lightens hd (fun _ => unsent_of_attemptsLeft) (hran.attempts hd)⟩

/-- What became of an event that is not left. -/
theorem done_of_not_unsent (h : ¬ Unsent e) : e.status = .PUBLISHED ∨ e.status = .FAILED := by
  unfold Unsent at h
  cases hst : e.status <;> simp_all

/-- An event with attempts left is left. -/
theorem Ready.attempts_pos (h : Ready w) (he : e ∈ w.db.outbox) (hu : Unsent e) :
    0 < attemptsLeft e := by
  have htries := h.tries e he hu
  rw [attemptsLeft, if_pos hu]
  omega

theorem drains_whatever (h : Ready w) (hnew : ∀ e ∈ w.db.outbox, 0 ≤ e.retryCount.getD 0)
    (hrun : Rounds Rerun n w w') (hsum : (w.db.outbox.map attemptsLeft).sum ≤ 100 * j)
    (hn : j + 4 ≤ n) : ∀ e ∈ w'.db.outbox, ¬ Unsent e := by
  obtain ⟨hready, hrounds⟩ := hrun.map (fun w => w.db.outbox.map attemptsLeft) h
    fun _ _ hI hR => rerun_ready hI hR
  have htop : ∀ x ∈ w.db.outbox.map attemptsLeft, x ≤ 5 := by
    intro x hx
    obtain ⟨e, he, rfl⟩ := List.mem_map.mp hx
    have h0 := hnew e he
    unfold attemptsLeft MAX_OUTBOX_RETRIES
    split_ifs <;> omega
  intro e he hu
  have hzero := drained hrounds htop hsum (by omega) _ (List.mem_map_of_mem he)
  exact absurd (hready.attempts_pos he hu) (by omega)

/-! ## While Redis answers -/

/-- The events that are left. -/
def unsentRows (w : World) : List OutBoxOrderEvent := w.db.outbox.filter fun e => Unsent e

/-- The payloads among them that the relay sends on. -/
def payloads (es : List OutBoxOrderEvent) : List (Option Json) :=
  (es.filter fun e => (validateEventData e.data).toOption.isSome).map fun e => some e.data

/-- The data of the entries of the main stream. -/
def streamed (w : World) : List (Option Json) := w.main.entries.map fun e => e.2.data

theorem enqueued_payloads {now : ℕ} (h : List.Forall₂ (fun (e : OutBoxOrderEvent) (c : Call sig Exc) =>
      c.op = relayOp now e.claimed) sel cs) (hup : ∀ c ∈ cs, c.fault = .done) :
    (cs.filterMap enqueued).map (·.data) = payloads sel := by
  induction h with
  | nil => rfl
  | @cons e c sel cs hec _ ih =>
    rw [List.forall_mem_cons] at hup
    have hone : (enqueued c).toList.map (·.data) = payloads [e] := by
      obtain ⟨f, op, a⟩ := c
      obtain rfl : f = .done := hup.1
      replace hec : op = relayOp now e.claimed := hec
      cases hv : validateEventData e.data with
      | ok d =>
        obtain rfl := validateEventData_eq hv
        simp only [relayOp, OutBoxOrderEvent.claimed, hv] at hec
        subst hec
        simp [payloads, hv, enqueued, Except.toOption]
      | error reason =>
        simp only [relayOp, OutBoxOrderEvent.claimed, hv] at hec
        subst hec
        simp [payloads, hv, enqueued, Except.toOption]
    have hcons : payloads (e :: sel) = payloads [e] ++ payloads sel := by
      unfold payloads
      rw [← List.singleton_append, List.filter_append, List.map_append]
    rw [hcons, ← hone, ← ih hup.2, List.filterMap_cons]
    cases enqueued c <;> rfl

theorem payloads_perm {es es' : List OutBoxOrderEvent} (h : es.Perm es') :
    (payloads es).Perm (payloads es') := (h.filter _).map _

theorem payloads_append {es es' : List OutBoxOrderEvent} :
    payloads (es ++ es') = payloads es ++ payloads es' := by
  simp [payloads]

/-- While Redis answers, a claimed row is not left. -/
theorem Ran.none_left (h : Ran w cs r w' sel final) (hup : ∀ c ∈ cs, c.fault = .done) (he : e ∈ sel) :
    ¬ Unsent (final e) := by
  obtain ⟨c, hc, hrep⟩ := h.reported he
  intro hu
  have hok := (hrep.unsent hu).1
  rw [answered, hup c (List.mem_of_mem_filter hc)] at hok
  exact absurd hok (by simp)

/-- The rows that are left before the run: those it claimed, and those that are left after it. -/
theorem Ran.split (h : Ran w cs r w' sel final) (hready : Ready w)
    (hup : ∀ c ∈ cs, c.fault = .done) : (sel ++ unsentRows w').Perm (unsentRows w) := by
  classical
  have hsel : ∀ e ∈ sel, e ∈ w.db.outbox ∧ Unsent e := by
    intro e he
    have hclaim := h.oldest.claimable e he
    have hmem := (List.mem_filter.mp hclaim).1
    exact ⟨hmem, (hready.mem_claimables hmem).mp hclaim⟩
  -- the rows that are left did not change
  have hrest : unsentRows w' = (unsentRows w).filter fun e => decide (e ∉ sel) := by
    unfold unsentRows
    rw [h.db, List.filter_map, List.filter_filter]
    have hsame : ∀ e ∈ w.db.outbox, ((fun e => decide (Unsent e)) ∘ final) e =
        (decide (e ∉ sel) && decide (Unsent e)) := by
      intro e he
      by_cases hs : e ∈ sel
      · simpa [hs] using h.none_left hup hs
      · simp [hs, h.others e he hs]
    rw [List.filter_congr hsame]
    refine (List.map_congr_left fun e he => ?_).trans (List.map_id _)
    obtain ⟨hmem, hin⟩ := List.mem_filter.mp he
    exact h.others e hmem (by simpa using (Bool.and_eq_true_iff.mp hin).1)
  rw [hrest]
  have hnd : (unsentRows w).Nodup := (hready.ids.of_map _).filter _
  refine (List.perm_ext_iff_of_nodup ?_ hnd).mpr fun e => ?_
  · refine (h.oldest.nodup.of_map _).append (hnd.filter _) fun e he he' => ?_
    exact absurd he (by simpa using (List.mem_filter.mp he').2)
  · rw [List.mem_append, List.mem_filter]
    constructor
    · rintro (he | he)
      · obtain ⟨hmem, hu⟩ := hsel e he
        exact List.mem_filter.mpr ⟨hmem, decide_eq_true hu⟩
      · exact he.1
    · intro he
      by_cases hs : e ∈ sel
      · exact Or.inl hs
      · exact Or.inr ⟨he, decide_eq_true hs⟩

/-- What has been published since `w₀`. -/
structure Sent (w₀ w : World) : Prop where
  ready : Ready w
  streamed : ∃ L, streamed w = streamed w₀ ++ L ∧
    (L ++ payloads (unsentRows w)).Perm (payloads (unsentRows w₀))

theorem Ready.sent (h : Ready w) : Sent w w := ⟨h, [], by simp, .refl _⟩

theorem Sent.run {w₀ : World} (h : Sent w₀ w) (hrun : RerunUp w w') :
    Sent w₀ w' ∧ Lightens 100 (w.db.outbox.map unsent) (w'.db.outbox.map unsent) := by
  obtain ⟨p, d, cs, r, hrun, hup⟩ := hrun
  have hd := h.ready.tick d
  have hs : Sound cs := fun c hc _ => hup c hc
  obtain ⟨-, sel, final, hran⟩ := runs_relay hd hrun hs
  constructor
  · obtain ⟨L, hL, hperm⟩ := h.streamed
    have hcalls : ∀ c ∈ redisCalls cs, c.fault = .done := fun c hc => hup c (List.mem_of_mem_filter hc)
    have hops := hran.events.imp fun e c hec => hec.1
    refine ⟨hd.run hrun hs, L ++ payloads sel, ?_, ?_⟩
    · have hmain := congrArg (List.map (·.data)) hran.main
      rw [List.map_append, List.map_map, List.map_map, enqueued_payloads hops hcalls] at hmain
      rw [← List.append_assoc, ← hL]
      exact hmain
    · have hsplit := payloads_perm (hran.split hd hup)
      rw [payloads_append] at hsplit
      rw [List.append_assoc]
      exact (hsplit.append_left L).trans hperm
  · refine hran.lightens hd (fun e he => ?_) fun e he => ?_
    · by_contra hu
      rw [unsent, if_neg hu] at he
      exact absurd he (lt_irrefl 0)
    · have hclaim := hran.oldest.claimable e he
      have hmem := (List.mem_filter.mp hclaim).1
      have hu : Unsent e := (hd.mem_claimables hmem).mp hclaim
      rw [unsent, unsent, if_neg (hran.none_left hup he), if_pos hu]
      exact one_pos

theorem drains_up (h : Ready w) (hrun : Rounds RerunUp n w w')
    (hn : (unsentRows w).length ≤ 100 * n) :
    (∀ e ∈ w'.db.outbox, ¬ Unsent e) ∧
      ∃ L, streamed w' = streamed w ++ L ∧ L.Perm (payloads (unsentRows w)) := by
  obtain ⟨hsent, hrounds⟩ := hrun.map (fun w => w.db.outbox.map unsent) h.sent
    fun _ _ hI hR => hI.run hR
  have htop : ∀ x ∈ w.db.outbox.map unsent, x ≤ 1 := by
    intro x hx
    obtain ⟨e, -, rfl⟩ := List.mem_map.mp hx
    unfold unsent
    split_ifs <;> simp
  have hsum : (w.db.outbox.map unsent).sum = (unsentRows w).length := by
    rw [unsentRows, ← List.countP_eq_length_filter]
    induction w.db.outbox with
    | nil => rfl
    | cons e es ih =>
      rw [List.map_cons, List.sum_cons, List.countP_cons, ih, unsent]
      simp only [decide_eq_true_eq]
      omega
  have hnone : ∀ e ∈ w'.db.outbox, ¬ Unsent e := by
    intro e he hu
    have hzero := drained hrounds htop (hsum.trans_le hn) le_rfl _ (List.mem_map_of_mem he)
    rw [unsent, if_pos hu] at hzero
    exact absurd hzero one_ne_zero
  refine ⟨hnone, ?_⟩
  obtain ⟨L, hL, hperm⟩ := hsent.streamed
  have hnil : unsentRows w' = [] := List.filter_eq_nil_iff.mpr fun e he => by simpa using hnone e he
  rw [hnil] at hperm
  exact ⟨L, hL, by simpa [payloads] using hperm⟩

/-- A run of the relay is possible. -/
theorem Ready.runs (h : Ready w) (p : Pid) :
    ∃ cs r w', Executes p processOutboxEvent w cs r w' ∧ ∀ c ∈ cs, c.fault = .done := by
  have hall : Reaches system p (Alone p) (Fares fun _ => true) processOutboxEvent :=
    .all all_processOutboxEvent fun op hop w h => fares_relays (fun _ => true) hop h
  have hnone : insertedEvents (w.txn p).writes = [] := by
    rw [h.closed p]
    rfl
  obtain ⟨cs, r, w', hrun, hfares, -⟩ := hall w ⟨h.ids, hnone, h.quiet⟩
  exact ⟨cs, r, w', hrun, fun c hc => by simpa [Fares] using hfares c hc⟩

/-- **The outbox runs dry.**  Runs of the relay are always possible.  While Redis answers, a run for every
100 events that are left is enough: each is published or given up, and what the stream got are the valid
payloads, each one once.  However Redis fares, `j + 4` runs are enough when the events have `100 * j`
attempts left together. -/
theorem outbox_drains (h : Ready w) :
    (∀ n, ∃ w', Rounds RerunUp n w w') ∧
    (∀ n w', Rounds RerunUp n w w' → (unsentRows w).length ≤ 100 * n →
      (∀ e ∈ w'.db.outbox, e.status = .PUBLISHED ∨ e.status = .FAILED) ∧
        ∃ L, streamed w' = streamed w ++ L ∧ L.Perm (payloads (unsentRows w))) ∧
    ((∀ e ∈ w.db.outbox, 0 ≤ e.retryCount.getD 0) → ∀ n j w', Rounds Rerun n w w' →
      (w.db.outbox.map attemptsLeft).sum ≤ 100 * j → j + 4 ≤ n →
        ∀ e ∈ w'.db.outbox, e.status = .PUBLISHED ∨ e.status = .FAILED) := by
  refine ⟨fun n => ?_, fun n w' hrun hn => ?_, fun hnew n j w' hrun hsum hn e he => ?_⟩
  · induction n generalizing w with
    | zero => exact ⟨w, .nil w⟩
    | succ n ih =>
      obtain ⟨cs, r, w₁, hrun, hup⟩ := (h.tick 0).runs 0
      have hrun : RerunUp w w₁ := ⟨0, 0, cs, r, hrun, hup⟩
      obtain ⟨w', hrest⟩ := ih (rerun_ready h hrun.rerun).1
      exact ⟨w', .cons hrun hrest⟩
  · obtain ⟨hnone, hsent⟩ := drains_up h hrun hn
    exact ⟨fun e he => done_of_not_unsent (hnone e he), hsent⟩
  · exact done_of_not_unsent (drains_whatever h hnew hrun hsum hn e he)

/-- One run for a payment and an event without amount. -/
theorem outbox_drains_sample : ∃ w', Rounds RerunUp 1 waiting w' ∧
    (∀ e ∈ w'.db.outbox, e.status = .PUBLISHED ∨ e.status = .FAILED) ∧
      streamed w' = [some (transactionData 1 "tx_1" 1500001)] := by
  have hstale : ∀ e ∈ waiting.db.outbox, Unsent e → e.Claimable (waiting.clock - lockTimeout) := by
    decide
  obtain ⟨hruns, hup, -⟩ := outbox_drains ⟨by decide, fun _ => rfl, hstale, by decide⟩
  obtain ⟨w', hrun⟩ := hruns 1
  obtain ⟨hdone, L, hL, hperm⟩ := hup 1 w' hrun (by decide)
  refine ⟨w', hrun, hdone, ?_⟩
  have hpay : payloads (unsentRows waiting) = [some (transactionData 1 "tx_1" 1500001)] := rfl
  rw [hpay, List.perm_singleton] at hperm
  rw [hL, hperm]
  rfl

end Outbox

end PaymentRecon
