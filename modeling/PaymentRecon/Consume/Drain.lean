import PaymentRecon.Consume.Bounded
import PaymentRecon.Lib.Drain
import PaymentRecon.Requests.Batch

/-!
# Drain — the stream runs dry

One turn of the worker takes the ten oldest pending entries and the next ten of the stream.  Each of them is
acknowledged, or its delivery is counted; and an entry with `max_retries` deliveries goes to the
dead-letter stream.  So after as many turns as the deliveries take nothing is pending and nothing unread,
whatever the handlers answer.
-/

namespace PaymentRecon

open Interleave Streams Requests Drain

namespace Batch

variable {p : Pid} {w w₁ w₂ w' : World} {cs : Calls} {worker : Worker} {m : Message}
  {ms ms' : List Message} {n j : ℕ}

/-! ## The pending list -/

/-- A pending entry after the ones with these ids were claimed. -/
def bump (consumer : String) (now : ℕ) (ids : List StreamId) (x : Pending) : Pending :=
  if ids.contains x.id then ⟨x.id, consumer, now, x.timesDelivered + 1⟩ else x

theorem bump_id {consumer : String} {now : ℕ} {ids : List StreamId} {x : Pending} :
    (bump consumer now ids x).id = x.id := by
  unfold bump
  split_ifs <;> rfl

/-- Claiming one more entry. -/
theorem map_bump_claim {g : Group} {consumer : String} {now : ℕ} {id : StreamId} {ids : List StreamId}
    (h : id ∉ ids) : (g.claim consumer now id).pel.map (bump consumer now ids) =
      g.pel.map (bump consumer now (id :: ids)) := by
  simp only [Group.claim, List.map_map]
  refine List.map_congr_left fun x _ => ?_
  by_cases hx : x.id = id
  · simp [bump, hx, h]
  · simp [bump, hx]

/-- All entries are stale. -/
def Stale (w : World) (xs : List Pending) : Prop := ∀ x ∈ xs, 6000 ≤ w.clock - x.deliveredAt

theorem runs_claimEntries_pel {consumer : String} {xs : List Pending} {r : Except Exc (List Message)}
    (hnd : (xs.map (·.id)).Nodup) (hin : ∀ x ∈ xs, x ∈ w.group.pel) (hstale : Stale w xs)
    (h : Executes p (claimEntries consumer 6000
      (xs.map fun x => (x.id, w.clock - x.deliveredAt, x.timesDelivered))) w cs r w')
    (hup : RedisUp cs) :
    w'.group.pel = w.group.pel.map (bump consumer w.clock (xs.map (·.id))) := by
  induction xs generalizing w cs r w' with
  | nil =>
    obtain ⟨-, -, rfl⟩ := runs_ret.mp h
    have hnone : w'.group.pel.map (bump consumer w'.clock []) = w'.group.pel :=
      (List.map_congr_left fun x _ => rfl).trans (List.map_id _)
    exact hnone.symm
  | cons x xs ih =>
    have hall := (runs_claimEntries hnd hin h hup).1
    rw [List.map_cons, List.nodup_cons] at hnd
    rw [List.forall_mem_cons] at hin
    have hstale' := List.forall_mem_cons.mp hstale
    rw [List.map_cons, claimEntries, if_pos hstale'.1] at h
    obtain ⟨es, w₁, cs₁, hclaim, hrest, hup₁⟩ :=
      runs_firm (show Firm (.xclaim consumer 6000 x.id) from trivial) h hup
    have hidle := hstale'.1
    have hable : w.group.claimable w.clock 6000 x.id := ⟨x, hin.1, rfl, by omega⟩
    simp only [Op.run, if_pos hable] at hclaim
    obtain ⟨-, rfl⟩ := hclaim
    -- the other entries keep their deliveries
    have hin' : ∀ y ∈ xs, y ∈ (w.group.claim consumer w.clock x.id).pel := by
      intro y hy
      refine List.mem_map.mpr ⟨y, hin.2 y hy, if_neg fun hid => hnd.1 ?_⟩
      exact List.mem_map.mpr ⟨y, hy, hid⟩
    rcases runs_bind.mp hrest with ⟨ms, w₂, cs₂, cs₃, hdec, hrest₂, rfl⟩ | ⟨e, -, he⟩
    · obtain ⟨hup₂, hup₃⟩ := redisUp_append.mp hup₁
      obtain ⟨-, rfl⟩ := runs_decodeAll hdec hup₂
      rcases runs_bind.mp hrest₂ with ⟨ms', w₃, cs₄, cs₅, hmore, hend, rfl⟩ | ⟨e, -, he⟩
      · obtain ⟨-, -, rfl⟩ := runs_ret.mp hend
        have hpel := ih (w := { w with group := w.group.claim consumer w.clock x.id }) hnd.2 hin'
          hstale'.2 hmore (redisUp_append.mp hup₃).1
        rw [hpel, List.map_cons]
        exact map_bump_claim hnd.1
      · rw [he] at hall
        cases hall
    · rw [he] at hall
      cases hall

/-- Every entry that `XPENDING` lists is claimed. -/
theorem runs_claimStale_pel {consumer : String} {r : Except Exc (List Message)} (hv : w.group.Valid)
    (hstale : Stale w w.group.pel) (h : Executes p (claimStaleMessage consumer 6000 10) w cs r w')
    (hup : RedisUp cs) : w'.group.pel =
      w.group.pel.map (bump consumer w.clock ((w.group.pel.take 10).map (·.id))) := by
  obtain ⟨xs, w₁, cs₁, ⟨hxs, rfl⟩, hrest, hup₁⟩ := runs_firm (show Firm (.xpending 10) from trivial) h hup
  obtain rfl := Except.ok.inj hxs
  refine runs_claimEntries_pel ?_ (fun x hx => List.mem_of_mem_take hx)
    (fun x hx => hstale x (List.mem_of_mem_take hx)) hrest hup₁
  exact hv.nodup.sublist ((List.take_sublist _ _).map _)

/-! ## The loop -/

/-- What the loop over `ms` leaves, whatever the handlers answer: entries leave the pending list, those
without attempts left among them. -/
structure Sheds (worker : Worker) (ms : List Message) (w w' : World) : Prop where
  clock : w'.clock = w.clock
  main : w'.main = w.main
  cursor : w'.group.cursor = w.group.cursor
  pel : ∃ gone : List StreamId, w'.group.pel = w.group.pel.filter (fun x => x.id ∉ gone) ∧
    ∀ m ∈ ms, worker.maxRetries ≤ m.attempts → m.id ∈ gone

theorem Sheds.of_same (hclock : w'.clock = w.clock) (hmain : w'.main = w.main)
    (hgroup : w'.group = w.group) (h : ∀ m ∈ ms, ¬ worker.maxRetries ≤ m.attempts) :
    Sheds worker ms w w' :=
  ⟨hclock, hmain, by rw [hgroup], [], by simp [hgroup], fun m hm hmax => absurd hmax (h m hm)⟩

theorem Sheds.of_xack (hclock : w'.clock = w.clock) (hmain : w'.main = w.main)
    (hgroup : w'.group = w.group.xack m.id) : Sheds worker [m] w w' := by
  refine ⟨hclock, hmain, by rw [hgroup]; rfl, [m.id], by simp [hgroup, Group.xack], fun m' hm' _ => ?_⟩
  rw [List.mem_singleton.mp hm']
  exact List.mem_singleton_self _

theorem Sheds.append (h : Sheds worker ms w w₁) (h' : Sheds worker ms' w₁ w') :
    Sheds worker (ms ++ ms') w w' := by
  obtain ⟨gone, hpel, hgone⟩ := h.pel
  obtain ⟨gone', hpel', hgone'⟩ := h'.pel
  refine ⟨h'.clock.trans h.clock, h'.main.trans h.main, h'.cursor.trans h.cursor, gone ++ gone', ?_, ?_⟩
  · rw [hpel', hpel, List.filter_filter]
    refine List.filter_congr fun x _ => ?_
    simp [not_or, Bool.and_comm]
  · intro m hm hmax
    rcases List.mem_append.mp hm with hm | hm
    · exact List.mem_append_left _ (hgone m hm hmax)
    · exact List.mem_append_right _ (hgone' m hm hmax)

/-- The copy and the acknowledgement. -/
theorem sheds_deadLetter (worker : Worker) {r : Except Exc Unit}
    (h : Executes p (do moveToDeadLetter m; acknowledge m.id) w cs r w') (hup : RedisUp cs) :
    r = .ok () ∧ Sheds worker [m] w w' := by
  rcases runs_bind.mp h with ⟨_, w₁, cs₁, cs₂, hmove, hack, rfl⟩ | ⟨e, hmove, -⟩
  · obtain ⟨hup₁, hup₂⟩ := redisUp_append.mp hup
    obtain ⟨-, rfl⟩ := runs_moveToDeadLetter hmove hup₁
    obtain ⟨rfl, rfl⟩ := runs_acknowledge hack hup₂
    exact ⟨rfl, .of_xack rfl rfl rfl⟩
  · exact absurd (runs_moveToDeadLetter hmove hup).1 (by simp)

theorem sheds_handleFailure {r : Except Exc Unit} {t : Json} (htrace : m.data.get "trace_id" = .ok t)
    (h : Executes p (worker.handleFailure m) w cs r w') (hup : RedisUp cs) :
    r = .ok () ∧ Sheds worker [m] w w' := by
  unfold Worker.handleFailure at h
  rw [htrace, Prog.ofExcept_ok, Prog.ret_bind] at h
  split_ifs at h with hmax
  · rcases runs_tryCatch.mp h with ⟨_, hbody, rfl⟩ | ⟨e, w₁, cs₁, cs₂, hbody, -, rfl⟩
    · exact ⟨rfl, (sheds_deadLetter worker hbody hup).2⟩
    · exact absurd (sheds_deadLetter worker hbody (redisUp_append.mp hup).1).1 (by simp)
  · obtain ⟨-, rfl, rfl⟩ := runs_ret.mp h
    exact ⟨rfl, .of_same rfl rfl rfl fun m' hm' => by rwa [List.mem_singleton.mp hm']⟩

/-- The handler and the notes around it leave the streams alone. -/
theorem runs_processMessage_apart {r : Except Exc Bool} (hW : Lifecycle.HandlersApart worker)
    (ht : Lifecycle.Typed m.data) (h : Executes p (worker.processMessage m) w cs r w')
    (hup : RedisUp cs) :
    (∃ ok, r = .ok ok) ∧ w'.clock = w.clock ∧ w'.main = w.main ∧ w'.group = w.group := by
  obtain ⟨t, htrace⟩ := Lifecycle.typed_get ht "trace_id"
  obtain ⟨handler, hd⟩ := Lifecycle.typed_getHandler worker ht
  unfold Worker.processMessage at h
  rw [htrace, Prog.ofExcept_ok, Prog.ret_bind] at h
  obtain ⟨_, w₁, cs₁, hnote, hrest, hup₁⟩ :=
    runs_firm (show Firm (.note (.started m.id)) from trivial) h hup
  obtain rfl := hnote.2
  rw [hd, Prog.ofExcept_ok, Prog.ret_bind] at hrest
  cases handler with
  | none =>
    obtain ⟨-, rfl, rfl⟩ := runs_ret.mp hrest
    exact ⟨⟨false, rfl⟩, rfl, rfl, rfl⟩
  | some handler =>
    -- the handler never raises past `_process_message`
    have hresult : ∀ cs₂ w₂ a, Executes p (handlerResult handler m) w₁ cs₂ a w₂ →
        (∃ ok, a = .ok ok) ∧ w₂.clock = w₁.clock ∧ w₂.main = w₁.main ∧ w₂.group = w₁.group := by
      intro cs₂ w₂ a hrun
      have hbody : ∀ b cs₃ w₃, Executes p (do let result ← handler m; pure (result.getD true)) w₁ cs₃ b w₃ →
          w₃.clock = w₁.clock ∧ w₃.main = w₁.main ∧ w₃.group = w₁.group := by
        intro b cs₃ w₃ hx
        have happ := runs_apart hx
          (R := fun _ => True) (Prog.All.bind (hW _ _ _ hd) (fun _ _ => trivial) fun _ _ => trivial)
        exact ⟨happ.1, happ.2.1, happ.2.2.2⟩
      rcases runs_tryCatch.mp hrun with ⟨b, hb, rfl⟩ | ⟨e, w₃, cs₃, cs₄, hb, hcatch, rfl⟩
      · exact ⟨⟨b, rfl⟩, hbody _ _ _ hb⟩
      · obtain ⟨rfl, rfl, rfl⟩ := runs_ret.mp hcatch
        exact ⟨⟨_, rfl⟩, hbody _ _ _ hb⟩
    rcases runs_bind.mp hrest with ⟨ok, w₂, cs₂, cs₃, hrun, hmore, rfl⟩ | ⟨e, hrun, rfl⟩
    · obtain ⟨-, hsame⟩ := hresult _ _ _ hrun
      obtain ⟨_, w₃, cs₄, hhandled, hend, -⟩ :=
        runs_firm (show Firm (.note (.handled m.id ok)) from trivial) hmore (redisUp_append.mp hup₁).2
      obtain rfl := hhandled.2
      obtain ⟨-, rfl, rfl⟩ := runs_ret.mp hend
      exact ⟨⟨ok, rfl⟩, hsame⟩
    · obtain ⟨⟨ok, hok⟩, -⟩ := hresult _ _ _ hrun
      cases hok

/-- **One message** is acknowledged, or has attempts left. -/
theorem sheds_processOne {r : Except Exc Unit} (hW : Lifecycle.HandlersApart worker)
    (ht : Lifecycle.Typed m.data) (h : Executes p (worker.processOne m) w cs r w')
    (hup : RedisUp cs) : r = .ok () ∧ Sheds worker [m] w w' := by
  obtain ⟨amount, hamount⟩ := Lifecycle.typed_get ht "amount"
  obtain ⟨t, htrace⟩ := Lifecycle.typed_get ht "trace_id"
  unfold Worker.processOne at h
  rw [hamount, Prog.ofExcept_ok, Prog.ret_bind] at h
  split_ifs at h with hfalsy
  · exact sheds_deadLetter worker h hup
  · rcases runs_bind.mp h with ⟨ok, w₁, cs₁, cs₂, hrun, hrest, rfl⟩ | ⟨e, hrun, rfl⟩
    · obtain ⟨hup₁, hup₂⟩ := redisUp_append.mp hup
      obtain ⟨-, hclock, hmain, hgroup⟩ := runs_processMessage_apart hW ht hrun hup₁
      have hend : r = .ok () ∧ Sheds worker [m] w₁ w' := by
        split_ifs at hrest
        · obtain ⟨rfl, rfl⟩ := runs_acknowledge hrest hup₂
          exact ⟨rfl, .of_xack rfl rfl rfl⟩
        · exact sheds_handleFailure htrace hrest hup₂
      have hsame : Sheds worker [] w w₁ := .of_same hclock hmain hgroup (by simp)
      exact ⟨hend.1, hsame.append hend.2⟩
    · obtain ⟨⟨ok, hok⟩, -⟩ := runs_processMessage_apart hW ht hrun hup
      cases hok

theorem sheds_loop {r : Except Exc Unit} (hW : Lifecycle.HandlersApart worker)
    (ht : ∀ m ∈ ms, Lifecycle.Typed m.data)
    (h : Executes p (Prog.forEach worker.processOne ms) w cs r w') (hup : RedisUp cs) :
    r = .ok () ∧ Sheds worker ms w w' := by
  induction ms generalizing w cs with
  | nil =>
    obtain ⟨-, rfl, rfl⟩ := runs_ret.mp h
    exact ⟨rfl, .of_same rfl rfl rfl (by simp)⟩
  | cons m ms ih =>
    rw [List.forall_mem_cons] at ht
    rcases runs_bind.mp h with ⟨_, w₁, cs₁, cs₂, hone, hrest, rfl⟩ | ⟨e, hone, rfl⟩
    · obtain ⟨hup₁, hup₂⟩ := redisUp_append.mp hup
      obtain ⟨rfl, hmore⟩ := ih ht.2 hrest hup₂
      exact ⟨rfl, (sheds_processOne hW ht.1 hone hup₁).2.append hmore⟩
    · exact absurd (sheds_processOne hW ht.1 hone hup).1 (by simp)

/-! ## One turn -/

/-- The group is in order, its pending entries are in the stream, and the entries of the stream can be
processed. -/
structure Fit (w : World) : Prop where
  valid : w.group.Valid
  backed : ∀ x ∈ w.group.pel, ∃ e ∈ w.main.entries, e.1 = x.id
  typed : ∀ e ∈ w.main.entries, Lifecycle.Typed e.2.loads

/-- A turn of the worker, with Redis up, when every pending entry is stale. -/
def Turn (worker : Worker) (w w' : World) : Prop :=
  ∃ p d cs r, Stale (w.tick (.tick d)) w.group.pel ∧
    Executes p worker.turn (w.tick (.tick d)) cs r w' ∧ RedisUp cs

theorem typed_decoded {now : ℕ} {attempts : Fields → ℤ} {es : List (StreamId × Fields)}
    (h : ∀ e ∈ es, Lifecycle.Typed e.2.loads) : ∀ m ∈ decoded now attempts es, Lifecycle.Typed m.data := by
  intro m hm
  obtain ⟨e, he, rfl⟩ := List.mem_map.mp hm
  exact h e he

theorem Fit.typed_stale (h : Fit w) : ∀ m ∈ staleMessages w, Lifecycle.Typed m.data := by
  intro m hm
  obtain ⟨x, -, hx⟩ := List.mem_flatMap.mp hm
  unfold claimedMessages at hx
  split_ifs at hx
  · exact typed_decoded (fun e he => h.typed e (Stream.mem_xrange.mp he).1) m hx
  · exact absurd hx List.not_mem_nil

theorem Fit.typed_fresh (h : Fit w) : ∀ m ∈ freshMessages w, Lifecycle.Typed m.data :=
  typed_decoded fun e he => h.typed e (Group.mem_of_mem_unread he)

/-- A claimed entry that has no attempts left. -/
theorem Fit.mem_stale (h : Fit w) (hstale : Stale w w.group.pel) {x : Pending}
    (hx : x ∈ w.group.pel.take 10) :
    ∃ m ∈ staleMessages w, m.id = x.id ∧ m.attempts = x.timesDelivered := by
  have hpel := List.mem_of_mem_take hx
  obtain ⟨e, he, hid⟩ := h.backed x hpel
  refine ⟨⟨e.1, e.2.loads, x.timesDelivered, e.2.createdAt.getD w.clock⟩, ?_, hid, rfl⟩
  refine List.mem_flatMap.mpr ⟨x, hx, ?_⟩
  rw [claimedMessages, if_pos (hstale x hpel)]
  exact List.mem_map.mpr ⟨e, Stream.mem_xrange.mpr ⟨he, hid.ge, hid.le⟩, rfl⟩

/-- The pending entries after the stale ones were claimed, and those that are read. -/
def claimedPel (worker : Worker) (w : World) : List Pending :=
  w.group.pel.map (bump worker.workerId w.clock ((w.group.pel.take 10).map (·.id)))

def freshPel (worker : Worker) (w : World) : List Pending :=
  (w.group.unread w.main 10).map fun e => ⟨e.1, worker.workerId, w.clock, 1⟩

/-- What one turn does to the group. -/
structure Turned (worker : Worker) (w w' : World) : Prop where
  main : w'.main = w.main
  clock : w'.clock = w.clock
  cursor : w'.group.cursor =
    (w.group.deliver worker.workerId w.clock (w.group.unread w.main 10)).cursor
  pel : ∃ gone gone' : List StreamId, w'.group.pel =
      ((claimedPel worker w).filter (fun x => x.id ∉ gone) ++ freshPel worker w).filter
        (fun x => x.id ∉ gone') ∧
    ∀ x ∈ w.group.pel.take 10, worker.maxRetries ≤ x.timesDelivered → x.id ∈ gone

theorem runs_batch_turned {r : Except Exc Unit} (hW : Lifecycle.HandlersApart worker) (h : Fit w)
    (hstale : Stale w w.group.pel) (hrun : Executes p worker.processBatch w cs r w')
    (hup : RedisUp cs) : Turned worker w w' := by
  rcases runs_bind.mp hrun with ⟨stale, w₁, cs₁, cs₂, hclaim, hrest, rfl⟩ | ⟨e, hclaim, rfl⟩
  · obtain ⟨hup₁, hup₂⟩ := redisUp_append.mp hup
    have hbump := runs_claimStale_pel h.valid hstale hclaim hup₁
    obtain ⟨hms, hred⟩ := runs_claimStaleMessage h.valid hclaim hup₁
    obtain rfl := Except.ok.inj hms
    rcases runs_bind.mp hrest with ⟨_, w₂, cs₃, cs₄, hloop, hrest₂, rfl⟩ | ⟨e, hloop, rfl⟩
    · obtain ⟨hup₃, hup₄⟩ := redisUp_append.mp hup₂
      obtain ⟨-, hshed⟩ := sheds_loop hW h.typed_stale hloop hup₃
      -- the worker reads on from where the group stood
      have hmain₂ : w₂.main = w.main := hshed.main.trans hred.main
      have hclock₂ : w₂.clock = w.clock := hshed.clock.trans hred.clock
      have hcursor₂ : w₂.group.cursor = w.group.cursor := hshed.cursor.trans hred.cursor
      have hunread : w₂.group.unread w₂.main 10 = w.group.unread w.main 10 := by
        rw [Group.unread, hcursor₂, hmain₂]
        rfl
      have hfresh : freshMessages w₂ = freshMessages w := by
        rw [freshMessages, hunread, hclock₂]
        rfl
      rcases runs_bind.mp hrest₂ with ⟨ms, w₃, cs₅, cs₆, hread, hloop', rfl⟩ | ⟨e, hread, rfl⟩
      · obtain ⟨hup₅, hup₆⟩ := redisUp_append.mp hup₄
        obtain ⟨hms, rfl⟩ := runs_readMessages hread hup₅
        obtain rfl := Except.ok.inj hms
        rw [hfresh] at hloop'
        obtain ⟨-, hshed'⟩ := sheds_loop hW h.typed_fresh hloop' hup₆
        obtain ⟨gone, hpel, hgone⟩ := hshed.pel
        obtain ⟨gone', hpel', -⟩ := hshed'.pel
        refine ⟨hshed'.main.trans hmain₂, hshed'.clock.trans hclock₂, ?_, gone, gone', ?_, ?_⟩
        · rw [hshed'.cursor]
          show (Group.deliver _ _ _ _).cursor = _
          rw [hunread]
          simp only [Group.deliver, hcursor₂]
        · rw [hpel']
          simp only [Group.deliver]
          rw [hpel, hbump, hunread, hclock₂]
          rfl
        · intro x hx hmax
          obtain ⟨m, hm, hid, hatt⟩ := h.mem_stale hstale hx
          exact hid ▸ hgone m hm (hatt ▸ hmax)
      · exact absurd (runs_readMessages hread hup₄).1 (by simp)
    · exact absurd (sheds_loop hW h.typed_stale hloop hup₂).1 (by simp)
  · exact absurd (runs_claimStaleMessage h.valid hclaim hup).1 (by simp)

/-! ## What is left of an entry -/

/-- The turns that a delivered entry may still take. -/
def weight (worker : Worker) (k : ℕ) : ℕ := worker.maxRetries.toNat - k + 1

/-- The delivery counts of the entries with this id. -/
def times (xs : List Pending) (id : StreamId) : List ℕ :=
  (xs.filter fun x => x.id = id).map (·.timesDelivered)

/-- The turns that the pending entries with this id may still take. -/
def load (worker : Worker) (xs : List Pending) (id : StreamId) : ℕ :=
  ((times xs id).map (weight worker)).sum

/-- The turns that an entry of the stream may still take. -/
def left (worker : Worker) (w : World) (id : StreamId) : ℕ :=
  if w.group.cursor < id then worker.maxRetries.toNat + 2 else load worker w.group.pel id

section Load

variable {xs ys : List Pending} {id : StreamId} {gone ids : List StreamId} {x : Pending}

theorem load_append : load worker (xs ++ ys) id = load worker xs id + load worker ys id := by
  simp [load, times]

theorem load_gone_le : load worker (xs.filter fun x => x.id ∉ gone) id ≤ load worker xs id := by
  refine List.Sublist.sum_le_sum (((List.filter_sublist.filter _).map _).map _) fun _ _ => Nat.zero_le _

theorem load_gone (h : id ∈ gone) : load worker (xs.filter fun x => x.id ∉ gone) id = 0 := by
  have hnone : times (xs.filter fun x => x.id ∉ gone) id = [] := by
    rw [times, List.filter_filter, List.map_eq_nil_iff, List.filter_eq_nil_iff]
    intro x _
    by_cases hx : x.id = id <;> simp [hx, h]
  rw [load, hnone]
  rfl

theorem load_absent (h : ∀ x ∈ xs, x.id ≠ id) : load worker xs id = 0 := by
  have hnone : times xs id = [] := by
    rw [times, List.map_eq_nil_iff, List.filter_eq_nil_iff]
    exact fun x hx => by simpa using h x hx
  rw [load, hnone]
  rfl

theorem load_single (worker : Worker) (hnd : (xs.map (·.id)).Nodup) (hx : x ∈ xs) :
    load worker xs x.id = weight worker x.timesDelivered := by
  simp [load, times, filter_key hnd hx]

/-- An entry that is claimed. -/
theorem load_bump {consumer : String} {now : ℕ} (hnd : (xs.map (·.id)).Nodup) (hx : x ∈ xs)
    (hin : x.id ∈ ids) :
    load worker (xs.map (bump consumer now ids)) x.id = weight worker (x.timesDelivered + 1) := by
  have hids : ((xs.map (bump consumer now ids)).map (·.id)).Nodup := by
    rw [List.map_map]
    have hsame : xs.map ((·.id) ∘ bump consumer now ids) = xs.map (·.id) :=
      List.map_congr_left fun _ _ => bump_id
    rw [hsame]
    exact hnd
  have hmem : bump consumer now ids x ∈ xs.map (bump consumer now ids) := List.mem_map_of_mem hx
  have hload := load_single worker hids hmem
  rw [bump_id] at hload
  rw [hload, bump, if_pos (List.contains_iff_mem.mpr hin)]

theorem load_bump_other {consumer : String} {now : ℕ} (hout : id ∉ ids) :
    load worker (xs.map (bump consumer now ids)) id = load worker xs id := by
  have hsel : ((fun x : Pending => decide (x.id = id)) ∘ bump consumer now ids) =
      fun x => decide (x.id = id) := by
    funext x
    rw [Function.comp_apply, bump_id]
  have hkeep : ∀ x ∈ xs.filter fun x => x.id = id, bump consumer now ids x = x := by
    intro x hx
    have hid : x.id = id := by simpa using (List.mem_filter.mp hx).2
    exact if_neg fun hmem => hout (hid ▸ List.contains_iff_mem.mp hmem)
  rw [load, load, times, times, List.filter_map, hsel, List.map_congr_left hkeep, List.map_id']

end Load

/-- A weight is never zero. -/
theorem weight_pos {k : ℕ} : 0 < weight worker k := Nat.succ_pos _

theorem weight_le {k : ℕ} : weight worker k ≤ worker.maxRetries.toNat + 1 :=
  Nat.succ_le_succ (Nat.sub_le _ _)

section Step

variable {e : StreamId × Fields}

/-- The entries that a turn takes. -/
def Taken (w : World) (id : StreamId) : Prop :=
  id ∈ (w.group.pel.take 10).map (·.id) ∨ id ∈ (w.group.unread w.main 10).map (·.1)

/-- The pending entries with an id that was not read in this turn. -/
theorem Turned.load_le (h : Turned worker w w') {id : StreamId}
    (hid : id ∉ (w.group.unread w.main 10).map (·.1)) :
    load worker w'.group.pel id ≤ load worker (claimedPel worker w) id := by
  obtain ⟨gone, gone', hpel, -⟩ := h.pel
  rw [hpel]
  refine load_gone_le.trans ?_
  have hfresh : load worker (freshPel worker w) id = 0 := by
    refine load_absent ?_
    rintro x hx rfl
    obtain ⟨e, he, rfl⟩ := List.mem_map.mp hx
    exact hid (List.mem_map_of_mem he)
  rw [load_append, hfresh, add_zero]
  exact load_gone_le

theorem Turned.cursor_le (h : Turned worker w w') : w.group.cursor ≤ w'.group.cursor := by
  rw [h.cursor]
  exact Group.cursor_le_deliver

/-- **Step lemma.** A turn adds nothing to an entry, and takes something off the entries it takes. -/
theorem Turned.entry (hfit : Fit w) (h : Turned worker w w') (he : e ∈ w.main.entries) :
    left worker w' e.1 ≤ left worker w e.1 ∧
      (Taken w e.1 → left worker w' e.1 < left worker w e.1) := by
  by_cases hread : w.group.cursor < e.1
  · -- the entry was not read before
    have hnone : ∀ x ∈ w.group.pel, x.id ≠ e.1 := fun x hx hid =>
      absurd (hfit.valid.behind x hx) (not_le_of_gt (hid ▸ hread))
    rw [left, left, if_pos hread]
    by_cases hin : e ∈ w.group.unread w.main 10
    · have hcursor : ¬ w'.group.cursor < e.1 := by
        rw [h.cursor, not_lt]
        exact Group.le_deliver_cursor hin
      rw [if_neg hcursor]
      have hle : load worker w'.group.pel e.1 ≤ weight worker 1 := by
        obtain ⟨gone, gone', hpel, -⟩ := h.pel
        rw [hpel]
        refine load_gone_le.trans ?_
        have hclaimed : ∀ x ∈ claimedPel worker w, x.id ≠ e.1 := by
          intro x hx
          obtain ⟨y, hy, rfl⟩ := List.mem_map.mp hx
          rw [bump_id]
          exact hnone y hy
        have hold : load worker ((claimedPel worker w).filter fun x => x.id ∉ gone) e.1 = 0 :=
          load_absent fun x hx => hclaimed x (List.mem_of_mem_filter hx)
        rw [load_append, hold, zero_add]
        have hnd : ((freshPel worker w).map (·.id)).Nodup := by
          rw [freshPel, List.map_map]
          have hs : ((w.group.unread w.main 10).map (·.1)).Pairwise (· < ·) :=
            w.main.sorted.sublist (List.Sublist.map _ ((List.take_sublist _ _).trans List.filter_sublist))
          exact hs.imp fun h => h.ne
        have hmem : (⟨e.1, worker.workerId, w.clock, 1⟩ : Pending) ∈ freshPel worker w :=
          List.mem_map_of_mem hin
        exact (load_single worker hnd hmem).le
      have hw := hle.trans weight_le
      exact ⟨by omega, fun _ => by omega⟩
    · have hcursor : w'.group.cursor < e.1 := by
        rw [h.cursor]
        exact Group.deliver_cursor_lt he hread hin
      rw [if_pos hcursor]
      refine ⟨le_rfl, ?_⟩
      rintro (ht | ht)
      · obtain ⟨x, hx, hid⟩ := List.mem_map.mp ht
        exact absurd hid (hnone x (List.mem_of_mem_take hx))
      · obtain ⟨e', he', hid⟩ := List.mem_map.mp ht
        exact absurd (Stream.eq_of_id (Group.mem_of_mem_unread he') he hid ▸ he') hin
  · have hcursor : ¬ w'.group.cursor < e.1 := not_lt.mpr ((not_lt.mp hread).trans h.cursor_le)
    have hfresh : e.1 ∉ (w.group.unread w.main 10).map (·.1) := by
      intro ht
      obtain ⟨e', he', hid⟩ := List.mem_map.mp ht
      exact hread (hid ▸ Group.lt_of_mem_unread he')
    rw [left, left, if_neg hread, if_neg hcursor]
    by_cases htaken : e.1 ∈ (w.group.pel.take 10).map (·.id)
    · obtain ⟨x, hx, hid⟩ := List.mem_map.mp htaken
      have hpelx := List.mem_of_mem_take hx
      have hlt : load worker w'.group.pel e.1 < load worker w.group.pel e.1 := by
        rw [← hid, load_single worker hfit.valid.nodup hpelx]
        by_cases hmax : worker.maxRetries ≤ x.timesDelivered
        · -- it goes to the dead-letter stream
          obtain ⟨gone, gone', hpel, hgone⟩ := h.pel
          have hzero : load worker w'.group.pel x.id = 0 := by
            rw [hpel]
            refine Nat.le_zero.mp (load_gone_le.trans ?_)
            rw [load_append, load_gone (hgone x hx hmax), zero_add]
            refine (load_absent fun y hy hyid => hfresh ?_).le
            obtain ⟨e', he', rfl⟩ := List.mem_map.mp hy
            exact hid ▸ hyid ▸ List.mem_map_of_mem he'
          rw [hzero]
          exact weight_pos
        · have hle := h.load_le (hid ▸ hfresh)
          rw [claimedPel, load_bump hfit.valid.nodup hpelx (List.mem_map_of_mem hx)] at hle
          refine hle.trans_lt ?_
          unfold weight
          omega
      exact ⟨hlt.le, fun _ => hlt⟩
    · refine ⟨(h.load_le hfresh).trans (load_bump_other htaken).le, ?_⟩
      rintro (ht | ht)
      · exact absurd ht htaken
      · exact absurd ht hfresh

end Step

/-! ## Turn after turn -/

/-- What nobody has read yet. -/
def backlog (w : World) : List (StreamId × Fields) := w.main.entries.filter fun e => w.group.cursor < e.1

theorem backlog_ids_nodup : ((backlog w).map (·.1)).Nodup := by
  have hs := w.main.sorted.sublist (List.Sublist.map (·.1) (List.filter_sublist (l := w.main.entries)
    (p := fun e => w.group.cursor < e.1)))
  exact hs.imp fun h => h.ne

/-- An id is pending or not read, and not both. -/
theorem Fit.ids_nodup (h : Fit w) : (w.group.pel.map (·.id) ++ (backlog w).map (·.1)).Nodup := by
  refine h.valid.nodup.append backlog_ids_nodup fun i hi hi' => ?_
  obtain ⟨x, hx, rfl⟩ := List.mem_map.mp hi
  obtain ⟨e, he, hid⟩ := List.mem_map.mp hi'
  have hlt : w.group.cursor < e.1 := by simpa using (List.mem_filter.mp he).2
  exact absurd (h.valid.behind x hx) (not_le_of_gt (hid ▸ hlt))

theorem left_le {id : StreamId} (h : Fit w) : left worker w id ≤ worker.maxRetries.toNat + 2 := by
  unfold left
  split_ifs
  · exact le_rfl
  · by_cases hx : ∃ x ∈ w.group.pel, x.id = id
    · obtain ⟨x, hx, rfl⟩ := hx
      rw [load_single worker h.valid.nodup hx]
      exact weight_le.trans (Nat.le_succ _)
    · rw [load_absent fun x hx' hid => hx ⟨x, hx', hid⟩]
      exact Nat.zero_le _

/-- What is left is pending or not read. -/
theorem left_count (worker : Worker) (w : World) : (w.main.entries.countP fun e => 0 < left worker w e.1) ≤
    w.group.pel.length + (backlog w).length := by
  rw [List.countP_eq_length_filter, ← List.length_map (f := fun e : StreamId × Fields => e.1)]
  have hnd : ((w.main.entries.filter fun e => 0 < left worker w e.1).map (·.1)).Nodup :=
    (w.main.sorted.sublist (List.filter_sublist.map _)).imp fun h => h.ne
  have hsub : ∀ i ∈ (w.main.entries.filter fun e => 0 < left worker w e.1).map (·.1),
      i ∈ w.group.pel.map (·.id) ++ (backlog w).map (·.1) := by
    intro i hi
    obtain ⟨e, he, rfl⟩ := List.mem_map.mp hi
    obtain ⟨hmem, hpos⟩ := List.mem_filter.mp he
    have hpos : 0 < left worker w e.1 := of_decide_eq_true hpos
    unfold left at hpos
    split_ifs at hpos with hread
    · exact List.mem_append_right _ (List.mem_map_of_mem (List.mem_filter.mpr ⟨hmem, by simpa using hread⟩))
    · by_contra hout
      rw [load_absent fun x hx hid => hout ?_] at hpos
      · exact absurd hpos (lt_irrefl 0)
      · exact List.mem_append_left _ (hid ▸ List.mem_map_of_mem hx)
  have hlen := (hnd.subperm hsub).length_le
  simpa using hlen

/-- A turn takes ten of the pending entries and ten of the others, or all there are. -/
theorem Turned.lightens (hfit : Fit w) (h : Turned worker w w') :
    Lightens 10 (w.main.entries.map fun e => left worker w e.1)
      (w'.main.entries.map fun e => left worker w' e.1) := by
  rw [h.main]
  refine Lightens.of_rows (fun e he => (h.entry hfit he).1) ?_
  have htaken : (w.group.pel.take 10).length + ((backlog w).take 10).length ≤
      w.main.entries.countP fun e => left worker w' e.1 < left worker w e.1 := by
    have hnd : ((w.group.pel.take 10).map (·.id) ++ ((backlog w).take 10).map (·.1)).Nodup :=
      hfit.ids_nodup.sublist (((List.take_sublist _ _).map _).append ((List.take_sublist _ _).map _))
    have hsub : ∀ i ∈ (w.group.pel.take 10).map (·.id) ++ ((backlog w).take 10).map (·.1),
        i ∈ (w.main.entries.filter fun e => left worker w' e.1 < left worker w e.1).map (·.1) := by
      intro i hi
      obtain ⟨e, he, rfl⟩ : ∃ e ∈ w.main.entries, e.1 = i := by
        rcases List.mem_append.mp hi with hi | hi
        · obtain ⟨x, hx, rfl⟩ := List.mem_map.mp hi
          exact hfit.backed x (List.mem_of_mem_take hx)
        · obtain ⟨e, he, rfl⟩ := List.mem_map.mp hi
          exact ⟨e, List.mem_of_mem_filter (List.mem_of_mem_take he), rfl⟩
      have hlt := (h.entry hfit he).2 (List.mem_append.mp hi)
      exact List.mem_map_of_mem (List.mem_filter.mpr ⟨he, decide_eq_true hlt⟩)
    have hlen := (hnd.subperm hsub).length_le
    rw [List.countP_eq_length_filter]
    simpa using hlen
  have hcount := left_count worker w
  simp only [List.length_take] at htaken
  omega

theorem Fit.tick (h : Fit w) (d : ℕ) : Fit (w.tick (.tick d)) := ⟨h.valid, h.backed, h.typed⟩

theorem Fit.turned (hfit : Fit w) (h : Turned worker w w') : Fit w' := by
  obtain ⟨gone, gone', hpel, -⟩ := h.pel
  have hids : (w'.group.pel.map (·.id)).Sublist
      (w.group.pel.map (·.id) ++ ((backlog w).take 10).map (·.1)) := by
    have hclaimed : (claimedPel worker w).map (·.id) = w.group.pel.map (·.id) := by
      rw [claimedPel, List.map_map]
      exact List.map_congr_left fun _ _ => bump_id
    have hfresh : (freshPel worker w).map (·.id) = ((backlog w).take 10).map (·.1) := by
      rw [freshPel, List.map_map]
      rfl
    rw [hpel, ← hclaimed, ← hfresh, ← List.map_append]
    exact (List.filter_sublist.trans (List.filter_sublist.append_right _)).map _
  have hmem : ∀ x ∈ w'.group.pel, (∃ y ∈ w.group.pel, y.id = x.id) ∨
      ∃ e ∈ w.group.unread w.main 10, e.1 = x.id := by
    intro x hx
    rcases List.mem_append.mp (hids.subset (List.mem_map_of_mem hx)) with hi | hi
    · exact Or.inl (by simpa using hi)
    · obtain ⟨e, he, hid⟩ := List.mem_map.mp hi
      exact Or.inr ⟨e, he, hid⟩
  refine ⟨⟨?_, fun x hx => ?_⟩, fun x hx => ?_, h.main ▸ hfit.typed⟩
  · exact hfit.ids_nodup.sublist (hids.trans ((List.Sublist.refl _).append ((List.take_sublist _ _).map _)))
  · rcases hmem x hx with ⟨y, hy, hid⟩ | ⟨e, he, hid⟩
    · exact hid ▸ (hfit.valid.behind y hy).trans h.cursor_le
    · rw [h.cursor, ← hid]
      exact Group.le_deliver_cursor he
  · rw [h.main]
    rcases hmem x hx with ⟨y, hy, hid⟩ | ⟨e, he, hid⟩
    · obtain ⟨e, he, heq⟩ := hfit.backed y hy
      exact ⟨e, he, heq.trans hid⟩
    · exact ⟨e, Group.mem_of_mem_unread he, hid⟩

theorem Turn.turned (hW : Lifecycle.HandlersApart worker) (hfit : Fit w) (h : Turn worker w w') :
    Fit w' ∧ Lightens 10 (w.main.entries.map fun e => left worker w e.1)
      (w'.main.entries.map fun e => left worker w' e.1) ∧ w'.main = w.main := by
  obtain ⟨p, d, cs, r, hstale, hrun, hup⟩ := h
  have hd := hfit.tick d
  have hbatch : Turned worker (w.tick (.tick d)) w' := by
    rcases runs_tryCatch.mp hrun with ⟨b, hbody, -⟩ | ⟨e, w₁, cs₁, cs₂, hbody, hcatch, rfl⟩
    · rcases runs_bind.mp hbody with ⟨_, w₁, cs₁, cs₂, hrun₁, hret, rfl⟩ | ⟨e, -, he⟩
      · obtain ⟨-, -, rfl⟩ := runs_ret.mp hret
        exact runs_batch_turned hW hd hstale hrun₁ (redisUp_append.mp hup).1
      · cases he
    · obtain ⟨-, -, rfl⟩ := runs_ret.mp hcatch
      rcases runs_bind.mp hbody with ⟨_, w₁, cs₃, cs₄, -, hret, -⟩ | ⟨e', hrun₁, -⟩
      · cases (runs_ret.mp hret).2.1
      · exact runs_batch_turned hW hd hstale hrun₁ (redisUp_append.mp hup).1
  have hlight := hbatch.lightens hd
  exact ⟨hd.turned hbatch, hlight, hbatch.main⟩

/-- Nothing is pending and nothing unread. -/
structure Dry (w : World) : Prop where
  pel : w.group.pel = []
  backlog : backlog w = []

theorem drained_turns (hW : Lifecycle.HandlersApart worker) (hfit : Fit w)
    (hrun : Rounds (Turn worker) n w w')
    (hsum : (worker.maxRetries.toNat + 2) * (w.group.pel.length + (backlog w).length) ≤ 10 * j)
    (hn : j + worker.maxRetries.toNat + 1 ≤ n) : Dry w' ∧ w'.main = w.main := by
  obtain ⟨⟨hfit', hmain⟩, hrounds⟩ := hrun.map (I := fun v => Fit v ∧ v.main = w.main)
    (fun v => v.main.entries.map fun e => left worker v e.1) ⟨hfit, rfl⟩ fun a b hI hR => by
      obtain ⟨hb, hl, hm⟩ := hR.turned hW hI.1
      exact ⟨⟨hb, hm.trans hI.2⟩, hl⟩
  have htop : ∀ x ∈ w.main.entries.map fun e => left worker w e.1, x ≤ worker.maxRetries.toNat + 2 := by
    intro x hx
    obtain ⟨e, -, rfl⟩ := List.mem_map.mp hx
    exact left_le hfit
  have hcount := left_count worker w
  have htotal := sum_le_left htop
  rw [List.countP_map] at htotal
  have hzero := drained hrounds htop
    (htotal.trans ((Nat.mul_le_mul_left _ hcount).trans hsum)) (by omega)
  have hleft : ∀ e ∈ w'.main.entries, left worker w' e.1 = 0 := fun e he =>
    hzero _ (List.mem_map_of_mem he)
  have hread : ∀ e ∈ w'.main.entries, ¬ w'.group.cursor < e.1 := by
    intro e he hlt
    have h0 := hleft e he
    rw [left, if_pos hlt] at h0
    omega
  refine ⟨⟨List.eq_nil_iff_forall_not_mem.mpr fun x hx => ?_, ?_⟩, hmain⟩
  · obtain ⟨e, he, hid⟩ := hfit'.backed x hx
    have h0 := hleft e he
    rw [left, if_neg (hread e he), hid, load_single worker hfit'.valid.nodup hx] at h0
    exact absurd h0 weight_pos.ne'
  · exact List.filter_eq_nil_iff.mpr fun e he => by simpa using hread e he

/-- Once the clock has moved on, every pending entry is stale. -/
theorem exists_stale (w : World) : ∃ d, Stale (w.tick (.tick d)) w.group.pel := by
  refine ⟨6000 + (w.group.pel.map (·.deliveredAt)).sum, fun x hx => ?_⟩
  have hle := List.le_sum_of_mem (List.mem_map_of_mem (f := fun x : Pending => x.deliveredAt) hx)
  show 6000 ≤ w.clock + _ - x.deliveredAt
  omega

/-- A worker whose handlers come to an end can take its turns. -/
theorem exists_turns {verdict : Message → Except Exc (Option Bool)} (hdet : Determined worker verdict)
    (w : World) (n : ℕ) : ∃ w', Rounds (Turn worker) n w w' := by
  induction n generalizing w with
  | zero => exact ⟨w, .nil w⟩
  | succ n ih =>
    obtain ⟨d, hstale⟩ := exists_stale w
    have hends : Ends worker.turn := fun p =>
      .tryCatch (.bind (ends_processBatch hdet p) fun _ => .ret _) fun _ => .ret _
    obtain ⟨cs, r, w₁, hrun, hup, -⟩ := hends 0 (w.tick (.tick d)) trivial
    obtain ⟨w', hrest⟩ := ih w₁
    exact ⟨w', .cons ⟨0, d, cs, r, hstale, hrun, hup⟩ hrest⟩

/-- **The stream runs dry.**  Whatever the handlers answer and however PostgreSQL fares: after
`j + max_retries + 1` turns of the worker, each when the entries pending then are stale, nothing is pending
and nothing unread, if `10 * j` is at least `max_retries + 2` for each entry pending or unread at first. -/
theorem stream_drains (hW : Lifecycle.HandlersApart worker) (hfit : Fit w)
    (hrun : Rounds (Turn worker) n w w')
    (hsum : (worker.maxRetries.toNat + 2) * (w.group.pel.length + (backlog w).length) ≤ 10 * j)
    (hn : j + worker.maxRetries.toNat + 1 ≤ n) : Dry w' ∧ w'.main = w.main :=
  drained_turns hW hfit hrun hsum hn

theorem choosy_apart : Lifecycle.HandlersApart choosy := by
  intro d handler m h
  obtain rfl := Worker.getHandler_single rfl rfl h
  trivial

/-- Six turns for a payment that is pending, one that is refused again and again, and a message without
an amount. -/
theorem stream_drains_sample : ∃ w', Rounds (Turn choosy) 6 mixed w' ∧ Dry w' ∧ w'.main = mixed.main := by
  obtain ⟨w', hrun⟩ := exists_turns choosy_determined mixed 6
  have hbacked : ∀ x ∈ mixed.group.pel, ∃ e ∈ mixed.main.entries, e.1 = x.id := by
    intro x hx
    obtain rfl : x = ⟨toLex (1, 0), "worker-2", 1, 1⟩ := List.mem_singleton.mp hx
    exact ⟨_, List.mem_cons_self, rfl⟩
  have htyped : ∀ e ∈ mixed.main.entries, Lifecycle.Typed e.2.loads := by
    have hmain : mixed.main.entries = [(toLex (1, 0), paymentFields), (toLex (1, 1), dearFields),
        (toLex (1, 2), amountlessFields)] := rfl
    rw [hmain]
    refine List.forall_mem_cons.mpr ⟨⟨_, rfl, Or.inr ⟨"payment", rfl⟩⟩, ?_⟩
    refine List.forall_mem_cons.mpr ⟨⟨_, rfl, Or.inr ⟨"payment", rfl⟩⟩, ?_⟩
    exact List.forall_mem_singleton.mpr ⟨_, rfl, Or.inr ⟨"payment", rfl⟩⟩
  have hfit : Fit mixed := ⟨mixed_valid, hbacked, htyped⟩
  exact ⟨w', hrun, stream_drains (j := 2) choosy_apart hfit hrun (by decide) (by decide)⟩

end Batch

end PaymentRecon
