import PaymentRecon.Relay.Retries
import PaymentRecon.Requests.Batch

/-!
# Outbox — one run of the relay, end to end

`process_outbox_event` claims the oldest events it may claim, makes one Redis call for each, and reports
on all of them in one transaction.  `relay_run` says what becomes of every row of the outbox and of the
two streams, for every pattern of failures of Redis.
-/

namespace PaymentRecon

open Interleave Streams Requests

namespace Outbox

variable {p : Pid} {w w₁ w' : World} {cs : Calls}

/-! ## The Redis call of an event -/

/-- The calls that reach for Redis. -/
def redisCalls (cs : Calls) : Calls := cs.filter fun c => c.op.OnRedis

/-- Redis answered. -/
def answered (c : Call sig Exc) : Bool := c.fault = .done

/-- What the call appended to the main stream. -/
def enqueued : Call sig Exc → Option Fields
  | ⟨.failed, _, _⟩ => none
  | ⟨_, .xadd f, _⟩ => some f
  | _ => none

/-- What it appended to the dead-letter stream. -/
def deadLettered : Call sig Exc → Option Fields
  | ⟨.failed, _, _⟩ => none
  | ⟨_, .xaddDead f, _⟩ => some f
  | _ => none

/-- What `process_single_outbox_event` asks of Redis at the time `now`. -/
def relayOp (now : ℕ) (e : ClaimedEvent) : Op :=
  match validateEventData e.data with
  | .ok data => .xadd { Fields.none with
      data := some data, createdAt := some now, attempts := some 0 }
  | .error reason => .xaddDead { Fields.none with
      eventId := some e.id, data := some e.data, reason := some reason,
      originalStream := some "pending_orders_queue", createdAt := some now }

/-- What it reports when Redis answers, or does not. -/
def report (e : ClaimedEvent) (ok : Bool) : EventUpdate :=
  let retryCount := e.retryCount.getD 0
  match validateEventData e.data with
  | .ok _ =>
    if ok then ⟨e.id, .PUBLISHED, retryCount, none⟩
    else retryUpdate e.id retryCount
      s!"Max retries ({MAX_OUTBOX_RETRIES}) reached. Last error: {RedisError.message}" RedisError.message
  | .error reason =>
    if ok then ⟨e.id, .FAILED, retryCount, some reason⟩
    else retryUpdate e.id retryCount
      s!"DLQ Redis error after max retries: {RedisError.message}"
      s!"Validation failed ({reason}) + DLQ Redis error: {RedisError.message}"

theorem retryUpdate_id {id : Id} {n : ℤ} {failed pending : String} :
    (retryUpdate id n failed pending).id = id := by
  unfold retryUpdate
  split_ifs <;> rfl

theorem report_id (e : ClaimedEvent) (ok : Bool) : (report e ok).id = e.id := by
  unfold report
  split <;> cases ok <;> first
    | rfl
    | exact retryUpdate_id

/-- PostgreSQL, the clock and the log never fail. -/
def Sound (cs : Calls) : Prop := ∀ c ∈ cs, ¬ c.op.OnRedis → c.fault = .done

theorem sound_append {cs' : Calls} : Sound (cs ++ cs') ↔ Sound cs ∧ Sound cs' :=
  List.forall_mem_append

@[simp] theorem redisCalls_append {cs' : Calls} :
    redisCalls (cs ++ cs') = redisCalls cs ++ redisCalls cs' := List.filter_append _ _

/-- Calls that only append to the streams. -/
structure Appends (cs : Calls) (w w' : World) : Prop where
  db : w'.db = w.db
  txn : w'.txn = w.txn
  clock : w'.clock = w.clock
  main : w'.main.entries.map (·.2) = w.main.entries.map (·.2) ++ (redisCalls cs).filterMap enqueued
  dead : w'.dead.entries.map (·.2) =
    w.dead.entries.map (·.2) ++ (redisCalls cs).filterMap deadLettered

theorem Appends.refl (h : redisCalls cs = []) : Appends cs w w :=
  ⟨rfl, rfl, rfl, by simp [h], by simp [h]⟩

theorem Appends.of_calls {cs' : Calls} (h : Appends cs' w w') (hc : redisCalls cs = redisCalls cs') :
    Appends cs w w' :=
  ⟨h.db, h.txn, h.clock, by rw [hc]; exact h.main, by rw [hc]; exact h.dead⟩

theorem Appends.append {cs' : Calls} (h : Appends cs w w₁) (h' : Appends cs' w₁ w') :
    Appends (cs ++ cs') w w' := by
  refine ⟨h'.db.trans h.db, h'.txn.trans h.txn, h'.clock.trans h.clock, ?_, ?_⟩
  · rw [h'.main, h.main, redisCalls_append, List.filterMap_append, List.append_assoc]
  · rw [h'.dead, h.dead, redisCalls_append, List.filterMap_append, List.append_assoc]

/-- An XADD to one of the streams, however it fares. -/
theorem exec_post {fl : Fault} {op : Op} {r : Except Exc op.Ret}
    (hop : (∃ f, op = .xadd f) ∨ ∃ f, op = .xaddDead f) (h : exec fl p op w r w') :
    Appends [⟨fl, op, r⟩] w w' ∧
      ((fl = .done ∧ ∃ x, r = .ok x) ∨ (fl ≠ .done ∧ r = .error RedisError)) := by
  have hcalls : redisCalls [⟨fl, op, r⟩] = [⟨fl, op, r⟩] := by
    rcases hop with ⟨f, rfl⟩ | ⟨f, rfl⟩ <;> rfl
  have hfails : ∀ e, op.Fails e → e = RedisError := by
    rcases hop with ⟨f, rfl⟩ | ⟨f, rfl⟩ <;> exact fun e he => he
  have hadd : ∀ r₀, op.run p w r₀ w' → fl ≠ .failed → Appends [⟨fl, op, r⟩] w w' := by
    intro r₀ hrun hfl
    rcases hop with ⟨f, rfl⟩ | ⟨f, rfl⟩
    all_goals
      obtain ⟨-, rfl⟩ := hrun
      refine ⟨rfl, rfl, rfl, ?_, ?_⟩ <;> rw [hcalls] <;> cases fl <;>
        simp_all [Stream.xadd, enqueued, deadLettered]
  cases fl with
  | done =>
    refine ⟨hadd r h (by simp), Or.inl ⟨rfl, ?_⟩⟩
    rcases hop with ⟨f, rfl⟩ | ⟨f, rfl⟩ <;> exact ⟨_, h.1⟩
  | failed =>
    obtain ⟨rfl, e, he, rfl⟩ := h
    obtain rfl := hfails e he
    exact ⟨⟨rfl, rfl, rfl, by simp [hcalls, enqueued], by simp [hcalls, deadLettered]⟩,
      Or.inr ⟨by simp, rfl⟩⟩
  | lost =>
    obtain ⟨-, ⟨r₀, hr⟩, e, he, rfl⟩ := h
    obtain rfl := hfails e he
    exact ⟨hadd r₀ hr (by simp), Or.inr ⟨by simp, rfl⟩⟩

/-- An operation outside Redis. -/
theorem runs_sure {β : Type} {op : Op} {g : op.Ret → App β} {r : Except Exc β} (hop : ¬ op.OnRedis)
    (h : Executes p (await op >>= g) w cs r w') (hs : Sound cs) :
    (∃ x w₁ cs₁, op.run p w (.ok x) w₁ ∧ Executes p (g x) w₁ cs₁ r w' ∧ Sound cs₁ ∧
      redisCalls cs = redisCalls cs₁) ∨
      ∃ e, op.run p w (.error e) w' ∧ r = .error e := by
  rcases runs_await.mp h with ⟨x, w₁, cs₁, hx, hrest, rfl⟩ | ⟨f, e, hx, rfl, rfl⟩
  · refine Or.inl ⟨x, w₁, cs₁, hx, hrest, fun c hc => hs c (List.mem_cons_of_mem _ hc), ?_⟩
    exact List.filter_cons_of_neg (by simpa using hop)
  · have hf : f = .done := hs _ List.mem_cons_self hop
    subst hf
    exact Or.inr ⟨e, hx, rfl⟩

/-- The clock. -/
theorem runs_now {β : Type} {g : ℕ → App β} {r : Except Exc β}
    (h : Executes p (await .now >>= g) w cs r w') (hs : Sound cs) :
    ∃ cs₁, Executes p (g w.clock) w cs₁ r w' ∧ Sound cs₁ ∧ redisCalls cs = redisCalls cs₁ := by
  rcases runs_sure (show ¬ Op.OnRedis .now from id) h hs with
    ⟨x, w₁, cs₁, ⟨hx, rfl⟩, hrest, hs₁, hcalls⟩ | ⟨e, hx, -⟩
  · obtain rfl := Except.ok.inj hx
    exact ⟨cs₁, hrest, hs₁, hcalls⟩
  · cases hx.1

/-! ## One event -/

/-- One XADD `op`, which Redis answers or not, makes all the difference. -/
structure Posts {β : Type} (op : Op) (good bad : Except Exc β → Prop) (cs : Calls) (w : World)
    (r : Except Exc β) (w' : World) (c : Call sig Exc) : Prop where
  calls : redisCalls cs = [c]
  op : c.op = op
  appends : Appends cs w w'
  result : if answered c then good r else bad r

theorem runs_xadd {op : Op} {r : Except Exc op.Ret}
    (hop : (∃ f, op = .xadd f) ∨ ∃ f, op = .xaddDead f) (h : Executes p (await op) w cs r w') :
    ∃ c, Posts op (fun r => ∃ x, r = .ok x) (fun r => r = .error RedisError) cs w r w' c := by
  obtain ⟨fl, hx, rfl⟩ := runs_perform.mp h
  obtain ⟨happ, hres⟩ := exec_post hop hx
  refine ⟨⟨fl, op, r⟩, ?_, rfl, happ, ?_⟩
  · rcases hop with ⟨f, rfl⟩ | ⟨f, rfl⟩ <;> rfl
  · rcases hres with ⟨rfl, hr⟩ | ⟨hfl, hr⟩
    · exact hr
    · rw [if_neg (by simpa [answered] using hfl)]
      exact hr

theorem runs_enqueue {data : Json} {r : Except Exc StreamId}
    (h : Executes p (enqueue data) w cs r w') (hs : Sound cs) :
    ∃ c, Posts (.xadd { Fields.none with
        data := some data, createdAt := some w.clock, attempts := some 0 })
      (fun r => ∃ x, r = .ok x) (fun r => r = .error RedisError) cs w r w' c := by
  obtain ⟨cs₁, hx, -, hcalls⟩ := runs_now h hs
  obtain ⟨c, hc, hop, happ, hres⟩ := runs_xadd (Or.inl ⟨_, rfl⟩) hx
  exact ⟨c, hcalls.trans hc, hop, happ.of_calls hcalls, hres⟩

theorem runs_enqueueDeadLetter {data : Json} {id : Id} {reason : String} {r : Except Exc StreamId}
    (h : Executes p (enqueueDeadLetter data id reason) w cs r w') (hs : Sound cs) :
    ∃ c, Posts (.xaddDead { Fields.none with
        eventId := some id, data := some data, reason := some reason,
        originalStream := some "pending_orders_queue", createdAt := some w.clock })
      (fun r => ∃ x, r = .ok x) (fun r => r = .error RedisError) cs w r w' c := by
  obtain ⟨cs₁, hx, -, hcalls⟩ := runs_now h hs
  obtain ⟨c, hc, hop, happ, hres⟩ := runs_xadd (Or.inr ⟨_, rfl⟩) hx
  exact ⟨c, hcalls.trans hc, hop, happ.of_calls hcalls, hres⟩

/-- The `try` around the XADD of an event. -/
theorem runs_reported {x : App StreamId} {op : Op} {u : EventUpdate} {v : Exc → EventUpdate}
    {r : Except Exc EventUpdate}
    (hx : ∀ cs r w', Executes p x w cs r w' → Sound cs → ∃ c,
      Posts op (fun r => ∃ x, r = .ok x) (fun r => r = .error RedisError) cs w r w' c)
    (h : Executes p (Prog.tryCatch (do let _ ← x; pure u)
      fun e => if e.kind = .redisError then pure (v e) else throw e) w cs r w')
    (hs : Sound cs) :
    ∃ c, Posts op (fun r => r = .ok u) (fun r => r = .ok (v RedisError)) cs w r w' c := by
  rcases runs_tryCatch.mp h with ⟨u', hbody, rfl⟩ | ⟨e, w₁, cs₁, cs₂, hbody, hcatch, rfl⟩
  · rcases runs_bind.mp hbody with ⟨_, w₁, cs₁, cs₂, hpost, hret, rfl⟩ | ⟨e, -, he⟩
    · obtain ⟨rfl, hu, rfl⟩ := runs_ret.mp hret
      rw [List.append_nil] at hs ⊢
      obtain ⟨c, hc, hop, happ, hres⟩ := hx _ _ _ hpost hs
      refine ⟨c, hc, hop, happ, ?_⟩
      split_ifs at hres ⊢
      exact hu
    · cases he
  · obtain ⟨hs₁, -⟩ := sound_append.mp hs
    have hraised : Executes p x w cs₁ (.error e) w₁ := by
      rcases runs_bind.mp hbody with ⟨_, w₂, cs₃, cs₄, -, hret, -⟩ | ⟨e', hpost, he⟩
      · obtain ⟨-, hu, -⟩ := runs_ret.mp hret
        cases hu
      · cases he
        exact hpost
    obtain ⟨c, hc, hop, happ, hres⟩ := hx _ _ _ hraised hs₁
    split_ifs at hres with hans
    · obtain ⟨_, hr⟩ := hres
      cases hr
    · cases hres
      rw [if_pos (by rfl)] at hcatch
      obtain ⟨rfl, rfl, rfl⟩ := runs_ret.mp hcatch
      rw [List.append_nil]
      exact ⟨c, hc, hop, happ, by rw [if_neg hans]⟩

/-- **One event**: one Redis call, and the report on it. -/
theorem runs_processSingleOutboxEvent {e : ClaimedEvent} {r : Except Exc EventUpdate}
    (h : Executes p (processSingleOutboxEvent e) w cs r w') (hs : Sound cs) :
    ∃ c, redisCalls cs = [c] ∧ c.op = relayOp w.clock e ∧ Appends cs w w' ∧
      r = .ok (report e (answered c)) := by
  unfold processSingleOutboxEvent at h
  unfold relayOp report
  cases hv : validateEventData e.data with
  | error reason =>
    rw [hv] at h
    obtain ⟨c, hc, hop, happ, hres⟩ := runs_reported (fun _ _ _ => runs_enqueueDeadLetter) h hs
    refine ⟨c, hc, hop, happ, ?_⟩
    split_ifs at hres ⊢ <;> exact hres
  | ok data =>
    rw [hv] at h
    obtain ⟨c, hc, hop, happ, hres⟩ := runs_reported (fun _ _ _ => runs_enqueue) h hs
    refine ⟨c, hc, hop, happ, ?_⟩
    split_ifs at hres ⊢ <;> exact hres

/-- The call was for the event. -/
def Asked (now : ℕ) (e : ClaimedEvent) (c : Call sig Exc) : Prop := c.op = relayOp now e

theorem runs_processEvents {es : List ClaimedEvent} {r : Except Exc (List EventUpdate)}
    (h : Executes p (processEvents es) w cs r w') (hs : Sound cs) :
    List.Forall₂ (Asked w.clock) es (redisCalls cs) ∧ Appends cs w w' ∧
      r = .ok (List.zipWith (fun e c => report e (answered c)) es (redisCalls cs)) := by
  induction es generalizing w cs r w' with
  | nil =>
    obtain ⟨rfl, rfl, rfl⟩ := runs_ret.mp h
    exact ⟨.nil, .refl rfl, rfl⟩
  | cons e es ih =>
    rcases runs_bind.mp h with ⟨u, w₁, cs₁, cs₂, hone, hrest, rfl⟩ | ⟨x, hone, rfl⟩
    · obtain ⟨hs₁, hs₂⟩ := sound_append.mp hs
      obtain ⟨c, hc, hop, happ, hu⟩ := runs_processSingleOutboxEvent hone hs₁
      obtain rfl := Except.ok.inj hu
      rcases runs_bind.mp hrest with ⟨us, w₂, cs₃, cs₄, hmore, hret, rfl⟩ | ⟨x, hmore, rfl⟩
      · obtain ⟨rfl, rfl, rfl⟩ := runs_ret.mp hret
        rw [List.append_nil] at hs₂ ⊢
        obtain ⟨hall, happ', hus⟩ := ih hmore hs₂
        obtain rfl := Except.ok.inj hus
        rw [happ.clock] at hall
        rw [redisCalls_append, hc]
        exact ⟨.cons hop hall, happ.append happ', rfl⟩
      · exact absurd (ih hmore hs₂).2.2 (by simp)
    · obtain ⟨c, -, -, -, hu⟩ := runs_processSingleOutboxEvent hone hs
      cases hu

/-! ## The report -/

/-- A row after the UPDATEs of the events that failed. -/
def failedRow (us : List EventUpdate) (e : OutBoxOrderEvent) : OutBoxOrderEvent :=
  match us.find? fun u => u.id = e.id with
  | some u => e.fail u
  | none => e

/-- A row after the UPDATE of the events that are published. -/
def publishedRow (ids : List Id) (e : OutBoxOrderEvent) : OutBoxOrderEvent :=
  if e.id ∈ ids then e.publish else e

theorem failedRow_none {us : List EventUpdate} {e : OutBoxOrderEvent} (h : ∀ u ∈ us, u.id ≠ e.id) :
    failedRow us e = e := by
  unfold failedRow
  rw [List.find?_eq_none.mpr fun u hu => by simpa using h u hu]

theorem failedRow_of {us : List EventUpdate} {u : EventUpdate} {e : OutBoxOrderEvent}
    (hnd : (us.map (·.id)).Nodup) (hu : u ∈ us) (hid : u.id = e.id) : failedRow us e = e.fail u := by
  unfold failedRow
  cases hf : us.find? fun v => v.id = e.id with
  | none =>
    have hne := List.find?_eq_none.mp hf u hu
    exact absurd hid (by simpa using hne)
  | some v =>
    have hv : v.id = e.id := by simpa using List.find?_some hf
    rw [List.inj_on_of_nodup_map hnd (List.mem_of_find?_eq_some hf) hu (hv.trans hid.symm)]

/-- The UPDATEs of the failed events, one after the other. -/
theorem foldl_eventErrors (us : List EventUpdate) (hnd : (us.map (·.id)).Nodup) (db : Db) :
    (us.map Write.eventError).foldl Write.apply db =
      { db with outbox := db.outbox.map (failedRow us) } := by
  induction us generalizing db with
  | nil =>
    have hid : failedRow [] = id := by
      funext e
      rfl
    simp [hid]
  | cons u us ih =>
    have hnd' := hnd
    rw [List.map_cons, List.nodup_cons] at hnd'
    rw [List.map_cons, List.foldl_cons, ih hnd'.2]
    simp only [Write.apply, List.map_map]
    congr 1
    refine List.map_congr_left fun e _ => ?_
    by_cases hid : e.id = u.id
    · -- the later updates are of other events
      rw [Function.comp_apply, if_pos hid, failedRow_of hnd List.mem_cons_self hid.symm]
      exact failedRow_none fun v hv hve => hnd'.1 (List.mem_map.mpr ⟨v, hv, hve.trans hid⟩)
    · rw [Function.comp_apply, if_neg hid, failedRow, failedRow, List.find?_cons_of_neg]
      simpa using Ne.symm hid

def publishedIds (us : List EventUpdate) : List Id :=
  (us.filter fun u => u.status = .PUBLISHED).map (·.id)

def errorUpdates (us : List EventUpdate) : List EventUpdate :=
  us.filter fun u => u.status ≠ .PUBLISHED

/-- A row after both statements. -/
def reportedRow (us : List EventUpdate) (e : OutBoxOrderEvent) : OutBoxOrderEvent :=
  failedRow (errorUpdates us) (publishedRow (publishedIds us) e)

/-- An event that is not reported on. -/
theorem reportedRow_none {us : List EventUpdate} {e : OutBoxOrderEvent} (h : ∀ u ∈ us, u.id ≠ e.id) :
    reportedRow us e = e := by
  have hpub : publishedRow (publishedIds us) e = e := by
    refine if_neg fun hmem => ?_
    obtain ⟨u, hu, hid⟩ := List.mem_map.mp hmem
    exact h u (List.mem_of_mem_filter hu) hid
  rw [reportedRow, hpub]
  exact failedRow_none fun u hu => h u (List.mem_of_mem_filter hu)

/-- **Each report reaches its row**, whatever the mixture of reports. -/
theorem reportedRow_of {us : List EventUpdate} {u : EventUpdate} {e : OutBoxOrderEvent}
    (hnd : (us.map (·.id)).Nodup) (hu : u ∈ us) (hid : u.id = e.id) :
    reportedRow us e = if u.status = .PUBLISHED then e.publish else e.fail u := by
  have honly : ∀ v ∈ us, v.id = e.id → v = u := fun v hv h =>
    List.inj_on_of_nodup_map hnd hv hu (h.trans hid.symm)
  by_cases hpub : u.status = .PUBLISHED
  · have hin : e.id ∈ publishedIds us :=
      List.mem_map.mpr ⟨u, List.mem_filter.mpr ⟨hu, by simpa using hpub⟩, hid⟩
    rw [reportedRow, publishedRow, if_pos hin, if_pos hpub]
    refine failedRow_none fun v hv h => ?_
    obtain ⟨hv, hst⟩ := List.mem_filter.mp hv
    rw [honly v hv h] at hst
    exact absurd hpub (by simpa using hst)
  · have hout : e.id ∉ publishedIds us := by
      intro h
      obtain ⟨v, hv, hvid⟩ := List.mem_map.mp h
      obtain ⟨hv, hst⟩ := List.mem_filter.mp hv
      rw [honly v hv hvid] at hst
      exact hpub (by simpa using hst)
    rw [reportedRow, publishedRow, if_neg hout, if_neg hpub]
    exact failedRow_of (hnd.sublist (List.filter_sublist.map _))
      (List.mem_filter.mpr ⟨hu, by simpa using hpub⟩) hid

theorem runs_publishStmt {ids : List Id} {r : Except Exc Unit}
    (h : Executes p (publishStmt ids) w cs r w') (hs : Sound cs) :
    r = .ok () ∧ redisCalls cs = [] ∧
      w' = w.flush p (if ids = [] then [] else [.publish ids]) := by
  unfold publishStmt at h
  split_ifs at h with hids
  · obtain ⟨rfl, rfl, rfl⟩ := runs_ret.mp h
    rw [if_pos hids]
    exact ⟨rfl, rfl, by simp [World.flush, World.setTxn]⟩
  · obtain ⟨f, hx, rfl⟩ := runs_perform.mp h
    obtain rfl : f = .done := hs _ List.mem_cons_self id
    obtain ⟨-, rfl, rfl⟩ := hx
    rw [if_neg hids]
    exact ⟨rfl, rfl, rfl⟩

theorem runs_errorStmt {us : List EventUpdate} {r : Except Exc Unit}
    (h : Executes p (errorStmt us) w cs r w') (hs : Sound cs) :
    r = .ok () ∧ redisCalls cs = [] ∧ w' = w.flush p (us.map .eventError) := by
  unfold errorStmt at h
  split_ifs at h with hus
  · obtain ⟨rfl, rfl, rfl⟩ := runs_ret.mp h
    obtain rfl : us = [] := by simpa using hus
    exact ⟨rfl, rfl, by simp [World.flush, World.setTxn]⟩
  · obtain ⟨f, hx, rfl⟩ := runs_perform.mp h
    obtain rfl : f = .done := hs _ List.mem_cons_self id
    obtain ⟨-, rfl, rfl⟩ := hx
    exact ⟨rfl, rfl, rfl⟩

/-- The transaction of the reports. -/
theorem runs_processOutboxUpdates {us : List EventUpdate} {r : Except Exc Unit}
    (hnd : (us.map (·.id)).Nodup) (htxn : (w.txn p).writes = [])
    (h : Executes p (processOutboxUpdates us) w cs r w') (hs : Sound cs) :
    r = .ok () ∧ redisCalls cs = [] ∧ w'.main = w.main ∧ w'.dead = w.dead ∧
      w'.db = { w.db with outbox := w.db.outbox.map (reportedRow us) } := by
  unfold processOutboxUpdates at h
  split_ifs at h with hempty
  · obtain ⟨rfl, rfl, rfl⟩ := runs_ret.mp h
    obtain rfl : us = [] := by simpa using hempty
    have hid : reportedRow [] = id := by
      funext e
      rfl
    exact ⟨rfl, rfl, rfl, rfl, by simp [hid]⟩
  · have hbody : ∀ cs r w', Executes p (do
        publishStmt (publishedIds us); errorStmt (errorUpdates us); await .commit) w cs r w' →
        Sound cs → r = .ok () ∧ redisCalls cs = [] ∧ w'.main = w.main ∧ w'.dead = w.dead ∧
          w'.db = { w.db with outbox := w.db.outbox.map (reportedRow us) } := by
      intro cs r w' h hs
      rcases runs_bind.mp h with ⟨_, w₁, cs₁, cs₂, hpub, hrest, rfl⟩ | ⟨e, hpub, rfl⟩
      · obtain ⟨hs₁, hs₂⟩ := sound_append.mp hs
        obtain ⟨-, hc₁, rfl⟩ := runs_publishStmt hpub hs₁
        rcases runs_bind.mp hrest with ⟨_, w₂, cs₃, cs₄, herr, hcommit, rfl⟩ | ⟨e, herr, rfl⟩
        · obtain ⟨hs₃, hs₄⟩ := sound_append.mp hs₂
          obtain ⟨-, hc₃, rfl⟩ := runs_errorStmt herr hs₃
          obtain ⟨f, hx, rfl⟩ := runs_perform.mp hcommit
          obtain rfl : f = .done := hs₄ _ List.mem_cons_self id
          obtain ⟨rfl, rfl⟩ := hx
          refine ⟨rfl, by simp [hc₁, hc₃]; rfl, rfl, rfl, ?_⟩
          have herrs : ((errorUpdates us).map (·.id)).Nodup :=
            hnd.sublist (List.filter_sublist.map _)
          show (List.foldl Write.apply _ _ : Db) = _
          rw [flush_writes, flush_writes, htxn, if_pos rfl, if_pos rfl, List.nil_append,
            List.foldl_append, foldl_eventErrors _ herrs]
          have hpubs : ∀ db : Db, (if publishedIds us = [] then [] else
              [Write.publish (publishedIds us)]).foldl Write.apply db =
              { db with outbox := db.outbox.map (publishedRow (publishedIds us)) } := by
            intro db
            split_ifs with hnone
            · have hid : publishedRow [] = id := by
                funext e
                exact if_neg (by simp)
              simp [hnone, hid]
            · rfl
          rw [hpubs]
          simp only [List.map_map]
          rfl
        · exact absurd (runs_errorStmt herr hs₂).1 (by simp)
      · exact absurd (runs_publishStmt hpub hs).1 (by simp)
    rcases runs_tryCatch.mp h with ⟨u, hrun, rfl⟩ | ⟨e, w₁, cs₁, cs₂, hrun, -, rfl⟩
    · exact hbody _ _ _ hrun hs
    · exact absurd (hbody _ _ _ hrun (sound_append.mp hs).1).1 (by simp)

/-! ## The claim -/

/-- The rows that may be claimed in `w`. -/
def claimables (w : World) : List OutBoxOrderEvent :=
  w.db.outbox.filter fun e => e.Claimable (w.clock - lockTimeout)

/-- `sel` are the oldest rows that may be claimed, 100 of them or all there are. -/
structure Oldest (w : World) (sel : List OutBoxOrderEvent) : Prop where
  nodup : (sel.map (·.id)).Nodup
  claimable : ∀ e ∈ sel, e ∈ claimables w
  length : sel.length = min 100 (claimables w).length
  oldest : ∀ e ∈ claimables w, e ∉ sel → ∀ e' ∈ sel, e'.createdAt ≤ e.createdAt

theorem Oldest.of_selects {sel : List OutBoxOrderEvent} (hids : (w.db.outbox.map (·.id)).Nodup)
    (hquiet : ∀ id, ¬ w.EventLocked p id) (h : Selects w p (w.clock - lockTimeout) 100 sel) :
    Oldest w sel := by
  have hsub : ∀ e ∈ sel, e ∈ claimables w := fun e he => by
    obtain ⟨hmem, hclaim, -⟩ := h.claimable e he
    exact List.mem_filter.mpr ⟨hmem, by simpa using hclaim⟩
  have hin : ∀ e ∈ claimables w, e ∉ sel → sel.length = 100 ∧ ∀ e' ∈ sel, e'.createdAt ≤ e.createdAt := by
    intro e he hne
    obtain ⟨hmem, hclaim⟩ := List.mem_filter.mp he
    exact h.oldest e hmem (by simpa using hclaim) (hquiet e.id) hne
  refine ⟨h.nodup, hsub, ?_, fun e he hne => (hin e he hne).2⟩
  have hle : sel.length ≤ (claimables w).length :=
    (h.nodup.of_map _ |>.subperm hsub).length_le
  by_cases hall : ∀ e ∈ claimables w, e ∈ sel
  · have hnd : (claimables w).Nodup := (hids.of_map _).filter _
    have hge := (hnd.subperm hall).length_le
    have hlimit := h.length
    omega
  · simp only [not_forall] at hall
    obtain ⟨e, he, hne⟩ := hall
    have hlen := (hin e he hne).1
    omega

/-- What a row has become at the end, when Redis answered (`ok`) or not. -/
structure Reported (e : OutBoxOrderEvent) (ok : Bool) (e' : OutBoxOrderEvent) : Prop where
  same : e'.id = e.id ∧ e'.data = e.data ∧ e'.createdAt = e.createdAt
  unlocked : e'.lockedAt = none
  published : ok = true → validateEventData e.data = .ok e.data →
    e'.status = .PUBLISHED ∧ e'.retryCount = e.retryCount
  rejected : ok = true → (∃ reason, validateEventData e.data = .error reason) → e'.status = .FAILED
  retried : ok = false → e'.retryCount = some (e.retryCount.getD 0 + 1) ∧
    e'.status = if MAX_OUTBOX_RETRIES ≤ e.retryCount.getD 0 + 1 then .FAILED else .PENDING

/-- A report without an answer. -/
theorem report_false (e : ClaimedEvent) : (report e false).retryCount = e.retryCount.getD 0 + 1 ∧
    (report e false).status =
      if MAX_OUTBOX_RETRIES ≤ e.retryCount.getD 0 + 1 then .FAILED else .PENDING := by
  unfold report
  split
  all_goals
    simp only [Bool.false_eq_true, if_false, retryUpdate]
    split_ifs <;> exact ⟨rfl, rfl⟩

/-- The report on a claimed event, written to its row. -/
theorem Reported.of_report (e : OutBoxOrderEvent) (ok : Bool) (now : ℕ) :
    Reported e ok (if (report e.claimed ok).status = .PUBLISHED then (e.claim now).publish
      else (e.claim now).fail (report e.claimed ok)) := by
  cases ok with
  | false =>
    obtain ⟨hn, hst⟩ := report_false e.claimed
    rw [if_neg]
    · exact ⟨⟨rfl, rfl, rfl⟩, rfl, by simp, by simp, fun _ => ⟨congrArg some hn, hst⟩⟩
    · rw [hst]
      split_ifs <;> simp
  | true =>
    cases hv : validateEventData e.data with
    | ok d =>
      have hpub : (report e.claimed true).status = .PUBLISHED := by
        simp [report, OutBoxOrderEvent.claimed, hv]
      rw [if_pos hpub]
      exact ⟨⟨rfl, rfl, rfl⟩, rfl, fun _ _ => ⟨rfl, rfl⟩, fun _ h => absurd h (by simp [hv]), by simp⟩
    | error reason =>
      have hfail : (report e.claimed true).status = .FAILED := by
        simp [report, OutBoxOrderEvent.claimed, hv]
      rw [if_neg (by simp [hfail])]
      exact ⟨⟨rfl, rfl, rfl⟩, rfl, fun _ h => absurd h (by simp [hv]), fun _ _ => hfail, by simp⟩

/-- There are oldest rows to claim. -/
theorem selects_exists (w : World) (p : Pid) (staleLock : ℤ) (limit : ℕ)
    (hids : (w.db.outbox.map (·.id)).Nodup) : ∃ sel, Selects w p staleLock limit sel := by
  classical
  let free := w.db.outbox.filter fun e => e.Claimable staleLock ∧ ¬ w.EventLocked p e.id
  let sorted := free.mergeSort fun e e' => e.createdAt ≤ e'.createdAt
  have hperm : sorted.Perm free := List.mergeSort_perm _ _
  have hmem : ∀ e, e ∈ sorted ↔ e ∈ w.db.outbox ∧ e.Claimable staleLock ∧ ¬ w.EventLocked p e.id := by
    intro e
    rw [hperm.mem_iff, List.mem_filter]
    simp
  have hord : sorted.Pairwise fun e e' => e.createdAt ≤ e'.createdAt := by
    have hp := @List.pairwise_mergeSort OutBoxOrderEvent (fun e e' => e.createdAt ≤ e'.createdAt)
      (fun _ _ _ h h' => decide_eq_true ((of_decide_eq_true h).trans (of_decide_eq_true h')))
      (fun e e' => by simpa using le_total e.createdAt e'.createdAt) free
    exact hp.imp fun h => of_decide_eq_true h
  refine ⟨sorted.take limit, ?_, fun e he => ?_, List.length_take_le _ _, ?_⟩
  · have hfree : (free.map (·.id)).Nodup := hids.sublist (List.filter_sublist.map _)
    exact ((hperm.map (·.id)).nodup_iff.mpr hfree).sublist ((List.take_sublist _ _).map _)
  · exact (hmem e).mp (List.mem_of_mem_take he)
  · intro e he hclaim hfree hnot
    have hin : e ∈ sorted.take limit ++ sorted.drop limit := by
      rw [List.take_append_drop]
      exact (hmem e).mpr ⟨he, hclaim, hfree⟩
    have hdrop : e ∈ sorted.drop limit := (List.mem_append.mp hin).resolve_left hnot
    rw [← List.take_append_drop limit sorted, List.pairwise_append] at hord
    refine ⟨?_, fun e' he' => hord.2.2 e' he' e hdrop⟩
    have hlen := List.length_pos_of_mem hdrop
    rw [List.length_drop] at hlen
    rw [List.length_take]
    omega

/-! ## The whole run -/

/-- What one run of the relay did: it claimed the rows `sel`, made one Redis call for each, in order,
and turned every row `e` into `final e`. -/
structure Ran (w : World) (cs : Calls) (r : Except Exc Response) (w' : World)
    (sel : List OutBoxOrderEvent) (final : OutBoxOrderEvent → OutBoxOrderEvent) : Prop where
  oldest : Oldest w sel
  returns : r = .ok (.relayed sel.length)
  events : List.Forall₂ (fun e c => c.op = relayOp w.clock e.claimed ∧
    Reported e (answered c) (final e)) sel (redisCalls cs)
  others : ∀ e ∈ w.db.outbox, e ∉ sel → final e = e
  db : w'.db = { w.db with outbox := w.db.outbox.map final }
  main : w'.main.entries.map (·.2) =
    w.main.entries.map (·.2) ++ (redisCalls cs).filterMap enqueued
  dead : w'.dead.entries.map (·.2) =
    w.dead.entries.map (·.2) ++ (redisCalls cs).filterMap deadLettered

/-- Related lists, with what `zipWith` makes of each pair. -/
theorem forall₂_zipWith {α β γ : Type} {R : α → β → Prop} (f : α → β → γ) {xs : List α} {ys : List β}
    (h : List.Forall₂ R xs ys) :
    List.Forall₂ (fun x y => x ∈ xs ∧ f x y ∈ List.zipWith f xs ys ∧ R x y) xs ys := by
  induction h with
  | nil => exact .nil
  | cons hxy _ ih =>
    refine .cons ⟨List.mem_cons_self, List.mem_cons_self, hxy⟩ (ih.imp fun x y h => ?_)
    exact ⟨List.mem_cons_of_mem _ h.1, List.mem_cons_of_mem _ h.2.1, h.2.2⟩

/-- The reports are on the claimed events. -/
theorem ids_reports {now : ℕ} {es : List ClaimedEvent} (h : List.Forall₂ (Asked now) es cs) :
    (List.zipWith (fun e c => report e (answered c)) es cs).map (·.id) = es.map (·.id) := by
  induction h with
  | nil => rfl
  | cons _ _ ih => simp [report_id, ih]

theorem runs_claimProcessEvents {r : Except Exc (List ClaimedEvent)}
    (h : Executes p (claimProcessEvents 100) w cs r w') (hs : Sound cs) :
    redisCalls cs = [] ∧ ∃ sel, Selects w p (w.clock - lockTimeout) 100 sel ∧
      r = .ok (sel.map (·.claimed)) ∧ w' = { w with db := w.db.claim (sel.map (·.id)) w.clock } := by
  obtain ⟨cs₁, hclaim, hs₁, hcalls⟩ := runs_now h hs
  obtain ⟨f, hx, rfl⟩ := runs_perform.mp hclaim
  obtain rfl : f = .done := hs₁ _ List.mem_cons_self id
  obtain ⟨sel, hsel, rfl, rfl⟩ := hx
  exact ⟨hcalls, sel, hsel, rfl, rfl⟩

/-- What the reports on the claimed rows make of every row. -/
theorem ran_rows {sel : List OutBoxOrderEvent} {now : ℕ} (hids : (w.db.outbox.map (·.id)).Nodup)
    (hold : Oldest w sel) (h : List.Forall₂ (Asked now) (sel.map (·.claimed)) cs) :
    let us := List.zipWith (fun e c => report e (answered c)) (sel.map (·.claimed)) cs
    let final := fun e : OutBoxOrderEvent =>
      reportedRow us (if e.id ∈ sel.map (·.id) then e.claim w.clock else e)
    List.Forall₂ (fun e c => c.op = relayOp now e.claimed ∧ Reported e (answered c) (final e)) sel cs ∧
      ∀ e ∈ w.db.outbox, e ∉ sel → final e = e := by
  intro us final
  have husids : us.map (·.id) = sel.map (·.id) := by
    rw [ids_reports h, List.map_map]
    rfl
  have husnd : (us.map (·.id)).Nodup := husids ▸ hold.nodup
  constructor
  · have hz := forall₂_zipWith (fun e c => report e (answered c)) h
    rw [List.forall₂_map_left_iff] at hz
    have hself : List.Forall₂ (fun e (_ : Call sig Exc) => e ∈ sel) sel cs := by
      have hlen := h.length_eq
      rw [List.length_map] at hlen
      exact List.forall₂_iff_zip.mpr ⟨hlen, fun hab => (List.of_mem_zip hab).1⟩
    refine List.forall₂_iff_zip.mpr ⟨hself.length_eq, fun {e c} hec => ?_⟩
    obtain ⟨-, hu, hop⟩ := (List.forall₂_iff_zip.mp hz).2 hec
    have he : e ∈ sel := (List.forall₂_iff_zip.mp hself).2 hec
    refine ⟨hop, ?_⟩
    have hfinal : final e = reportedRow us (e.claim w.clock) := by
      show reportedRow us _ = _
      rw [if_pos (List.mem_map_of_mem he)]
    have hrow : reportedRow us (e.claim w.clock) = _ :=
      reportedRow_of husnd hu (report_id e.claimed (answered c))
    rw [hfinal, hrow]
    exact Reported.of_report e (answered c) w.clock
  · intro e he hne
    have hid : e.id ∉ sel.map (·.id) := by
      intro h
      obtain ⟨e', he', heq⟩ := List.mem_map.mp h
      have hmem := (List.mem_filter.mp (hold.claimable e' he')).1
      exact hne (List.inj_on_of_nodup_map hids hmem he heq ▸ he')
    show reportedRow us _ = e
    rw [if_neg hid]
    refine reportedRow_none fun u hu heq => hid ?_
    rw [← husids, ← heq]
    exact List.mem_map_of_mem hu

theorem runs_processOutboxEvent {r : Except Exc Response} (hids : (w.db.outbox.map (·.id)).Nodup)
    (htxn : (w.txn p).writes = []) (hquiet : ∀ id, ¬ w.EventLocked p id)
    (h : Executes p processOutboxEvent w cs r w') (hs : Sound cs) :
    ∃ sel final, Ran w cs r w' sel final := by
  rcases runs_bind.mp h with ⟨events, w₁, cs₁, cs₂, hclaim, hrest, rfl⟩ | ⟨e, hclaim, rfl⟩
  · obtain ⟨hs₁, hs₂⟩ := sound_append.mp hs
    obtain ⟨hc₁, sel, hsel, hev, rfl⟩ := runs_claimProcessEvents hclaim hs₁
    obtain rfl := Except.ok.inj hev
    have hold := Oldest.of_selects hids hquiet hsel
    split_ifs at hrest with hempty
    · -- nothing to relay
      obtain ⟨rfl, rfl, rfl⟩ := runs_ret.mp hrest
      obtain rfl : sel = [] := by simpa using hempty
      refine ⟨[], id, hold, rfl, ?_, fun _ _ _ => rfl, ?_, ?_, ?_⟩
      · simp [hc₁]
      · simp [Db.claim]
      · simp [hc₁]
      · simp [hc₁]
    · rcases runs_bind.mp hrest with ⟨us, w₂, cs₃, cs₄, hevents, hrest₂, rfl⟩ | ⟨e, hevents, rfl⟩
      · obtain ⟨hs₃, hs₄⟩ := sound_append.mp hs₂
        obtain ⟨hall, happ, hus⟩ := runs_processEvents hevents hs₃
        obtain rfl := Except.ok.inj hus
        have hnd := ids_reports hall
        rw [List.map_map] at hnd
        have hnd' : ((List.zipWith (fun e c => report e (answered c)) (sel.map (·.claimed))
            (redisCalls cs₃)).map (·.id)).Nodup := hnd ▸ hold.nodup
        have htxn₂ : (w₂.txn p).writes = [] := by
          rw [happ.txn]
          exact htxn
        rcases runs_bind.mp hrest₂ with ⟨_, w₃, cs₅, cs₆, hup, hret, rfl⟩ | ⟨e, hup, rfl⟩
        · obtain ⟨hs₅, -⟩ := sound_append.mp hs₄
          obtain ⟨-, hc₅, hmain, hdead, hdb⟩ := runs_processOutboxUpdates hnd' htxn₂ hup hs₅
          obtain ⟨rfl, rfl, rfl⟩ := runs_ret.mp hret
          have hcalls : redisCalls (cs₁ ++ (cs₃ ++ (cs₅ ++ []))) = redisCalls cs₃ := by
            simp [hc₁, hc₅]
          obtain ⟨hevs, hothers⟩ := ran_rows hids hold hall
          refine ⟨sel, _, hold, by simp, ?_, hothers, ?_, ?_, ?_⟩
          · rw [hcalls]
            exact hevs
          · rw [hdb, happ.db]
            simp only [Db.claim, List.map_map]
            rfl
          · rw [hcalls, hmain, happ.main]
          · rw [hcalls, hdead, happ.dead]
        · exact absurd (runs_processOutboxUpdates hnd' htxn₂ hup hs₄).1 (by simp)
      · exact absurd (runs_processEvents hevents hs₂).2.2 (by simp)
  · obtain ⟨-, sel, -, he, -⟩ := runs_claimProcessEvents hclaim hs
    cases he

/-! ## However Redis fares -/

/-- The rows are told apart by their ids, the session inserts none, and no other one updates any. -/
structure Alone (p : Pid) (w : World) : Prop where
  ids : (w.db.outbox.map (·.id)).Nodup
  inserts : insertedEvents (w.txn p).writes = []
  quiet : ∀ id, ¬ w.EventLocked p id

/-- Redis answers the calls that `up` says, and nothing else fails. -/
def Fares (up : Op → Bool) (c : Call sig Exc) : Prop :=
  c.fault = if c.op.OnRedis ∧ up c.op = false then .failed else .done

theorem Fares.sound {up : Op → Bool} (h : ∀ c ∈ cs, Fares up c) : Sound cs := by
  intro c hc hop
  have hc := h c hc
  rw [Fares, if_neg fun h => hop h.1] at hc
  exact hc

theorem eventLocked_setTxn {t : Txn} {id : Id} :
    (w.setTxn p t).EventLocked p id ↔ w.EventLocked p id := by
  unfold World.EventLocked
  refine exists_congr fun q => and_congr_right fun hq => ?_
  rw [setTxn_txn, Function.update_of_ne hq]

theorem Alone.flush (h : Alone p w) {ws : List Write} (hws : insertedEvents ws = []) :
    Alone p (w.flush p ws) := by
  refine ⟨h.ids, ?_, fun id hl => h.quiet id (eventLocked_setTxn.mp hl)⟩
  rw [flush_writes, if_pos rfl, insertedEvents_append, h.inserts, hws, List.append_nil]

theorem Alone.rollback (h : Alone p w) : Alone p (w.rollback p) :=
  ⟨h.ids, by simp [World.rollback, Txn.empty, insertedEvents],
    fun id hl => h.quiet id (eventLocked_setTxn.mp hl)⟩

theorem Alone.commit (h : Alone p w) : Alone p (w.commit p) := by
  refine ⟨?_, by simp [World.commit, Txn.empty, insertedEvents],
    fun id hl => h.quiet id (eventLocked_setTxn.mp hl)⟩
  have hids := Db.commit_eventIds w.db (w.txn p).writes
  rw [h.inserts, List.append_nil] at hids
  rw [World.commit_eq, setTxn_db, hids]
  exact h.ids

theorem Alone.claim (h : Alone p w) (ids : List Id) (t : ℕ) :
    Alone p { w with db := w.db.claim ids t } := by
  refine ⟨?_, h.inserts, h.quiet⟩
  have hids : (w.db.claim ids t).outbox.map (·.id) = w.db.outbox.map (·.id) := by
    rw [Db.claim, List.map_map]
    refine List.map_congr_left fun e _ => ?_
    rw [Function.comp_apply]
    split_ifs <;> rfl
  rw [hids]
  exact h.ids

/-- Every operation of the relay can be carried out. -/
theorem fares_relays (up : Op → Bool) {op : Op} (hop : Relays op) (h : Alone p w) :
    ∃ f r w', exec f p op w r w' ∧ Fares up ⟨f, op, r⟩ ∧ Alone p w' := by
  cases op with
  | claimEvents t s l =>
    obtain ⟨sel, hsel⟩ := selects_exists w p s l h.ids
    exact ⟨.done, _, _, ⟨sel, hsel, rfl, rfl⟩, rfl, h.claim _ t⟩
  | publishEvents ids => exact ⟨.done, _, _, ⟨fun id _ => h.quiet id, rfl, rfl⟩, rfl, h.flush rfl⟩
  | failEvents us =>
    refine ⟨.done, _, _, ⟨fun u _ => h.quiet u.id, rfl, rfl⟩, rfl, h.flush ?_⟩
    simp [insertedEvents]
  | xadd f =>
    by_cases hup : up (.xadd f) = false
    · exact ⟨.failed, _, w, ⟨rfl, _, rfl, rfl⟩, (if_pos ⟨trivial, hup⟩).symm, h⟩
    · exact ⟨.done, _, _, ⟨rfl, rfl⟩, (if_neg fun h => hup h.2).symm, h.ids, h.inserts, h.quiet⟩
  | xaddDead f =>
    by_cases hup : up (.xaddDead f) = false
    · exact ⟨.failed, _, w, ⟨rfl, _, rfl, rfl⟩, (if_pos ⟨trivial, hup⟩).symm, h⟩
    · exact ⟨.done, _, _, ⟨rfl, rfl⟩, (if_neg fun h => hup h.2).symm, h.ids, h.inserts, h.quiet⟩
  | now => exact ⟨.done, _, w, ⟨rfl, rfl⟩, rfl, h⟩
  | commit => exact ⟨.done, _, _, ⟨rfl, rfl⟩, rfl, h.commit⟩
  | rollback => exact ⟨.done, _, _, ⟨rfl, rfl⟩, rfl, h.rollback⟩
  | _ => exact hop.elim

/-- **One run of the relay, end to end.**  However Redis fares, the relay comes to an end, and it claims
the oldest rows, tries each one once and leaves each as the answer says.  So in every state that the
service reaches, an event that may be relayed has attempts left. -/
theorem relay_run :
    (∀ (p : Pid) (w : World), (w.db.outbox.map (·.id)).Nodup → (w.txn p).writes = [] →
      (∀ id, ¬ w.EventLocked p id) →
      (∀ up : Op → Bool, ∃ cs r w', Executes p processOutboxEvent w cs r w' ∧ ∀ c ∈ cs, Fares up c) ∧
        ∀ cs r w', Executes p processOutboxEvent w cs r w' → Sound cs →
          ∃ sel final, Ran w cs r w' sel final) ∧
    ∀ w₀ : World, w₀.Closed → OutboxOk w₀ → (w₀.db.outbox.map (·.id)).Nodup →
      (∀ e ∈ w₀.db.outbox, e.retryCount.getD 0 = 0) →
      ∀ (tr : List Label) (c : State), Lts.Run Steps (.init w₀) tr c →
        ∀ e ∈ c.world.db.outbox, e.status = .PENDING ∨ e.status = .PROCESSING →
          e.retryCount.getD 0 < 5 := by
  refine ⟨fun p w hids htxn hquiet => ⟨fun up => ?_, fun cs r w' h hs => ?_⟩, ?_⟩
  · have hall : Reaches system p (Alone p) (Fares up) processOutboxEvent :=
      .all all_processOutboxEvent fun op hop w h => fares_relays up hop h
    have halone : Alone p w := ⟨hids, by rw [htxn]; rfl, hquiet⟩
    obtain ⟨cs, r, w', hrun, hfares, -⟩ := hall w halone
    exact ⟨cs, r, w', hrun, hfares⟩
  · exact runs_processOutboxEvent hids htxn hquiet h hs
  · intro w₀ hclosed hO hids hnew tr c hr
    refine Retries.below_run hclosed hO hids (fun e he _ => ?_) hr
    rw [hnew e he]
    decide

/-- A payment and an event without amount, both of them waiting. -/
def waiting : World :=
  { World.empty with db := { Db.empty with
      outbox := [⟨1, .PENDING, transactionData 1 "tx_1" 1500001, 0, none, none, none⟩,
        ⟨2, .PENDING, .obj [], 1, some 0, none, none⟩]
      nextEvent := 3 } }

theorem waiting_ok : OutboxOk waiting := by
  have hrow : ∀ o e, waiting.EventRow o e → o = none ∧ e ∈ waiting.db.outbox := by
    intro o e h
    cases o with
    | none => exact ⟨rfl, h⟩
    | some p => exact absurd h List.not_mem_nil
  refine ⟨fun o e h => ?_, fun o o' e e' h h' hid => ?_⟩
  · have hall : ∀ e ∈ waiting.db.outbox, e.id < 3 := by decide
    exact hall e (hrow o e h).2
  · obtain ⟨rfl, he⟩ := hrow o e h
    obtain ⟨rfl, he'⟩ := hrow o' e' h'
    have hnd : (waiting.db.outbox.map (·.id)).Nodup := by decide
    exact ⟨rfl, congrArg _ (List.inj_on_of_nodup_map hnd he he' hid)⟩

/-- Redis is down for the payment. -/
theorem relay_run_sample : (∃ (cs : Calls) (r : Except Exc Response) (w' : World)
    (sel : List OutBoxOrderEvent) (final : OutBoxOrderEvent → OutBoxOrderEvent),
      Executes 0 processOutboxEvent waiting cs r w' ∧ Ran waiting cs r w' sel final) ∧
    ∀ (tr : List Label) (c : State), Lts.Run Steps (.init waiting) tr c →
      ∀ e ∈ c.world.db.outbox, e.status = .PENDING ∨ e.status = .PROCESSING →
        e.retryCount.getD 0 < 5 := by
  have hquiet : ∀ id, ¬ waiting.EventLocked 0 id := by
    rintro id ⟨q, -, ⟨ids, h, -⟩ | ⟨u, h, -⟩⟩ <;> exact absurd h List.not_mem_nil
  obtain ⟨hex, hall⟩ := relay_run.1 0 waiting (by decide) rfl hquiet
  refine ⟨?_, relay_run.2 waiting (fun _ => rfl) waiting_ok (by decide) (by decide)⟩
  obtain ⟨cs, r, w', hrun, hfares⟩ := hex fun op => op matches .xaddDead _
  obtain ⟨sel, final, hran⟩ := hall cs r w' hrun (Fares.sound hfares)
  exact ⟨cs, r, w', sel, final, hrun, hran⟩

end Outbox

end PaymentRecon
