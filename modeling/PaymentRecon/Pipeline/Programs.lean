import PaymentRecon.Pipeline.Settlement
import PaymentRecon.Play

/-!
# Programs — every program of the service keeps its promises

The relay, the replay, the webhook and the requests that need no promise.  `lawful_run` closes the
file: in every run each operation is performed lawfully, and the provenance holds throughout.
-/

namespace PaymentRecon

open Interleave Streams Rely

namespace Pipeline

variable {p : Pid} {w w' : World} {past : List Label}

/-! ## The relay -/

/-- The claimed events are events of the outbox, with genuine payloads. -/
def EventsOk (p : Pid) (events : List ClaimedEvent) : Facts :=
  fun w past => ∀ e ∈ events, Known w e.id e.data ∧ Received p w past e.data

theorem persistent_events (events : List ClaimedEvent) : logic.Persistent (EventsOk p events) :=
  persistent_of fun _ _ _ _ hw h e he => ⟨(h e he).1.step hw, (h e he).2.step hw⟩

/-- What the relay may report of the event it processed. -/
def ReportOk (p : Pid) (u : EventUpdate) : Facts := fun w past =>
  (u.status = .PUBLISHED → ∃ d, Known w u.id d ∧ Enqueued past d) ∧
    (u.status ≠ .PUBLISHED → Unpublished w past u ∧ ∃ d, Known w u.id d ∧ Got p past d)

theorem persistent_report (u : EventUpdate) : logic.Persistent (ReportOk p u) := by
  refine persistent_of fun _ _ _ _ hw h => ⟨fun hu => ?_, fun hu => ?_⟩
  · obtain ⟨d, hk, he⟩ := h.1 hu
    exact ⟨d, hk.step hw, he.mono⟩
  · obtain ⟨hun, d, hk, hg⟩ := h.2 hu
    exact ⟨hun.step hw, d, hk.step hw, hg.mono⟩

theorem keeps_claimProcessEvents (limit : ℕ) :
    Keeps p top (claimProcessEvents limit) (whenOk (EventsOk p)) := by
  unfold claimProcessEvents
  refine Ensures.bind (m := fun _ => top) (Ensures.skip Persistent.true fun _ _ _ _ => trivial)
    ?_ fun _ _ _ _ => trivial
  intro now
  refine Ensures.perform (stable_whenOk fun es => (persistent_events es).stable)
    (fun _ _ _ _ => trivial) ?_
  intro f w past r w' hI _ hx _
  have hw : system.WStep w (.run p f _ r) w' := hx
  rcases exec_cases hx with ⟨sel, hsel, rfl, -⟩ | ⟨-, e, -, rfl⟩ | ⟨-, r₀, -, e, -, rfl⟩
  · intro e he
    obtain ⟨e₀, he₀, rfl⟩ := List.mem_map.mp he
    have hmem := (hsel.claimable e₀ he₀).1
    exact ⟨Known.step hw ⟨e₀, hmem, rfl, rfl⟩, (hI.outbox e₀ hmem).step hw,
      Got.read ⟨e₀.claimed, he, rfl⟩⟩
  · trivial
  · trivial

theorem keeps_enqueue (d : Json) :
    Keeps p (fun w past => Received p w past d) (enqueue d) (whenOk fun _ _ past => Enqueued past d) := by
  unfold enqueue
  refine Ensures.bind (Ensures.skip (persistent_received d) fun _ _ _ _ => trivial) ?_
    fun _ _ _ _ => trivial
  intro now
  refine Ensures.perform (stable_whenOk fun _ => Persistent.stable
    (persistent_of fun _ _ _ _ _ h => h.mono)) (fun w past _ h => ⟨d, rfl, h⟩) ?_
  intro f w past r w' _ _ _ _
  cases r with
  | ok x => exact ⟨p, f, _, x, by simp, rfl⟩
  | error _ => trivial

theorem keeps_enqueueDeadLetter (d : Json) (eventId : Id) (reason : String) :
    Keeps p (fun w past => Received p w past d) (enqueueDeadLetter d eventId reason)
      (whenOk fun _ _ past => DeadLettered past d) := by
  unfold enqueueDeadLetter
  refine Ensures.bind (Ensures.skip (persistent_received d) fun _ _ _ _ => trivial) ?_
    fun _ _ _ _ => trivial
  intro now
  refine Ensures.perform (stable_whenOk fun _ => Persistent.stable
    (persistent_of fun _ _ _ _ _ h => h.mono)) (fun w past _ h => ⟨⟨d, rfl, h⟩, by simp [Fields.none]⟩) ?_
  intro f w past r w' _ _ _ _
  cases r with
  | ok x => exact ⟨p, f, _, x, by simp, rfl⟩
  | error _ => trivial

theorem retryUpdate_ok (id : Id) (n : ℤ) (failed pending : String) {d : Json}
    (hk : Known w id d) (hg : Got p past d) : ReportOk p (retryUpdate id n failed pending) w past := by
  unfold retryUpdate
  split_ifs with h
  · exact ⟨fun hs => by simp at hs, fun _ => ⟨Or.inr ⟨rfl, Or.inl h⟩, d, hk, hg⟩⟩
  · exact ⟨fun hs => by simp at hs, fun _ => ⟨Or.inl rfl, d, hk, hg⟩⟩

theorem keeps_processSingleOutboxEvent (e : ClaimedEvent) :
    Keeps p (EventsOk p [e]) (processSingleOutboxEvent e) (whenOk (ReportOk p)) := by
  have hsplit : ∀ w past, EventsOk p [e] w past →
      Received p w past e.data ∧ EventsOk p [e] w past :=
    fun w past h => ⟨(h e (List.mem_singleton_self e)).2, h⟩
  have hretry : ∀ (exc : Exc) (failed pending : String), Keeps p (EventsOk p [e])
      (if exc.kind = .redisError then pure (retryUpdate e.id (e.retryCount.getD 0) failed pending)
        else throw exc : App EventUpdate) (whenOk (ReportOk p)) := by
    intro exc failed pending
    split_ifs
    · intro w past h
      obtain ⟨hk, -, hg⟩ := h e (List.mem_singleton_self e)
      exact retryUpdate_ok _ _ _ _ hk hg
    · exact fun _ _ _ => trivial
  -- the event stays known when the command fails
  have hframe : ∀ {β : Type} {x : App β} {J : β → Facts},
      Keeps p (fun w past => Received p w past e.data) x (whenOk J) →
      Keeps p (EventsOk p [e]) x fun r w past => whenOk J r w past ∧ EventsOk p [e] w past :=
    fun h => (h.frame (persistent_events [e])).pre hsplit
  unfold processSingleOutboxEvent
  cases hv : validateEventData e.data with
  | error reason =>
    refine Ensures.tryCatch (m := fun r w past => whenOk (ReportOk p) r w past ∧
      EventsOk p [e] w past) ?_ (fun _ _ _ h => h.1) fun exc => (hretry exc _ _).pre fun _ _ h => h.2
    refine Ensures.bind (hframe (keeps_enqueueDeadLetter e.data e.id reason)) ?_
      fun _ _ _ h => ⟨trivial, h.2⟩
    rintro _ w past ⟨hd, he⟩
    obtain ⟨hk, -, hg⟩ := he e (List.mem_singleton_self e)
    refine ⟨⟨fun hs => by simp at hs, fun _ => ⟨Or.inr ⟨rfl, Or.inr ⟨e.data, hk, hd⟩⟩, ?_⟩⟩, he⟩
    exact ⟨e.data, hk, hg⟩
  | ok d =>
    obtain rfl := validateEventData_eq hv
    refine Ensures.tryCatch (m := fun r w past => whenOk (ReportOk p) r w past ∧
      EventsOk p [e] w past) ?_ (fun _ _ _ h => h.1) fun exc => (hretry exc _ _).pre fun _ _ h => h.2
    refine Ensures.bind (hframe (keeps_enqueue e.data)) ?_ fun _ _ _ h => ⟨trivial, h.2⟩
    rintro _ w past ⟨hd, he⟩
    obtain ⟨hk, -, -⟩ := he e (List.mem_singleton_self e)
    exact ⟨⟨fun _ => ⟨e.data, hk, hd⟩, fun hs => absurd rfl hs⟩, he⟩

def ReportsOk (p : Pid) (updates : List EventUpdate) : Facts :=
  fun w past => ∀ u ∈ updates, ReportOk p u w past

theorem persistent_reports (updates : List EventUpdate) : logic.Persistent (ReportsOk p updates) :=
  fun w past a w' hI hw hc h u hu => persistent_report u w past a w' hI hw hc (h u hu)

theorem keeps_processEvents (events : List ClaimedEvent) :
    Keeps p (EventsOk p events) (processEvents events) (whenOk (ReportsOk p)) := by
  induction events with
  | nil => exact fun _ _ _ u hu => by simp at hu
  | cons e events ih =>
    unfold processEvents
    have hsplit : ∀ w past, EventsOk p (e :: events) w past →
        EventsOk p [e] w past ∧ EventsOk p events w past := by
      intro w past h
      refine ⟨fun e' he' => ?_, fun e' he' => h e' (List.mem_cons_of_mem _ he')⟩
      obtain rfl := List.mem_singleton.mp he'
      exact h e' List.mem_cons_self
    refine Ensures.bind (((keeps_processSingleOutboxEvent e).frame
      (persistent_events events)).pre hsplit) ?_ fun _ _ _ _ => trivial
    intro u
    refine Ensures.bind ((ih.frame (persistent_report u)).pre fun _ _ h => ⟨h.2, h.1⟩) ?_
      fun _ _ _ _ => trivial
    rintro us w past ⟨hus, hu⟩ u' hu'
    rcases List.mem_cons.mp hu' with rfl | hu'
    · exact hu
    · exact hus u' hu'

theorem keeps_publishStmt {K : Facts} (hK : logic.Persistent K) (ids : List Id)
    (h : ∀ w past, K w past → ∀ id ∈ ids, ∃ d, Known w id d ∧ Enqueued past d) :
    Keeps p K (publishStmt ids) fun _ => K := by
  unfold publishStmt
  split_ifs
  · exact fun _ _ hk => hk
  · exact Ensures.skip hK fun w past _ hk => h w past hk

theorem keeps_errorStmt {K : Facts} (hK : logic.Persistent K) (updates : List EventUpdate)
    (h : ∀ w past, K w past → ∀ u ∈ updates, Unpublished w past u ∧
      ∃ d, Known w u.id d ∧ Got p past d) :
    Keeps p K (errorStmt updates) fun _ => K := by
  unfold errorStmt
  split_ifs
  · exact fun _ _ hk => hk
  · exact Ensures.skip hK fun w past _ hk => h w past hk

theorem keeps_processOutboxUpdates (updates : List EventUpdate) :
    Keeps p (ReportsOk p updates) (processOutboxUpdates updates) fun _ => top := by
  unfold processOutboxUpdates
  split_ifs
  · exact fun _ _ _ => trivial
  · refine Ensures.tryCatch (m := fun _ => top) ?_ (fun _ _ _ _ => trivial) fun e =>
      (keeps_rollback_throw _).mono fun _ _ _ _ => trivial
    refine Ensures.bind (keeps_publishStmt (persistent_reports updates) _ ?_) ?_
      fun _ _ _ _ => trivial
    · intro w past h id hid
      obtain ⟨u, hu, rfl⟩ := List.mem_map.mp hid
      obtain ⟨hmem, hs⟩ := List.mem_filter.mp hu
      exact (h u hmem).1 (by simpa using hs)
    · intro _
      refine Ensures.bind (keeps_errorStmt (persistent_reports updates) _ ?_) ?_
        fun _ _ _ _ => trivial
      · intro w past h u hu
        obtain ⟨hmem, hs⟩ := List.mem_filter.mp hu
        exact (h u hmem).2 (by simpa using hs)
      · exact fun _ => Ensures.perform (fun _ => Persistent.true.stable) (fun _ _ _ _ => trivial)
          fun _ _ _ _ _ _ _ _ _ => trivial

/-! ## The replay of dead letters -/

/-- `g` is what the replay of `x` read, and the id to be deleted is that of no other entry. -/
def ReplayOk (p : Pid) (x : IdArg) (g : Fields) : Facts := fun w past =>
  Carried p w past g ∧ (∀ e ∈ w.dead.entries, e.1 = x.lo → e.2 = g) ∧ x.lo ≤ w.dead.last

theorem persistent_replay (x : IdArg) (g : Fields) : logic.Persistent (ReplayOk p x g) := by
  refine persistent_of ?_
  exact fun w past a w' hw ⟨hg, hserved⟩ => ⟨hg.step hw, wstep_serves hw hserved⟩

theorem keeps_xrangeDead (x : IdArg) :
    Keeps p top (await (.xrangeDead x))
      (whenOk fun es w past => ∀ e rest, es = e :: rest → ReplayOk p x e.2 w past) := by
  refine Ensures.perform (stable_whenOk fun es => ?_) (fun _ _ _ _ => trivial) ?_
  · intro w past a w' hI hw hc hp h e rest heq
    exact (persistent_replay x e.2).stable w past a w' hI hw hc hp (h e rest heq)
  · intro f w past r w' hI _ hx _
    rcases exec_cases hx with ⟨rfl, rfl⟩ | ⟨-, e, -, rfl⟩ | ⟨-, r₀, -, e, -, rfl⟩
    · intro e rest heq
      have he : e ∈ w'.dead.xrange x.lo x.hi := heq ▸ List.mem_cons_self
      obtain ⟨d, hd, hgen⟩ := hI.dead e (Stream.mem_xrange.mp he).1
      exact ⟨⟨d, hd, hgen, Got.read ⟨e, he, hd⟩⟩, xrange_serves heq⟩
    · trivial
    · trivial

theorem keeps_replayMessage (x : IdArg) : Keeps p top (replayMessage x) fun _ => top := by
  unfold replayMessage
  refine Ensures.bind (keeps_xrangeDead x) ?_ fun _ _ _ _ => trivial
  intro es
  match es with
  | [] => exact fun _ _ _ => trivial
  | e :: rest =>
    refine Ensures.bind (m := fun _ => top) (Ensures.perform (fun _ => Persistent.true.stable)
      ?_ fun _ _ _ _ _ _ _ _ _ => trivial) (fun _ _ _ _ => trivial) fun _ _ _ _ => trivial
    intro w past _ h
    obtain ⟨hg, hid, -⟩ := h e rest rfl
    exact ⟨e.2, rfl, hg, hid⟩

/-! ## The webhook -/

/-- The row is flushed. -/
def RowFlushed (p : Pid) (r : SMSTransaction) : Facts :=
  fun w _ => Write.insSms r ∈ (w.txn p).writes

/-- The row and an event with its payload are flushed. -/
def PairFlushed (p : Pid) (r : SMSTransaction) : Facts := fun w _ =>
  Write.insSms r ∈ (w.txn p).writes ∧ ∃ e traceId, Write.insEvent e ∈ (w.txn p).writes ∧
    e.data = transactionData r.id traceId r.smsAmount

/-- The row and an event with its payload are committed. -/
def PairCommitted (r : SMSTransaction) : Facts := fun w _ =>
  r ∈ w.db.sms ∧ ∃ e ∈ w.db.outbox, ∃ traceId, e.data = transactionData r.id traceId r.smsAmount

theorem stable_txn {K : Txn → Prop} : logic.Stable p fun w _ => K (w.txn p) := by
  intro w past a w' _ hw _ hp h
  show K (w'.txn p)
  rw [wstep_txn hw hp]
  exact h

theorem persistent_pair (r : SMSTransaction) : logic.Persistent (PairCommitted r) := by
  refine persistent_of ?_
  rintro w past a w' hw ⟨hr, e, he, traceId, hd⟩
  obtain ⟨e', he', -, hd'⟩ := wstep_outbox hw he
  exact ⟨wstep_sms hw hr, e', he', traceId, hd'.trans hd⟩

theorem keeps_insertSms (amount inventory : ℤ) (date time payload : String) :
    Keeps p top (await (.insertSms amount inventory date time payload))
      (whenOk (RowFlushed p)) := by
  refine Ensures.perform (stable_whenOk fun r => stable_txn
    (K := fun x => Write.insSms r ∈ x.writes)) (fun _ _ _ _ => trivial) ?_
  intro f w past r w' _ _ hx _
  rcases exec_cases hx with h | ⟨-, e, -, rfl⟩ | ⟨-, r₀, -, e, -, rfl⟩
  · simp only [Op.run] at h
    split_ifs at h
    · obtain ⟨-, ⟨-, rfl, -⟩ | ⟨-, rfl, rfl⟩⟩ := h
      · trivial
      · show Write.insSms _ ∈ _
        rw [flush_writes, if_pos rfl]
        simp
    · obtain ⟨rfl, -⟩ := h
      trivial
  · trivial
  · trivial

theorem keeps_insertEvent (r : SMSTransaction) (traceId : String) :
    Keeps p (RowFlushed p r) (await (.insertEvent (transactionData r.id traceId r.smsAmount)))
      (whenOk fun _ => PairFlushed p r) := by
  refine Ensures.perform (stable_whenOk fun _ => stable_txn
    (K := fun x => Write.insSms r ∈ x.writes ∧ ∃ e traceId, Write.insEvent e ∈ x.writes ∧
      e.data = transactionData r.id traceId r.smsAmount)) ?_ ?_
  · exact fun w past _ h => ⟨r, traceId, h, rfl⟩
  · intro f w past res w' _ hr hx _
    rcases exec_cases hx with ⟨rfl, rfl⟩ | ⟨-, e, -, rfl⟩ | ⟨-, r₀, -, e, -, rfl⟩
    · refine ⟨?_, w.newEvent (transactionData r.id traceId r.smsAmount), traceId, ?_, rfl⟩
      · rw [flush_writes, if_pos rfl]
        exact List.mem_append_left _ hr
      · rw [flush_writes, if_pos rfl]
        simp
    · trivial
    · trivial

theorem keeps_commit_pair (r : SMSTransaction) :
    Keeps p (PairFlushed p r) (await .commit) (whenOk fun _ => PairCommitted r) := by
  refine Ensures.perform (stable_whenOk fun _ => (persistent_pair r).stable)
    (fun _ _ _ _ => trivial) ?_
  rintro f w past res w' - ⟨hr, e, traceId, he, hd⟩ hx -
  rcases exec_cases hx with ⟨rfl, rfl⟩ | ⟨-, e, -, rfl⟩ | ⟨-, r₀, -, e, -, rfl⟩
  · obtain ⟨e', he', hev⟩ := Db.commit_outbox_keeps (w.txn p).writes
      (Or.inr he)
    refine ⟨?_, e', he', traceId, hev.data.trans hd⟩
    show r ∈ (w.db.commit (w.txn p).writes).sms
    rw [Db.commit_sms]
    exact List.mem_append_right _ (mem_insertedSms.mpr hr)
  · trivial
  · trivial

theorem keeps_handleTransactionService (s : SmsData) :
    Keeps p top (handleTransactionService s)
      (whenOk fun t w past => ∃ r, r.id = t ∧ PairCommitted r w past) := by
  unfold handleTransactionService
  refine Ensures.tryCatch (m := whenOk fun t w past => ∃ r, r.id = t ∧ PairCommitted r w past)
    ?_ (fun _ _ _ h => h) ?_
  · have hcreate : Keeps p top (createTransactionService s) (whenOk (RowFlushed p)) := by
      unfold createTransactionService
      split
      · refine Ensures.tryCatch (keeps_insertSms _ _ _ _ _) (fun _ _ _ h => h) ?_
        intro e
        split_ifs <;> exact fun _ _ _ => trivial
      · exact fun _ _ _ => trivial
    refine Ensures.bind hcreate ?_ fun _ _ _ _ => trivial
    intro r
    cases htr : traceIdOf s with
    | error e => exact fun _ _ _ => trivial
    | ok traceId =>
      rw [Prog.ofExcept_ok, Prog.ret_bind]
      have hevent : Keeps p (RowFlushed p r)
          (createOutboxEventService (transactionData r.id traceId r.smsAmount))
          (whenOk fun _ => PairFlushed p r) := by
        unfold createOutboxEventService
        split_ifs
        · exact fun _ _ _ => trivial
        · refine Ensures.tryCatch (keeps_insertEvent r traceId) (fun _ _ _ h => h) ?_
          intro e
          split_ifs <;> exact fun _ _ _ => trivial
      refine Ensures.bind hevent ?_ fun _ _ _ _ => trivial
      intro _
      refine Ensures.bind (keeps_commit_pair r) ?_ fun _ _ _ _ => trivial
      exact fun _ w past h => ⟨r, rfl, h⟩
  · intro e
    split
    all_goals first
      | exact (keeps_rollback_throw _).mono fun r w past h => by subst h; trivial
      | exact fun _ _ _ => trivial

theorem keeps_receiveTransaction (s : SmsData) :
    Keeps p top (receiveTransaction s) AcceptedRows := by
  unfold receiveTransaction withDb
  refine Ensures.tryCatch (m := AcceptedRows) ?_ (fun _ _ _ h => h) ?_
  · refine Ensures.tryCatch (m := AcceptedRows) ?_ (fun _ _ _ h => h) ?_
    · refine Ensures.bind (keeps_handleTransactionService s) ?_ ?_
      · rintro t w past ⟨r, rfl, hr, he⟩ t' ht'
        obtain rfl : r.id = t' := by simpa using ht'
        exact ⟨r, hr, rfl, he⟩
      · exact fun e _ _ _ t ht => by simp at ht
    · intro e
      split <;> exact fun _ _ _ t ht => by simp at ht
  · intro e
    exact (keeps_rollback_throw _).mono fun r _ _ h t ht => by simp [h] at ht

/-! ## The requests that need no promise -/

theorem notAccepted_rows {r : Except Exc Response} (h : NotAccepted r) : AcceptedRows r w past :=
  fun t ht => absurd ht (h t)

/-- An operation that needs no promise. -/
def Plain (op : Op) : Prop := ∀ p w past, Lawful p w past op

theorem stocks_plain {op : Op} (h : Stocks op) : Plain op := by
  cases op <;> first
    | exact fun _ _ _ => trivial
    | exact h.elim

/-! ## The other endpoints -/

theorem keeps_confirmPayment (orderId paymentId : Id) :
    Keeps p top (confirmPayment orderId paymentId) fun r _ _ => NotAccepted r := by
  unfold confirmPayment withDb
  refine Ensures.tryCatch (m := fun r _ _ => NotAccepted r) ?_ (fun _ _ _ h => h) ?_
  · refine Ensures.tryCatch (m := fun r _ _ => NotAccepted r) ?_ (fun _ _ _ h => h) ?_
    · refine Ensures.bind (keeps_handlePendingPayment orderId paymentId) ?_
        fun e _ _ _ => notAccepted_error e
      intro i
      refine Ensures.bind (Ensures.skip Persistent.true fun _ _ _ _ => trivial) ?_
        fun e _ _ _ => notAccepted_error e
      exact fun _ _ _ _ t => by simp
    · intro e
      refine Ensures.bind keeps_rollback ?_ fun e _ _ _ => notAccepted_error e
      intro _
      split_ifs <;> exact fun _ _ _ => notAccepted_error _
  · intro e
    exact (keeps_rollback_throw _).mono fun r _ _ h => h ▸ notAccepted_error e

theorem keeps_processOutboxEvent :
    Keeps p top processOutboxEvent fun r _ _ => NotAccepted r := by
  unfold processOutboxEvent
  refine Ensures.bind (keeps_claimProcessEvents 100) ?_ fun e _ _ _ => notAccepted_error e
  intro events
  split_ifs
  · exact fun _ _ _ t => by simp
  · refine Ensures.bind (keeps_processEvents events) ?_ fun e _ _ _ => notAccepted_error e
    intro updates
    refine Ensures.bind (keeps_processOutboxUpdates updates) ?_ fun e _ _ _ => notAccepted_error e
    exact fun _ _ _ _ t => by simp

theorem keeps_turn {worker : Worker} (hlaw : HandlersLawful worker) :
    Keeps p top worker.turn fun r _ _ => NotAccepted r := by
  unfold Worker.turn
  refine Ensures.tryCatch (m := fun r _ _ => NotAccepted r) ?_ (fun _ _ _ h => h) ?_
  · refine Ensures.bind (keeps_processBatch hlaw) ?_ fun e _ _ _ => notAccepted_error e
    exact fun _ _ _ _ t => by simp
  · exact fun _ _ _ _ t => by simp

theorem keeps_replayDlqDashboard (x : IdArg) :
    Keeps p top (replayDlqDashboard x) fun r _ _ => NotAccepted r := by
  unfold replayDlqDashboard
  refine Ensures.bind (keeps_replayMessage x) ?_ fun e _ _ _ => notAccepted_error e
  intro newMsgId
  cases newMsgId with
  | none => exact fun _ _ _ => notAccepted_error _
  | some _ => exact fun _ _ _ t => by simp

/-! ## All requests -/

theorem keeps_prog (q : Request) (hq : ∀ m, q ≠ .handlePayment m) :
    Keeps p top q.prog AcceptedRows := by
  have plain : ∀ {x : App Response}, x.All Stocks NotAccepted → Keeps p top x AcceptedRows :=
    fun hx => (Ensures.ofAll hx fun op w past hop _ => stocks_plain hop p w past).mono fun _ _ _ h => notAccepted_rows h
  cases q with
  | createOrder userId amount => exact plain (all_createOrder userId amount)
  | confirmPayment orderId paymentId =>
    exact (keeps_confirmPayment orderId paymentId).mono fun _ _ _ h => notAccepted_rows h
  | handlePayment m => exact absurd rfl (hq m)
  | receiveTransaction s => exact keeps_receiveTransaction s
  | processOutboxEvent => exact keeps_processOutboxEvent.mono fun _ _ _ h => notAccepted_rows h
  | work workerId =>
    exact (keeps_turn (paymentWorker_handlers workerId)).mono fun _ _ _ h => notAccepted_rows h
  | replayDlq x => exact (keeps_replayDlqDashboard x).mono fun _ _ _ h => notAccepted_rows h
  | lifespan fuel => exact plain (all_lifespan fuel)

theorem sound : logic.Sound where
  prog p q w past w' _ hc :=
    (keeps_prog q fun m hm => by subst hm; exact hc).pre fun _ _ _ => trivial
  start p := Persistent.true.stable
  begin w past p q h := h
  spawn w past p q h _ := h
  run f w past p op r w' h hl hx _ := h.exec hl hx
  crash w past p h _ := h.rollback
  outer w past x h _ := by
    cases x
    exact h.quiet (h.consistent.tableStep (.same (p := 0) rfl rfl)) rfl rfl rfl (fun _ hr => hr)
      fun q e he => ⟨he, fun r hr => hr⟩

theorem Provenance.empty : Provenance World.empty := by
  refine ⟨Consistent.empty, ?_, ?_, ?_, ?_⟩ <;>
    simp [World.empty, Stream.empty, Db.empty, Txn.empty]

/-- **Every run of the pipeline is lawful**: what lawful steps keep holds after every run, along with
the provenance and the rows of the accepted webhook calls.  `P` is a further condition on steps. -/
theorem lawful_run {P : State → Label → State → Prop} {J : State → Prop} {w₀ : World}
    (h₀ : Provenance w₀) {c : State} {tr : List Label}
    (hr : Lts.Run (Lts.restrict Steps fun c a c' => Allows ByStream c a c' ∧ P c a c') (.init w₀) tr c)
    (h0 : J (.init w₀)) (hstep : ∀ c a c', Provenance c.world → J c → Steps c a c' →
      Allows logic.Guarded c a c' → P c a c' → J c') : logic.Holds c ∧ J c :=
  sound.derive hr (Holds.init h₀ fun _ => trivial) h0 hstep

/-- `ByStream`, as a condition on scripts. -/
def byStream : Check := .label fun a => decide (ByStream World.empty [] a World.empty)

theorem byStream_steps {c : State} {a : Label} {c' : State} (h : byStream.Steps c a c') :
    StepsIf ByStream c a c' :=
  ⟨h.1, (of_decide_eq_true h.2 : ByStream World.empty [] a World.empty)⟩

end Pipeline

end PaymentRecon
