import PaymentRecon.Pipeline.Lawful

/-!
# Settlement — the handler, the administrator and the worker keep their promises

One specification for each function; the callers use it and do not look inside.
-/

namespace PaymentRecon

open Interleave Streams Rely

namespace Pipeline

variable {p : Pid} {w w' : World} {past : List Label}

abbrev Facts := Assertion sig Exc World Request Tick

/-- The function runs lawfully from a moment at which `K` holds, and ends with `post`. -/
abbrev Keeps {β : Type} (p : Pid) (K : Facts) (x : App β) (post : Except Exc β → Facts) : Prop :=
  logic.Ensures p K x post

theorem persistent_of {K : Facts}
    (h : ∀ w past a w', system.WStep w a w' → K w past → K w' (past ++ [a])) :
    logic.Persistent K :=
  fun w past a w' _ hw _ hk => h w past a w' hw hk

theorem persistent_received (d : Json) : logic.Persistent fun w past => Received p w past d :=
  persistent_of fun _ _ _ _ hw hd => hd.step hw

/-- The row is committed, and `p` read its payload. -/
def Notified (p : Pid) (r : SMSTransaction) (traceId : String) : Facts := fun w past =>
  r ∈ w.db.sms ∧ Got p past (transactionData r.id traceId r.smsAmount)

theorem persistent_notified (r : SMSTransaction) (traceId : String) :
    logic.Persistent (Notified p r traceId) :=
  persistent_of fun _ _ _ _ hw h => ⟨wstep_sms hw h.1, h.2.mono⟩

/-! ## Settling -/

theorem keeps_rollback {K : Facts} :
    Keeps p K (await .rollback) fun r _ _ => ∃ u, r = .ok u := by
  refine Ensures.perform ?_ (fun _ _ _ _ => trivial) ?_
  · exact fun r _ _ _ _ _ _ _ _ h => h
  · intro f w past r w' _ _ hx _
    rcases exec_cases hx with ⟨rfl, -⟩ | ⟨-, e, he, -⟩ | ⟨hl, -⟩
    · exact ⟨(), rfl⟩
    · exact he.elim
    · simp [Op.Loses, Op.OnRedis] at hl

/-- A rollback followed by an exception. -/
theorem keeps_rollback_throw {β : Type} {K : Facts} (e : Exc) :
    Keeps p K (do await .rollback; throw e : App β) fun r _ _ => r = .error e := by
  refine Ensures.bind keeps_rollback (fun _ _ _ _ => rfl) ?_
  rintro _ _ _ ⟨_, h⟩
  exact absurd h (by simp)

/-- The rows that a locking SELECT answered. -/
def Locked (p : Pid) (sel : PaymentIntent → Bool) (rows : List PaymentIntent) : Facts :=
  fun w _ => w.HeldRows p sel rows

theorem stable_locked (sel : PaymentIntent → Bool) (rows : List PaymentIntent) :
    logic.Stable p (Locked p sel rows) :=
  fun _ _ _ _ hI hw _ hp hK => wstep_heldRows hw hI.consistent.locks hp hK

theorem keeps_lockPending {K : Facts} (a : Amount) :
    Keeps p K (await (.lockPending (.int a))) (whenOk (Locked p (pendingWith a))) := by
  refine Ensures.perform (stable_whenOk fun rows => stable_locked _ rows)
    (fun _ _ _ _ => trivial) ?_
  intro f w past r w' _ _ hx _
  cases r with
  | ok rows => exact exec_lockPending hx
  | error e => trivial

theorem keeps_lockById {K : Facts} (paymentId orderId : Id) :
    Keeps p K (await (.lockById paymentId orderId))
      (whenOk (Locked p (confirmable paymentId orderId))) := by
  refine Ensures.perform (stable_whenOk fun rows => stable_locked _ rows)
    (fun _ _ _ _ => trivial) ?_
  intro f w past r w' _ _ hx _
  cases r with
  | ok rows => exact exec_lockById hx
  | error e => trivial

/-- The row of `scalar_one`. -/
theorem keeps_scalarOne (rows : List PaymentIntent) (sel : PaymentIntent → Bool) :
    Keeps p (Locked p sel rows) (scalarOne rows) (whenOk fun i => Locked p sel [i]) := by
  match rows with
  | [] => exact fun _ _ _ => trivial
  | [i] => exact fun _ _ h => h
  | _ :: _ :: _ => exact fun _ _ _ => trivial

theorem keeps_processPendingPayment (r : SMSTransaction) (traceId : String) :
    Keeps p (Notified p r traceId) (processPendingPayment (.int r.smsAmount) (.int r.id))
      fun _ => top := by
  unfold processPendingPayment
  split_ifs
  · exact fun _ _ _ => trivial
  · refine Ensures.bind (Ensures.skip (persistent_notified r traceId) fun _ _ _ _ => trivial) ?_
      fun _ _ _ _ => trivial
    intro already
    split
    · exact fun _ _ _ => trivial
    · refine Ensures.bind (Ensures.skip (persistent_notified r traceId) fun _ _ _ _ => trivial) ?_
        fun _ _ _ _ => trivial
      intro _
      refine Ensures.bind (((keeps_lockPending (K := top) r.smsAmount).frame
        (persistent_notified r traceId)).pre fun _ _ h => ⟨trivial, h⟩) ?_ fun _ _ _ _ => trivial
      intro rows
      refine Ensures.tryCatch (m := fun _ => top) ?_ (fun _ _ _ _ => trivial)
        fun e => fun _ _ _ => trivial
      refine Ensures.bind ((keeps_scalarOne rows (pendingWith r.smsAmount)).frame
        (persistent_notified r traceId)) ?_ fun _ _ _ _ => trivial
      intro i
      refine Ensures.bind (m := fun _ => top) (Ensures.perform
        (fun _ => Persistent.true.stable) ?_ fun _ _ _ _ _ _ _ _ _ => trivial) ?_
        fun _ _ _ _ => trivial
      · rintro w past - ⟨hrow, hr, hgot⟩
        obtain ⟨hheld, hsel⟩ := hrow i (List.mem_singleton_self i)
        exact ⟨hheld, r, hr, rfl, by simpa [pendingWith] using hsel, traceId, hgot⟩
      · exact fun _ _ _ _ => trivial

/-- **The handler of payment messages** is lawful on a genuine payload. -/
theorem keeps_handlePayment (m : Message) :
    Keeps p (fun w past => Received p w past m.data) (handlePayment m) fun _ => top := by
  have hex : Keeps p (fun w past => ∃ x : SMSTransaction × String,
      m.data = transactionData x.1.id x.2 x.1.smsAmount ∧ Notified p x.1 x.2 w past)
      (handlePayment m) fun _ => top := by
    refine Ensures.exists fun x => Ensures.pure fun hd => ?_
    obtain ⟨r, traceId⟩ := x
    unfold handlePayment
    refine Ensures.tryCatch (m := fun _ => top) ?_ (fun _ _ _ _ => trivial) fun e =>
      (keeps_rollback_throw _).mono fun _ _ _ _ => trivial
    rw [hd, transactionData_get_amount, transactionData_get_transactionId]
    simp only [Prog.ofExcept_ok, Prog.ret_bind]
    refine Ensures.bind (keeps_processPendingPayment r traceId) ?_ fun _ _ _ _ => trivial
    intro result
    refine Ensures.bind (Ensures.skip Persistent.true fun _ _ _ _ => trivial) ?_
      fun _ _ _ _ => trivial
    intro _
    split_ifs
    · exact Ensures.bind (Ensures.skip Persistent.true fun _ _ _ _ => trivial)
        (fun _ _ _ _ => trivial) fun _ _ _ _ => trivial
    · exact fun _ _ _ => trivial
  exact hex.pre fun w past ⟨⟨r, hr, traceId, hd⟩, hgot⟩ => ⟨(r, traceId), hd, hr, hd ▸ hgot⟩

theorem keeps_handlePendingPayment (orderId paymentId : Id) :
    Keeps p top (handlePendingPayment orderId paymentId) fun _ => top := by
  unfold handlePendingPayment
  refine Ensures.bind (Ensures.skip Persistent.true fun _ _ _ _ => trivial) ?_
    fun _ _ _ _ => trivial
  intro _
  refine Ensures.bind (keeps_lockById paymentId orderId) ?_ fun _ _ _ _ => trivial
  intro rows
  refine Ensures.tryCatch (m := fun _ => top) ?_ (fun _ _ _ _ => trivial) ?_
  · refine Ensures.bind (keeps_scalarOne rows (confirmable paymentId orderId)) ?_
      fun _ _ _ _ => trivial
    intro i
    refine Ensures.bind (m := fun _ => top) (Ensures.perform
      (fun _ => Persistent.true.stable) ?_ fun _ _ _ _ _ _ _ _ _ => trivial) ?_
      fun _ _ _ _ => trivial
    · intro w past _ hrow
      obtain ⟨hheld, hsel⟩ := hrow i (List.mem_singleton_self i)
      exact ⟨hheld, (by simpa [confirmable] using hsel : _ ∧ _ ∧ _).2.2⟩
    · intro _
      exact Ensures.bind (Ensures.skip Persistent.true fun _ _ _ _ => trivial)
        (fun _ _ _ _ => trivial) fun _ _ _ _ => trivial
  · intro e
    split_ifs <;> exact fun _ _ _ => trivial

/-! ## The worker -/

/-- The entries are in the main stream. -/
def EntriesOk (p : Pid) (entries : List (StreamId × Fields)) : Facts :=
  fun w past => ∀ e ∈ entries, e ∈ w.main.entries ∧ Carried p w past e.2

/-- The messages are entries of the main stream, with their payloads. -/
def MessagesOk (p : Pid) (messages : List Message) : Facts :=
  fun w past => ∀ m ∈ messages, Entry w m.id m.data ∧ Received p w past m.data

theorem persistent_entries (entries : List (StreamId × Fields)) :
    logic.Persistent (EntriesOk p entries) :=
  persistent_of fun _ _ _ _ hw h e he => ⟨wstep_main hw (h e he).1, (h e he).2.step hw⟩

theorem persistent_messages (messages : List Message) : logic.Persistent (MessagesOk p messages) :=
  persistent_of fun _ _ _ _ hw h m hm => ⟨(h m hm).1.step hw, (h m hm).2.step hw⟩

theorem keeps_decodeAll (attempts : Fields → ℤ) (entries : List (StreamId × Fields)) :
    Keeps p (EntriesOk p entries) (decodeAll attempts entries) (whenOk (MessagesOk p)) := by
  induction entries with
  | nil => exact fun _ _ _ m hm => by simp at hm
  | cons e entries ih =>
    unfold decodeAll
    have hdecode : Keeps p (EntriesOk p (e :: entries)) (decode attempts e) (whenOk fun m w past =>
        MessagesOk p [m] w past ∧ EntriesOk p entries w past) := by
      unfold decode
      refine Ensures.bind (Ensures.skip (persistent_entries _) fun _ _ _ _ => trivial) ?_
        fun _ _ _ _ => trivial
      intro now w past hes
      refine ⟨?_, fun e' he' => hes e' (List.mem_cons_of_mem _ he')⟩
      intro m hm
      obtain rfl := List.mem_singleton.mp hm
      obtain ⟨hmem, d, hd, hg⟩ := hes e List.mem_cons_self
      have hloads : e.2.loads = d := by rw [Fields.loads, hd]; rfl
      exact ⟨⟨e.2, hmem, by rw [hd, hloads]⟩, hloads ▸ hg⟩
    refine Ensures.bind hdecode ?_ fun _ _ _ _ => trivial
    intro m
    refine Ensures.bind ((ih.frame (persistent_messages [m])).pre fun _ _ h => ⟨h.2, h.1⟩) ?_
      fun _ _ _ _ => trivial
    rintro messages w past ⟨hms, hm⟩ m' hm'
    rcases List.mem_cons.mp hm' with rfl | hm'
    · exact hm m' (List.mem_singleton_self _)
    · exact hms m' hm'

/-- An operation that answers entries of the main stream. -/
theorem keeps_answersEntries {K : Facts} {op : Op} (hret : op.Ret = List (StreamId × Fields))
    (hplain : ∀ p w past, Lawful p w past op)
    (hrun : ∀ p w w' r, op.run p w r w' → ∃ es, r = .ok es ∧
      ∀ e ∈ cast hret es, e ∈ w.main.entries ∧ ∀ d, e.2.data = some d → Gives d op r) :
    Keeps p K (await op) (whenOk fun es => EntriesOk p (cast hret es)) := by
  refine Ensures.perform (stable_whenOk fun es => (persistent_entries _).stable)
    (fun w past _ _ => hplain p w past) ?_
  intro f w past r w' hI _ hx _
  have hw : system.WStep w (.run p f op r) w' := hx
  rcases exec_cases hx with h | ⟨-, e, -, rfl⟩ | ⟨-, r₀, -, e, -, rfl⟩
  · obtain ⟨es, rfl, hes⟩ := hrun p w w' r h
    intro e he
    obtain ⟨hmem, hgives⟩ := hes e he
    obtain ⟨d, hd, hgen⟩ := hI.main e hmem
    exact ⟨wstep_main hw hmem, d, hd, hgen.step hw, Got.read (hgives d hd)⟩
  · trivial
  · trivial

theorem keeps_xreadgroup {K : Facts} (consumer : String) (count : ℕ) :
    Keeps p K (await (.xreadgroup consumer count)) (whenOk (EntriesOk p)) := by
  refine keeps_answersEntries rfl (fun _ _ _ => trivial) ?_
  rintro p w w' r ⟨rfl, -⟩
  exact ⟨_, rfl, fun e he => ⟨(List.mem_filter.mp (List.mem_of_mem_take he)).1,
    fun d hd => ⟨e, he, hd⟩⟩⟩

theorem keeps_xclaim {K : Facts} (consumer : String) (minIdle : ℕ) (id : StreamId) :
    Keeps p K (await (.xclaim consumer minIdle id)) (whenOk (EntriesOk p)) := by
  refine keeps_answersEntries rfl (fun _ _ _ => trivial) ?_
  intro p w w' r h
  simp only [Op.run] at h
  split_ifs at h
  · obtain ⟨rfl, -⟩ := h
    exact ⟨_, rfl, fun e he => ⟨(Stream.mem_xrange.mp he).1, fun d hd => ⟨e, he, hd⟩⟩⟩
  · obtain ⟨rfl, -⟩ := h
    exact ⟨_, rfl, fun e he => by simp at he⟩

theorem keeps_readMessages (consumer : String) (count : ℕ) :
    Keeps p top (readMessages consumer count) (whenOk (MessagesOk p)) :=
  Ensures.bind (keeps_xreadgroup consumer count) (fun es => keeps_decodeAll _ es)
    fun _ _ _ _ => trivial

theorem keeps_claimEntries (consumer : String) (minIdle : ℕ)
    (pending : List (StreamId × ℕ × ℕ)) :
    Keeps p top (claimEntries consumer minIdle pending) (whenOk (MessagesOk p)) := by
  induction pending with
  | nil => exact fun _ _ _ m hm => by simp at hm
  | cons x pending ih =>
    obtain ⟨id, idle, times⟩ := x
    unfold claimEntries
    split_ifs
    · refine Ensures.bind (keeps_xclaim consumer minIdle id) ?_ fun _ _ _ _ => trivial
      intro es
      refine Ensures.bind (keeps_decodeAll _ es) ?_ fun _ _ _ _ => trivial
      intro messages
      refine Ensures.bind ((ih.frame (persistent_messages messages)).pre
        fun _ _ h => ⟨trivial, h⟩) ?_ fun _ _ _ _ => trivial
      rintro claimed w past ⟨hc, hm⟩ m hmem
      rcases List.mem_append.mp hmem with hmem | hmem
      · exact hm m hmem
      · exact hc m hmem
    · exact ih

theorem keeps_claimStaleMessage (consumer : String) (minIdle count : ℕ) :
    Keeps p top (claimStaleMessage consumer minIdle count) (whenOk (MessagesOk p)) :=
  Ensures.bind (m := fun _ => top) (Ensures.skip Persistent.true fun _ _ _ _ => trivial)
    (fun pending => keeps_claimEntries consumer minIdle pending) fun _ _ _ _ => trivial

theorem keeps_handledNote {K : Facts} (id : StreamId) (ok : Bool) :
    Keeps p K (await (.note (.handled id ok)))
      (whenOk fun _ _ past => ok = true → HandledLast p past id) := by
  refine Ensures.perform (stable_whenOk fun _ => ?_) (fun _ _ _ _ => trivial) ?_
  · intro w past a w' _ _ _ hp h hok
    obtain ⟨fl, h⟩ := h hok
    exact ⟨fl, by rw [lastOf_other hp, h]⟩
  · intro f w past r w' _ _ hx _
    rcases exec_cases hx with ⟨rfl, -⟩ | ⟨-, e, he, -⟩ | ⟨hl, -⟩
    · rintro rfl
      exact ⟨f, lastOf_own rfl⟩
    · exact he.elim
    · simp [Op.Loses, Op.OnRedis] at hl

theorem stable_copiedLast (id : StreamId) :
    logic.Stable p fun _ past => CopiedLast p past id := by
  rintro w past a w' - - - hp ⟨fl, f, x, hl, hid⟩
  exact ⟨fl, f, x, by rw [lastOf_other hp, hl], hid⟩

theorem keeps_moveToDeadLetter (m : Message) :
    Keeps p (MessagesOk p [m]) (moveToDeadLetter m)
      (whenOk fun _ _ past => CopiedLast p past m.id) := by
  unfold moveToDeadLetter
  refine Ensures.bind (Ensures.skip (persistent_messages _) fun _ _ _ _ => trivial) ?_
    fun _ _ _ _ => trivial
  intro now
  refine Ensures.bind (m := whenOk fun _ _ past => CopiedLast p past m.id)
    (Ensures.perform (stable_whenOk fun _ => stable_copiedLast m.id) ?_ ?_) ?_
    fun _ _ _ _ => trivial
  · intro w past _ hm
    obtain ⟨hentry, hrec⟩ := hm m (List.mem_singleton_self m)
    refine ⟨⟨m.data, rfl, hrec⟩, ?_⟩
    rintro id hid
    obtain rfl : m.id = id := by simpa using hid
    exact ⟨m.data, rfl, hentry⟩
  · intro f w past r w' _ _ _ _
    cases r with
    | ok x => exact ⟨f, _, x, lastOf_own rfl, rfl⟩
    | error _ => trivial
  · exact fun _ _ _ h => h

theorem keeps_acknowledge {K : Facts} (id : StreamId)
    (hK : ∀ w past, K w past → HandledLast p past id ∨ CopiedLast p past id) :
    Keeps p K (acknowledge id) fun _ => top :=
  Ensures.bind (m := fun _ => top) (Ensures.perform (fun _ => Persistent.true.stable)
    (fun w past _ hk => hK w past hk) fun _ _ _ _ _ _ _ _ _ => trivial)
    (fun _ _ _ _ => trivial) fun _ _ _ _ => trivial

/-- The handlers of the worker are lawful on genuine payloads. -/
def HandlersLawful (worker : Worker) : Prop :=
  ∀ data handler, worker.getHandler data = .ok (some handler) →
    ∀ p m, Keeps p (fun w past => Received p w past m.data) (handler m) fun _ => top

theorem keeps_processMessage {worker : Worker} (hlaw : HandlersLawful worker) (m : Message) :
    Keeps p (MessagesOk p [m]) (worker.processMessage m)
      (whenOk fun ok _ past => ok = true → HandledLast p past m.id) := by
  unfold Worker.processMessage
  cases ht : m.data.get "trace_id" with
  | error e => exact fun _ _ _ => trivial
  | ok _ =>
    rw [Prog.ofExcept_ok, Prog.ret_bind]
    refine Ensures.bind (Ensures.skip (persistent_messages _) fun _ _ _ _ => trivial) ?_
      fun _ _ _ _ => trivial
    intro _
    cases hh : worker.getHandler m.data with
    | error e => exact fun _ _ _ => trivial
    | ok handler =>
      rw [Prog.ofExcept_ok, Prog.ret_bind]
      cases handler with
      | none => exact fun _ _ _ h => by simp at h
      | some handler =>
        have hrun : Keeps p (MessagesOk p [m]) (handlerResult handler m) fun _ => top := by
          unfold handlerResult
          refine Ensures.tryCatch (m := fun _ => top) ?_ (fun _ _ _ _ => trivial)
            fun _ _ _ _ => trivial
          refine Ensures.bind ((hlaw _ _ hh p m).pre
            fun w past hm => (hm m (List.mem_singleton_self m)).2) ?_ fun _ _ _ _ => trivial
          exact fun _ _ _ _ => trivial
        refine Ensures.bind hrun ?_ fun _ _ _ _ => trivial
        intro ok
        refine Ensures.bind (keeps_handledNote m.id ok) ?_ fun _ _ _ _ => trivial
        exact fun _ _ _ h => h

theorem keeps_handleFailure (worker : Worker) (m : Message) :
    Keeps p (MessagesOk p [m]) (worker.handleFailure m) fun _ => top := by
  unfold Worker.handleFailure
  cases ht : m.data.get "trace_id" with
  | error e => exact fun _ _ _ => trivial
  | ok _ =>
    rw [Prog.ofExcept_ok, Prog.ret_bind]
    split_ifs
    · refine Ensures.tryCatch (m := fun _ => top) ?_ (fun _ _ _ _ => trivial)
        fun _ _ _ _ => trivial
      refine Ensures.bind (keeps_moveToDeadLetter m) ?_ fun _ _ _ _ => trivial
      exact fun _ => keeps_acknowledge m.id fun _ _ h => Or.inr h
    · exact fun _ _ _ => trivial

theorem keeps_processOne {worker : Worker} (hlaw : HandlersLawful worker) (m : Message) :
    Keeps p (MessagesOk p [m]) (worker.processOne m) fun _ => top := by
  unfold Worker.processOne
  cases ha : m.data.get "amount" with
  | error e => exact fun _ _ _ => trivial
  | ok amount =>
    rw [Prog.ofExcept_ok, Prog.ret_bind]
    split_ifs
    · refine Ensures.bind (keeps_moveToDeadLetter m) ?_ fun _ _ _ _ => trivial
      exact fun _ => keeps_acknowledge m.id fun _ _ h => Or.inr h
    · refine Ensures.bind (((keeps_processMessage hlaw m).frame (persistent_messages [m])).pre
        fun _ _ h => ⟨h, h⟩) ?_ fun _ _ _ _ => trivial
      intro ok
      cases ok with
      | true => exact keeps_acknowledge m.id fun _ _ h => Or.inl (h.1 rfl)
      | false => exact (keeps_handleFailure worker m).pre fun _ _ h => h.2

theorem keeps_processBatch {worker : Worker} (hlaw : HandlersLawful worker) :
    Keeps p top worker.processBatch fun _ => top := by
  have hloop : ∀ messages, Keeps p (MessagesOk p messages)
      (Prog.forEach worker.processOne messages) fun _ => top := fun messages =>
    Ensures.forEach (persistent_messages messages) fun m hm =>
      (keeps_processOne hlaw m).pre fun w past h m' hm' => by
        obtain rfl := List.mem_singleton.mp hm'
        exact h m' hm
  unfold Worker.processBatch
  refine Ensures.bind (keeps_claimStaleMessage _ _ _) ?_ fun _ _ _ _ => trivial
  intro stale
  refine Ensures.bind (hloop stale) ?_ fun _ _ _ _ => trivial
  intro _
  refine Ensures.bind (keeps_readMessages _ _) ?_ fun _ _ _ _ => trivial
  exact fun messages => hloop messages

theorem paymentWorker_handlers (workerId : String) : HandlersLawful (paymentWorker workerId) := by
  intro data handler h p m
  obtain rfl := paymentWorker_getHandler h
  exact Ensures.bind (keeps_handlePayment m) (fun _ _ _ _ => trivial) fun _ _ _ _ => trivial

end Pipeline

end PaymentRecon
