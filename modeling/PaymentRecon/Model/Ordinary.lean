import PaymentRecon.Lib.Rely
import PaymentRecon.Model.System

/-!
# Ordinary — requests that neither allocate nor settle

Most requests touch no amount and no intent: all their operations are `Off`.  The worker touches them
through its handler only.  What is shown here holds for any logic in which such operations keep an
assertion.
-/

namespace PaymentRecon

open Interleave Rely

/-- An operation that neither touches the pool nor stores or settles an intent. -/
def Aside : Op → Prop
  | .spop _ | .smove _ _ _ | .sadd _ _ | .del _ | .sdiffstore _ _ _ | .insertOrder _ _ _
  | .flushPaid _ _ | .commit | .rollback => False
  | _ => True

/-- An operation of a request that does nothing with the pool. -/
def Off (op : Op) : Prop := Aside op ∨ op = Op.commit ∨ op = Op.rollback

/-! ## The operations of the requests -/

/-- An operation of the webhook. -/
def Records : Op → Prop
  | .insertSms _ _ _ _ _ | .insertEvent _ | .commit | .rollback => True
  | _ => False

/-- An operation of the relay. -/
def Relays : Op → Prop
  | .claimEvents _ _ _ | .publishEvents _ | .failEvents _ | .xadd _ | .xaddDead _ | .now | .commit
  | .rollback => True
  | _ => False

/-- An operation of the worker, outside its handler. -/
def Consumes : Op → Prop
  | .xreadgroup _ _ | .xpending _ | .xclaim _ _ _ | .xack _ | .xaddDead _ | .now | .note _ => True
  | _ => False

/-- An operation that fetches messages for the worker. -/
def Fetches : Op → Prop
  | .xreadgroup _ _ | .xpending _ | .xclaim _ _ _ | .now => True
  | _ => False

/-- An operation of the replay of a dead letter. -/
def Replays : Op → Prop
  | .xrangeDead _ | .moveDead _ _ => True
  | _ => False

/-- An operation that settles an order. -/
def Collects : Op → Prop
  | .intentBySms _ | .beginSelect | .lockPending _ | .lockById _ _ | .flushPaid _ _
  | .smove .pendingOrders .freeAmounts _ | .commit | .rollback => True
  | _ => False

/-- The operations that look for the intent of a transfer and settle it. -/
def Seeks : Op → Prop
  | .intentBySms _ | .beginSelect | .lockPending _ | .flushPaid _ _ => True
  | _ => False
/-- An operation by which the worker is done with a message. -/
def Disposes : Op → Prop
  | .xack _ | .xaddDead _ | .now => True
  | _ => False

theorem Records.off {op : Op} (h : Records op) : Off op := by
  cases op <;> first
    | exact h.elim
    | exact Or.inl trivial
    | exact Or.inr (Or.inl rfl)
    | exact Or.inr (Or.inr rfl)

theorem Relays.off {op : Op} (h : Relays op) : Off op := by
  cases op <;> first
    | exact h.elim
    | exact Or.inl trivial
    | exact Or.inr (Or.inl rfl)
    | exact Or.inr (Or.inr rfl)

theorem Consumes.off {op : Op} (h : Consumes op) : Off op := by
  cases op <;> first
    | exact h.elim
    | exact Or.inl trivial

theorem Seeks.collects {op : Op} (h : Seeks op) : Collects op := by
  cases op <;> first | exact h.elim | trivial

theorem Disposes.consumes {op : Op} (h : Disposes op) : Consumes op := by
  cases op <;> first | exact h.elim | trivial

theorem Fetches.consumes {op : Op} (h : Fetches op) : Consumes op := by
  cases op <;> first
    | exact h.elim
    | trivial

theorem Replays.off {op : Op} (h : Replays op) : Off op := by
  cases op <;> first
    | exact h.elim
    | exact Or.inl trivial

section Rules

variable {A : Op → Prop}

theorem all_try {β : Type} {x : App β} {h : Exc → App β} (hx : x.All A fun _ => True)
    (hh : ∀ e, (h e).All A fun _ => True) : (x.tryCatch h).All A fun _ => True :=
  Prog.All.tryCatch hx (fun _ _ => trivial) fun e _ => hh e

theorem all_seq {β γ : Type} {x : App β} {f : β → App γ} (hx : x.All A fun _ => True)
    (hf : ∀ b, (f b).All A fun _ => True) : (x >>= f).All A fun _ => True :=
  Prog.All.bind hx (fun b _ => hf b) fun _ _ => trivial

theorem all_ofExcept {β : Type} (r : Except Exc β) :
    (Prog.ofExcept r : App β).All A fun _ => True := by
  cases r <;> trivial

theorem all_rollback_throw {β : Type} (hA : A .rollback) (e : Exc) :
    (do await .rollback; throw e : App β).All A fun _ => True :=
  all_then hA (fun _ => trivial) fun _ => trivial

theorem all_withDb {β : Type} {body : App β} (hA : A .rollback) (h : body.All A fun _ => True) :
    (withDb body).All A fun _ => True :=
  all_try h fun e => all_rollback_throw hA e

end Rules

/-! ## The webhook, the relay and the replay -/

theorem all_handleTransactionService (s : SmsData) :
    (handleTransactionService s).All Records fun _ => True := by
  unfold handleTransactionService
  refine all_try ?_ ?_
  · refine all_seq ?_ fun transaction => all_seq (all_ofExcept _) fun traceId => all_seq ?_ fun _ =>
      all_then trivial (fun _ => trivial) fun _ => trivial
    · unfold createTransactionService
      split
      · refine all_try (all_await trivial) fun e => ?_
        split_ifs <;> trivial
      · trivial
    · unfold createOutboxEventService
      split_ifs
      · trivial
      · refine all_try (all_await trivial) fun e => ?_
        split_ifs <;> trivial
  · intro e
    split
    · exact all_rollback_throw trivial _
    · exact all_rollback_throw trivial _
    · exact all_rollback_throw trivial _
    · exact all_rollback_throw trivial _
    · trivial

theorem all_receiveTransaction (s : SmsData) : (receiveTransaction s).All Records fun _ => True := by
  unfold receiveTransaction
  refine all_withDb trivial (all_try (all_seq (all_handleTransactionService s) fun _ => trivial) ?_)
  intro e
  split <;> trivial

theorem all_enqueue (data : Json) : (enqueue data).All Relays fun _ => True :=
  all_seq (all_await trivial) fun _ => all_await trivial

theorem all_enqueueDeadLetter (data : Json) (id : Id) (reason : String) :
    (enqueueDeadLetter data id reason).All Relays fun _ => True :=
  all_seq (all_await trivial) fun _ => all_await trivial

theorem all_processSingleOutboxEvent (event : ClaimedEvent) :
    (processSingleOutboxEvent event).All Relays fun _ => True := by
  unfold processSingleOutboxEvent
  split
  · refine all_try (all_seq (all_enqueueDeadLetter _ _ _) fun _ => trivial) fun e => ?_
    split_ifs <;> trivial
  · refine all_try (all_seq (all_enqueue _) fun _ => trivial) fun e => ?_
    split_ifs <;> trivial

theorem all_processEvents (events : List ClaimedEvent) :
    (processEvents events).All Relays fun _ => True := by
  induction events with
  | nil => trivial
  | cons event events ih =>
    exact all_seq (all_processSingleOutboxEvent event) fun _ => all_seq ih fun _ => trivial

/-- The two statements on the outcomes, and the end of the transaction. -/
theorem all_processOutboxUpdates {A : Op → Prop} {updates : List EventUpdate}
    (hpublish : ∀ ids, A (.publishEvents ids))
    (hfail : ∀ us, (∀ u ∈ us, u ∈ updates ∧ u.status ≠ .PUBLISHED) → A (.failEvents us))
    (hcommit : A .commit) (hrollback : A .rollback) :
    (processOutboxUpdates updates).All A fun _ => True := by
  unfold processOutboxUpdates
  split_ifs
  · trivial
  · refine all_try (all_seq ?_ fun _ => all_seq ?_ fun _ => all_await hcommit)
      fun e => all_rollback_throw hrollback e
    · unfold publishStmt
      split_ifs
      · trivial
      · exact all_await (hpublish _)
    · unfold errorStmt
      split_ifs
      · trivial
      · refine all_await (hfail _ fun u hu => ?_)
        obtain ⟨hmem, hst⟩ := List.mem_filter.mp hu
        exact ⟨hmem, by simpa using hst⟩

theorem all_processOutboxEvent : processOutboxEvent.All Relays fun _ => True := by
  unfold processOutboxEvent
  refine all_seq (all_seq (all_await trivial) fun _ => all_await trivial) fun events => ?_
  split_ifs
  · trivial
  · exact all_seq (all_processEvents events) fun updates =>
      all_seq (all_processOutboxUpdates (fun _ => trivial) (fun _ _ => trivial) trivial trivial)
        fun _ => trivial

theorem all_replayDlqDashboard (x : IdArg) : (replayDlqDashboard x).All Replays fun _ => True := by
  unfold replayDlqDashboard replayMessage
  refine all_seq (all_seq (all_await trivial) fun message => ?_) fun r => ?_
  · cases message with
    | nil => trivial
    | cons e es => exact all_seq (all_await trivial) fun _ => trivial
  · cases r <;> trivial

/-! ## Requests that stock the pool -/

/-- An operation of a request that creates an order. -/
def Creates : Op → Prop
  | .spop _ | .smove .amounts .pendingOrders _ | .smove .pendingOrders .amounts _
  | .sadd .freeAmounts _ | .scard _ | .candidate _ _ | .insertOrder _ _ _ | .refreshOrder _ | .commit
  | .rollback => True
  | _ => False

/-- An operation that seeds the pool. -/
def Fills : Op → Prop
  | .exists _ | .sadd .amounts _ => True
  | _ => False

/-- An operation that rebuilds the sets of the pool from the PENDING intents. -/
def Refills : Op → Prop
  | .pendingPage _ _ | .sadd .pendingOrders _ | .del .pendingOrders
  | .sdiffstore .freeAmounts .amounts .pendingOrders | .outOfFuel => True
  | _ => False

/-- An operation on the pool, or on the orders that are created; nothing is released or settled. -/
def Stocks : Op → Prop
  | .spop _ | .smove .amounts .pendingOrders _ | .smove .pendingOrders .amounts _ | .sadd _ _
  | .scard _ | .exists _ | .del _ | .sdiffstore _ _ _ | .candidate _ _ | .insertOrder _ _ _
  | .refreshOrder _ | .pendingPage _ _ | .commit | .rollback | .outOfFuel => True
  | _ => False

theorem Creates.stocks {op : Op} (h : Creates op) : Stocks op := by
  cases op with
  | smove src dst a => cases src <;> cases dst <;> first | exact h.elim | trivial
  | _ => first | exact h.elim | trivial

theorem Fills.stocks {op : Op} (h : Fills op) : Stocks op := by
  cases op <;> first
    | exact h.elim
    | trivial

theorem Refills.stocks {op : Op} (h : Refills op) : Stocks op := by
  cases op <;> first
    | exact h.elim
    | trivial

/-- The request does not answer `accepted`. -/
def NotAccepted (r : Except Exc Response) : Prop := ∀ t, r ≠ .ok (.accepted t)

@[simp] theorem notAccepted_error (e : Exc) : NotAccepted (.error e) := fun _ => by simp

theorem all_getUniqueAmount (b : Option Amount) :
    (getUniqueAmount b).All Creates fun _ => True := by
  unfold getUniqueAmount
  refine Prog.All.tryCatch (m := fun _ => True) ?_ (fun _ _ => trivial) ?_
  · refine all_then trivial ?_ fun _ => trivial
    intro given
    cases given with
    | none => trivial
    | some a => exact all_then trivial (fun _ => trivial) fun _ => trivial
  · intro e _
    split_ifs
    · exact all_then trivial (fun _ => trivial) fun _ => trivial
    · trivial

theorem all_compensate (a : Amount) : (compensate a).All Creates fun _ => True := by
  unfold compensate
  refine Prog.All.tryCatch (m := fun _ => True) ?_ (fun _ _ => trivial) fun _ _ => trivial
  exact all_then trivial (fun _ => all_await trivial) fun _ => trivial

theorem all_compensate_throw {β : Type} (a : Amount) (e : Exc) :
    (do compensate a; throw e : App β).All Creates fun _ => True :=
  Prog.All.bind (all_compensate a) (fun _ _ => trivial) fun _ _ => trivial

theorem all_logStatistics : logStatistics.All Creates fun _ => True := by
  unfold logStatistics
  refine Prog.All.tryCatch (m := fun _ => True) ?_ (fun _ _ => trivial) fun _ _ => trivial
  refine all_then trivial ?_ fun _ => trivial
  exact fun _ => all_then trivial (fun _ => trivial) fun _ => trivial

theorem all_createOrderLoop (userId : Id) (amount : Amount) (n : ℕ) :
    (createOrderLoop userId amount n).All Creates fun _ => True := by
  induction n with
  | zero => trivial
  | succ n ih =>
    unfold createOrderLoop
    refine Prog.All.bind (all_getUniqueAmount _) ?_ fun _ _ => trivial
    intro unique _
    split
    · exact Prog.All.bind all_logStatistics (fun _ _ => trivial) fun _ _ => trivial
    · refine Prog.All.tryCatch (m := fun _ => True) ?_ (fun _ _ => trivial) ?_
      · exact all_then trivial (fun _ => trivial) fun _ => trivial
      · intro e _
        split_ifs
        · exact all_compensate_throw _ _
        · exact ih
        · trivial
        · exact all_compensate_throw _ _
        · trivial

theorem stocks_rollback_throw {β : Type} (e : Exc) {R : Except Exc β → Prop} (hR : ∀ e, R (.error e)) :
    (do await .rollback; throw e : App β).All Creates R :=
  all_then trivial (fun _ => hR e) hR

theorem creates_createOrder (userId : Id) (amount : Amount) :
    (createOrder userId amount).All Creates NotAccepted := by
  unfold createOrder withDb
  refine Prog.All.tryCatch (m := NotAccepted) ?_ (fun _ h => h) fun e _ =>
    stocks_rollback_throw e notAccepted_error
  refine Prog.All.tryCatch (m := NotAccepted) ?_ (fun _ h => h) ?_
  · refine Prog.All.bind (all_createOrderLoop userId amount 3) ?_ fun e _ => notAccepted_error e
    intro order _
    cases order with
    | none => exact notAccepted_error _
    | some o =>
      refine all_then trivial ?_ notAccepted_error
      intro _
      refine all_then trivial ?_ notAccepted_error
      exact fun _ t => by simp
  · intro e _
    split
    · exact notAccepted_error _
    · exact stocks_rollback_throw _ notAccepted_error
    · exact stocks_rollback_throw _ notAccepted_error

theorem all_createOrder (userId : Id) (amount : Amount) :
    (createOrder userId amount).All Stocks NotAccepted :=
  (creates_createOrder userId amount).mono (fun _ => Creates.stocks) fun _ h => h

theorem all_addPendingOrders (limit redisBuffer fuel : ℕ) (last : Id) (buffer : List Amount) :
    (addPendingOrders limit redisBuffer fuel last buffer).All Refills fun _ => True := by
  induction fuel generalizing last buffer with
  | zero => exact all_then trivial (fun _ => trivial) fun _ => trivial
  | succ fuel ih =>
    unfold addPendingOrders
    refine all_then trivial ?_ fun _ => trivial
    intro orders
    split
    · trivial
    · simp only
      split_ifs
      · exact all_then trivial (fun _ => ih _ _) fun _ => trivial
      · exact ih _ _

theorem all_isExistRangeAmount (start stop : Amount) (batch : ℕ) :
    (isExistRangeAmount start stop batch).All Fills fun _ => True := by
  unfold isExistRangeAmount
  refine all_then trivial ?_ fun _ => trivial
  intro existing
  split_ifs
  · trivial
  · exact Prog.All.forEach (fun xs _ => all_await trivial) trivial

theorem all_rebuildPool (limit redisBuffer fuel : ℕ) :
    (rebuildPool limit redisBuffer fuel).All Refills fun _ => True := by
  unfold rebuildPool
  refine all_then trivial ?_ fun _ => trivial
  intro _
  refine Prog.All.bind (all_addPendingOrders _ _ _ _ _) ?_ fun _ _ => trivial
  intro buffer _
  split_ifs
  · exact all_then trivial (fun _ => all_await trivial) fun _ => trivial
  · exact all_await trivial

/-- An operation of the startup. -/
def Seeds (op : Op) : Prop := Fills op ∨ Refills op

theorem seeds_lifespan (fuel : ℕ) : (lifespan fuel).All Seeds NotAccepted := by
  unfold lifespan
  refine Prog.All.bind ((all_isExistRangeAmount _ _ _).mono (fun _ => Or.inl) fun _ h => h) ?_
    fun e _ => notAccepted_error e
  intro _ _
  refine Prog.All.bind ((all_rebuildPool _ _ _).mono (fun _ => Or.inr) fun _ h => h) ?_
    fun e _ => notAccepted_error e
  exact fun _ _ t => by simp

theorem all_lifespan (fuel : ℕ) : (lifespan fuel).All Stocks NotAccepted :=
  (seeds_lifespan fuel).mono (fun _ h => h.elim Fills.stocks Refills.stocks) fun _ h => h

/-! ## Settling an order -/

theorem all_scalarOne {A : Op → Prop} (rows : List PaymentIntent) :
    (scalarOne rows).All A fun _ => True := by
  unfold scalarOne
  split <;> trivial

theorem all_processPendingPayment (amount t : Json) :
    (processPendingPayment amount t).All Seeks fun _ => True := by
  unfold processPendingPayment
  split_ifs
  · trivial
  · refine all_seq (all_await trivial) fun already => ?_
    cases already with
    | some i => trivial
    | none =>
      refine all_seq (all_await trivial) fun _ => all_seq (all_await trivial) fun rows => ?_
      refine all_try (all_seq (all_scalarOne rows) fun i => ?_) fun e => trivial
      exact all_seq (all_await trivial) fun _ => trivial

theorem all_handlePayment (m : Message) : (handlePayment m).All Collects fun _ => True := by
  unfold handlePayment
  refine all_try ?_ fun e => all_seq (all_await trivial) fun _ => trivial
  refine all_seq (all_ofExcept _) fun amount => all_seq (all_ofExcept _) fun t => ?_
  refine all_seq ((all_processPendingPayment amount t).mono (fun _ h => h.collects) fun _ h => h) fun result =>
    all_seq (all_await trivial) fun _ => ?_
  split_ifs
  · exact all_seq (all_await trivial) fun _ => trivial
  · trivial

theorem all_dependenciesHandler (m : Message) : (dependenciesHandler m).All Collects fun _ => True :=
  all_seq (all_handlePayment m) fun _ => trivial

theorem all_confirmPayment (orderId paymentId : Id) :
    (confirmPayment orderId paymentId).All Collects fun _ => True := by
  unfold confirmPayment handlePendingPayment
  refine all_withDb trivial (all_try ?_ fun e => all_seq (all_await trivial) fun _ => ?_)
  · refine all_seq ?_ fun i => all_seq (all_await trivial) fun _ => trivial
    refine all_seq (all_await trivial) fun _ => all_seq (all_await trivial) fun rows => ?_
    refine all_try ?_ fun e => ?_
    · refine all_seq (all_scalarOne rows) fun i => all_seq (all_await trivial) fun _ => ?_
      exact all_seq (all_await trivial) fun _ => trivial
    · split_ifs <;> trivial
  · split_ifs <;> trivial

/-! ## The commands of the worker -/

theorem all_decodeAll (attempts : Fields → ℤ) (entries : List (Streams.StreamId × Fields)) :
    (decodeAll attempts entries).All Fetches fun _ => True := by
  induction entries with
  | nil => trivial
  | cons e entries ih =>
    exact all_seq (all_seq (all_await trivial) fun _ => trivial) fun _ =>
      all_seq ih fun _ => trivial

theorem all_readMessages (consumer : String) (count : ℕ) :
    (readMessages consumer count).All Fetches fun _ => True :=
  all_seq (all_await trivial) fun result => all_decodeAll _ result

theorem all_claimEntries (consumer : String) (minIdle : ℕ)
    (pending : List (Streams.StreamId × ℕ × ℕ)) :
    (claimEntries consumer minIdle pending).All Fetches fun _ => True := by
  induction pending with
  | nil => trivial
  | cons x pending ih =>
    obtain ⟨id, idle, times⟩ := x
    unfold claimEntries
    split_ifs
    · exact all_seq (all_await trivial) fun result => all_seq (all_decodeAll _ result) fun _ =>
        all_seq ih fun _ => trivial
    · exact ih

theorem all_claimStaleMessage (consumer : String) (minIdle count : ℕ) :
    (claimStaleMessage consumer minIdle count).All Fetches fun _ => True :=
  all_seq (all_await trivial) fun pending => all_claimEntries consumer minIdle pending

theorem all_acknowledge (id : Streams.StreamId) : (acknowledge id).All Disposes fun _ => True :=
  all_seq (all_await trivial) fun _ => trivial

theorem all_moveToDeadLetter (m : Message) : (moveToDeadLetter m).All Disposes fun _ => True :=
  all_seq (all_await trivial) fun _ => all_seq (all_await trivial) fun _ => trivial

theorem all_handleFailure (worker : Worker) (m : Message) :
    (worker.handleFailure m).All Disposes fun _ => True := by
  unfold Worker.handleFailure
  refine all_seq (all_ofExcept _) fun _ => ?_
  split_ifs
  · exact all_try (all_seq (all_moveToDeadLetter m) fun _ => all_acknowledge m.id) fun _ => trivial
  · trivial

section Worker

variable {L : Rely sig Exc Response World Request Tick} {p : Pid}
  {K : Assertion sig Exc World Request Tick}

/-- What the handling of a message keeps, and what is done with the message after it. -/
theorem ensures_disposed {worker : Worker} {m : Message}
    (hdispose : ∀ op, Disposes op → L.Ensures p K (await op) fun _ => K)
    (hmessage : L.Ensures p K (worker.processMessage m) fun _ => K) :
    L.Ensures p K (worker.processOne m) fun _ => K := by
  unfold Worker.processOne
  refine Ensures.bind (Ensures.all hdispose (all_ofExcept _)) ?_ fun _ _ _ h => h
  intro amount
  split_ifs
  · exact Ensures.all hdispose (all_seq (all_moveToDeadLetter m) fun _ => all_acknowledge m.id)
  · refine Ensures.bind hmessage ?_ fun _ _ _ h => h
    intro ok
    split_ifs
    · exact Ensures.all hdispose (all_acknowledge m.id)
    · exact Ensures.all hdispose (all_handleFailure _ m)

/-- A turn fetches messages and processes one after the other. -/
theorem ensures_batches {worker : Worker}
    (hfetch : ∀ op, Fetches op → L.Ensures p K (await op) fun _ => K)
    (hone : ∀ m, L.Ensures p K (worker.processOne m) fun _ => K) :
    L.Ensures p K worker.turn fun _ => K := by
  unfold Worker.turn
  refine Ensures.tryCatch (m := fun _ => K) ?_ (fun _ _ _ h => h) fun _ _ _ h => h
  refine Ensures.bind (m := fun _ => K) ?_ (fun _ _ _ h => h) fun _ _ _ h => h
  unfold Worker.processBatch
  refine Ensures.bind (Ensures.all hfetch (all_claimStaleMessage _ _ _)) ?_ fun _ _ _ h => h
  intro stale
  refine Ensures.bind (Ensures.forEachInv fun m _ => hone m) ?_ fun _ _ _ h => h
  intro _
  refine Ensures.bind (Ensures.all hfetch (all_readMessages _ _)) ?_ fun _ _ _ h => h
  exact fun messages => Ensures.forEachInv fun m _ => hone m

variable (hoff : ∀ op, Consumes op → L.Ensures p K (await op) fun _ => K)
  (hhandler : ∀ m, L.Ensures p K (handlePayment m) fun _ => K)

include hoff hhandler

theorem ensures_processMessage (workerId : String) (m : Message) :
    L.Ensures p K ((paymentWorker workerId).processMessage m) fun _ => K := by
  unfold Worker.processMessage
  refine Ensures.bind (Ensures.all hoff (all_ofExcept _)) ?_ fun _ _ _ h => h
  intro _
  refine Ensures.bind (hoff _ trivial) ?_ fun _ _ _ h => h
  intro _
  cases hd : (paymentWorker workerId).getHandler m.data with
  | error e => exact fun _ _ h => h
  | ok handler =>
    rw [Prog.ofExcept_ok, Prog.ret_bind]
    cases handler with
    | none => exact fun _ _ h => h
    | some h =>
      obtain rfl := paymentWorker_getHandler hd
      have hresult : L.Ensures p K (handlerResult dependenciesHandler m) fun _ => K := by
        unfold handlerResult
        refine Ensures.tryCatch (m := fun _ => K) ?_ (fun _ _ _ h => h) fun _ _ _ h => h
        refine Ensures.bind (m := fun _ => K) ?_ (fun _ _ _ h => h) fun _ _ _ h => h
        exact Ensures.bind (hhandler m) (fun _ _ _ h => h) fun _ _ _ h => h
      refine Ensures.bind hresult ?_ fun _ _ _ h => h
      intro ok
      exact Ensures.bind (hoff _ trivial) (fun _ _ _ h => h) fun _ _ _ h => h

/-- A turn of the worker keeps what its handler keeps. -/
theorem ensures_turn (workerId : String) :
    L.Ensures p K (paymentWorker workerId).turn fun _ => K :=
  ensures_batches (fun op h => hoff op h.consumes) fun m =>
    ensures_disposed (fun op h => hoff op h.consumes) (ensures_processMessage hoff hhandler workerId m)

end Worker

end PaymentRecon
