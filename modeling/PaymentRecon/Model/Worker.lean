import PaymentRecon.Model.Outbox

/-!
# Worker — consumers of the stream, and the replay of dead letters

`ConsumerGroup` of `order/queue_manager.py`, `Worker` of `worker.py` and
`DeadLetterQueue.replay_message` of `admin/dlq_manager.py`.  Times are in milliseconds.
-/

namespace PaymentRecon

open Interleave Streams

/-- A handler answers a truth value, or `None`. -/
abbrev Handler := Message → App (Option Bool)

structure Worker where
  workerId : String
  maxRetries : ℤ
  handlers : List (String × Handler)
  defaultHandler : Option Handler

/-! ## Reading and claiming -/

/-- The message of a stream entry; a missing field gets its default. -/
def decode (attempts : Fields → ℤ) (entry : StreamId × Fields) : App Message := do
  let now ← await .now
  pure ⟨entry.1, entry.2.loads, attempts entry.2, entry.2.createdAt.getD now⟩

def decodeAll (attempts : Fields → ℤ) : List (StreamId × Fields) → App (List Message)
  | [] => pure []
  | entry :: entries => do
    let message ← decode attempts entry
    let messages ← decodeAll attempts entries
    pure (message :: messages)

def readMessages (consumer : String) (count : ℕ) : App (List Message) := do
  let result ← await (.xreadgroup consumer count)
  decodeAll (fun fields => fields.attempts.getD 0) result

def claimEntries (consumer : String) (minIdleTime : ℕ) :
    List (StreamId × ℕ × ℕ) → App (List Message)
  | [] => pure []
  | (id, timeSinceDelivered, timesDelivered) :: pending =>
    if minIdleTime ≤ timeSinceDelivered then do
      let result ← await (.xclaim consumer minIdleTime id)
      let messages ← decodeAll (fun _ => timesDelivered) result
      let claimed ← claimEntries consumer minIdleTime pending
      pure (messages ++ claimed)
    else claimEntries consumer minIdleTime pending

def claimStaleMessage (consumer : String) (minIdleTime count : ℕ) : App (List Message) := do
  let pending ← await (.xpending count)
  claimEntries consumer minIdleTime pending

def acknowledge (id : StreamId) : App Unit := do
  let _ ← await (.xack id)
  pure ()

/-! ## Processing -/

/-- A falsy type is not looked up; one that is no key of a dictionary is a `TypeError`. -/
def Worker.getHandler (w : Worker) (data : Json) : Except Exc (Option Handler) :=
  match data.get "type" with
  | .error e => .error e
  | .ok msgType =>
    if msgType.truthy = false then .ok w.defaultHandler
    else match msgType with
      | .str s => .ok ((w.handlers.lookup s).or w.defaultHandler)
      | .arr _ => .error ⟨.typeError, "unhashable type: 'list'"⟩
      | .obj _ => .error ⟨.typeError, "unhashable type: 'dict'"⟩
      | _ => .ok w.defaultHandler

/-- The outcome of the handler, as `_process_message` reports it. -/
def handlerResult (handler : Handler) (m : Message) : App Bool :=
  try
    let result ← handler m
    pure (result.getD true)
  catch e => pure (e.kind = .ignoreAndAckMessage)

def Worker.processMessage (w : Worker) (m : Message) : App Bool := do
  let _ ← Prog.ofExcept (m.data.get "trace_id")
  await (.note (.started m.id))
  let handler ← Prog.ofExcept (w.getHandler m.data)
  match handler with
  | none => pure false
  | some handler => do
    let ok ← handlerResult handler m
    await (.note (.handled m.id ok))
    pure ok

def moveToDeadLetter (m : Message) : App Unit := do
  let now ← await .now
  let _ ← await (.xaddDead { Fields.none with
    data := some m.data, originalId := some m.id, attempts := some m.attempts,
    failedAt := some now })
  pure ()

def Worker.handleFailure (w : Worker) (m : Message) : App Unit := do
  let _ ← Prog.ofExcept (m.data.get "trace_id")
  if w.maxRetries ≤ m.attempts then
    try
      moveToDeadLetter m
      acknowledge m.id
    catch _ => pure ()
  else pure ()

/-- The body of both loops of `_process_batch`. -/
def Worker.processOne (w : Worker) (m : Message) : App Unit := do
  let amount ← Prog.ofExcept (m.data.get "amount")
  if amount.truthy = false then do
    moveToDeadLetter m
    acknowledge m.id
  else do
    let ok ← w.processMessage m
    if ok then acknowledge m.id else w.handleFailure m

def Worker.processBatch (w : Worker) : App Unit := do
  let stale ← claimStaleMessage w.workerId 6000 10
  Prog.forEach w.processOne stale
  let messages ← readMessages w.workerId 10
  Prog.forEach w.processOne messages

def dependenciesHandler : Handler := fun m => do
  let result ← handlePayment m
  pure (some result)

/-- The worker that `main` builds: `payment` messages go to `handle_payment`. -/
def paymentWorker (workerId : String) : Worker where
  workerId := workerId
  maxRetries := 3
  handlers := [("payment", dependenciesHandler)]
  defaultHandler := none

/-- A handler of the worker is one it was built with. -/
theorem Worker.getHandler_mem {worker : Worker} {d : Json} {handler : Handler}
    (h : worker.getHandler d = .ok (some handler)) :
    worker.defaultHandler = some handler ∨ ∃ s, worker.handlers.lookup s = some handler := by
  unfold Worker.getHandler at h
  split at h
  · cases h
  · split_ifs at h
    · exact Or.inl (Except.ok.inj h)
    · split at h
      · next s _ _ =>
        obtain hs | ⟨-, hd⟩ := Option.or_eq_some_iff.mp (Except.ok.inj h)
        · exact Or.inr ⟨s, hs⟩
        · exact Or.inl hd
      · cases h
      · cases h
      · exact Or.inl (Except.ok.inj h)

/-- With one handler and no default, that handler is the only one the worker dispatches to. -/
theorem Worker.getHandler_single {worker : Worker} {type : String} {only : Handler}
    (hone : worker.handlers = [(type, only)]) (hnone : worker.defaultHandler = none) {d : Json}
    {handler : Handler} (h : worker.getHandler d = .ok (some handler)) : handler = only := by
  obtain hd | ⟨s, hs⟩ := Worker.getHandler_mem h
  · simp [hnone] at hd
  · rw [hone, List.lookup_cons, List.lookup_nil] at hs
    split at hs
    · exact (Option.some.inj hs).symm
    · cases hs

/-- The payment handler is the only one the worker dispatches to. -/
theorem paymentWorker_getHandler {workerId : String} {d : Json} {handler : Handler}
    (h : (paymentWorker workerId).getHandler d = .ok (some handler)) :
    handler = dependenciesHandler :=
  Worker.getHandler_single rfl rfl h

/-- One turn of the loop of `_run`: an error ends the batch and the loop goes on. -/
def Worker.turn (w : Worker) : App Response :=
  try
    w.processBatch
    pure .batch
  catch _ => pure .batch

/-! ## Replaying a dead letter -/

/-- `None` when there is no such entry. -/
def replayMessage (msgId : IdArg) : App (Option StreamId) := do
  let message ← await (.xrangeDead msgId)
  match message with
  | [] => pure none
  | (_, fields) :: _ => do
    let newMsgId ← await (.moveDead { fields with attempts := some 0 } msgId)
    pure (some newMsgId)

/-- The endpoint `POST /admin/replay-dlq/{message_id}`. -/
def replayDlqDashboard (msgId : IdArg) : App Response := do
  let replayMessage ← replayMessage msgId
  match replayMessage with
  | none => throw (httpException 404 "There is no result")
  | some newMsgId => pure (.replayed newMsgId)

end PaymentRecon
