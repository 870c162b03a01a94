import PaymentRecon.Model.Orders

/-!
# Outbox — the webhook, the outbox relay and the two producers of the streams

The functions of `order/service.py` behind the endpoint `receive_transaction`, of `order/tasks.py`,
and `MessageQueue` of `order/queue_manager.py`.
-/

namespace PaymentRecon

open Interleave Streams

/-! ## The webhook -/

def createTransactionService (s : SmsData) : App SMSTransaction :=
  match s.smsAmount, s.smsInventory, s.smsDate, s.smsTime, s.webhookPayload with
  | some amount, some inventory, some date, some time, some webhookPayload =>
    try await (.insertSms amount inventory date time webhookPayload)
    catch e =>
      if e.kind = .integrityError then
        throw ⟨.duplicateSMSTransactionError, "error_duplicate_transaction"⟩
      else throw e
  | _, _, _, _, _ => throw ⟨.invalidSMSDataError, "error_missing_fields"⟩

def createOutboxEventService (data : Json) : App OutBoxOrderEvent :=
  if data.truthy = false then throw ⟨.invalidSMSDataError, "error_missing"⟩
  else
    try await (.insertEvent data)
    catch e =>
      if e.kind = .integrityError then
        throw ⟨.duplicateOutboxEventError, "error_duplicate_event"⟩
      else throw e

/-- `sms_data["trace_id"]`. -/
def traceIdOf (s : SmsData) : Except Exc String :=
  match s.traceId with
  | some t => .ok t
  | none => .error ⟨.keyError, "trace_id"⟩

/-- The answer is the `transaction_id` of the status `accepted`. -/
def handleTransactionService (s : SmsData) : App Id :=
  try
    let transaction ← createTransactionService s
    let traceId ← Prog.ofExcept (traceIdOf s)
    let _ ← createOutboxEventService
      (transactionData transaction.id traceId transaction.smsAmount)
    await .commit
    pure transaction.id
  catch e =>
    match e.kind with
    | .invalidSMSDataError | .duplicateSMSTransactionError | .duplicateOutboxEventError => do
      await .rollback
      throw e
    | .integrityError => do
      await .rollback
      throw ⟨.databaseError, "database_error"⟩
    | _ => throw e

/-- The endpoint `POST /orders/transaction` from the parsed SMS on. -/
def receiveTransaction (s : SmsData) : App Response :=
  withDb do
    try
      let transactionId ← handleTransactionService s
      pure (.accepted transactionId)
    catch e =>
      match e.kind with
      | .duplicateSMSTransactionError =>
        throw (httpException 400 "The transaction data already exists")
      | .invalidSMSDataError => throw (httpException 400 "The transaction data is incomplete")
      | .duplicateOutboxEventError => throw (httpException 400 "The event data already exists")
      | _ => throw (httpException 500 "Internal Error")

/-! ## Producers -/

def enqueue (data : Json) : App StreamId := do
  let now ← await .now
  await (.xadd { Fields.none with data := some data, createdAt := some now, attempts := some 0 })

def enqueueDeadLetter (data : Json) (eventId : Id) (reason : String) : App StreamId := do
  let now ← await .now
  await (.xaddDead { Fields.none with
    eventId := some eventId, data := some data, reason := some reason,
    originalStream := some "pending_orders_queue", createdAt := some now })

/-! ## The relay -/

def MAX_OUTBOX_RETRIES : ℤ := 5

/-- `LOCK_TIMEOUT_MINUTES`, in milliseconds. -/
def lockTimeout : ℤ := 5 * 60 * 1000

def claimProcessEvents (limit : ℕ) : App (List ClaimedEvent) := do
  let now ← await .now
  await (.claimEvents now (now - lockTimeout) limit)

/-- `data["amount"]` of a dictionary that has the key. -/
def amountOf : Json → Except String Json
  | .obj kvs =>
    match kvs.lookup "amount" with
    | some amount => .ok amount
    | none => .error "Missing amount"
  | _ => .error "Payload must be a dictionary"

def validateEventData (data : Json) : Except String Json :=
  match amountOf data with
  | .error reason => .error reason
  | .ok (.int n) => if n ≤ 0 then .error "Amount must be positive" else .ok data
  | .ok (.float q) => if q ≤ 0 then .error "Amount must be positive" else .ok data
  | .ok _ => .error "Amount must be numeric"

theorem validateEventData_eq {d d' : Json} (h : validateEventData d = .ok d') : d' = d := by
  unfold validateEventData at h
  split at h
  · simp at h
  · split_ifs at h
    simpa using h.symm
  · split_ifs at h
    simpa using h.symm
  · simp at h

/-- The update after a Redis error; `retryCount` counts the attempts before this one. -/
def retryUpdate (id : Id) (retryCount : ℤ) (failed pending : String) : EventUpdate :=
  if MAX_OUTBOX_RETRIES ≤ retryCount + 1 then ⟨id, .FAILED, retryCount + 1, some failed⟩
  else ⟨id, .PENDING, retryCount + 1, some pending⟩

def processSingleOutboxEvent (event : ClaimedEvent) : App EventUpdate :=
  let retryCount := event.retryCount.getD 0
  match validateEventData event.data with
  | .error reason =>
    try
      let _ ← enqueueDeadLetter event.data event.id reason
      pure ⟨event.id, .FAILED, retryCount, some reason⟩
    catch e =>
      if e.kind = .redisError then
        pure (retryUpdate event.id retryCount
          s!"DLQ Redis error after max retries: {e.message}"
          s!"Validation failed ({reason}) + DLQ Redis error: {e.message}")
      else throw e
  | .ok validatedData =>
    try
      let _ ← enqueue validatedData
      pure ⟨event.id, .PUBLISHED, retryCount, none⟩
    catch e =>
      if e.kind = .redisError then
        pure (retryUpdate event.id retryCount
          s!"Max retries ({MAX_OUTBOX_RETRIES}) reached. Last error: {e.message}" e.message)
      else throw e

def processEvents : List ClaimedEvent → App (List EventUpdate)
  | [] => pure []
  | event :: events => do
    let result ← processSingleOutboxEvent event
    let updates ← processEvents events
    pure (result :: updates)

/-- `if published_ids: execute(publish_stmt)`. -/
def publishStmt (publishedIds : List Id) : App Unit :=
  if publishedIds = [] then pure () else await (.publishEvents publishedIds)

/-- `if error_updates: execute(error_stmt, error_updates)`. -/
def errorStmt (errorUpdates : List EventUpdate) : App Unit :=
  if errorUpdates.isEmpty then pure () else await (.failEvents errorUpdates)

def processOutboxUpdates (updates : List EventUpdate) : App Unit :=
  if updates.isEmpty then pure ()
  else
    let publishedIds := (updates.filter fun u => u.status = .PUBLISHED).map (·.id)
    let errorUpdates := updates.filter fun u => u.status ≠ .PUBLISHED
    try
      publishStmt publishedIds
      errorStmt errorUpdates
      await .commit
    catch e => do
      await .rollback
      throw e

def processOutboxEvent : App Response := do
  let events ← claimProcessEvents 100
  if events.isEmpty then pure (.relayed 0)
  else do
    let updates ← processEvents events
    processOutboxUpdates updates
    pure (.relayed events.length)

end PaymentRecon
