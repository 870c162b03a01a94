import PaymentRecon.Model.Exec

/-!
# Orders — order creation, settlement by SMS and settlement by an administrator

The functions of `order/service.py`, `order/handlers.py`, `admin/service.py` and of the endpoints
`create_order` and `confirm_payment`, command by command.  Log lines are left out.
-/

namespace PaymentRecon

open Interleave

/-- What a finished request answered. -/
inductive Response
  | order (o : Order)
  | confirmed (i : PaymentIntent)
  | handled (ok : Bool)
  | accepted (transactionId : Id)
  | relayed (n : ℕ)
  | batch
  | replayed (newId : Streams.StreamId)
  | started

def httpException (status : ℕ) (detail : String) : Exc := ⟨.httpException status, detail⟩

/-- The dependency `get_db`: an exception of the endpoint rolls the session back. -/
def withDb {α : Type} (body : App α) : App α :=
  try body
  catch e => do
    await .rollback
    throw e

/-- `result.scalar_one()`. -/
def scalarOne {α : Type} : List α → App α
  | [] => throw ⟨.noResultFound, ""⟩
  | [x] => pure x
  | _ => throw ⟨.multipleResultsFound, ""⟩

/-! ## Allocating an amount -/

inductive AmountSource
  | redis
  | postgres
  deriving DecidableEq

structure AllocatedAmount where
  value : Amount
  source : AmountSource

/-- The range of amounts a fallback allocation may pick from. -/
def fallbackRange (baseAmount : Option Amount) (window : ℤ) : Amount × Amount :=
  match baseAmount with
  | none => (1500000, 1550000)
  | some b => (b + 1, b + window)

def getUniqueAmountFromPostgres (baseAmount : Option Amount) : App (Option Amount) :=
  let range := fallbackRange baseAmount 500
  await (.candidate range.1 range.2)

def getUniqueAmount (baseAmount : Option Amount) : App (Option AllocatedAmount) :=
  try
    let givenAmount ← await (.spop .freeAmounts)
    match givenAmount with
    | some a => do
      await (.smove .amounts .pendingOrders a)
      pure (some ⟨a, .redis⟩)
    | none => pure none
  catch e =>
    if e.kind = .redisError then do
      let fallbackAmount ← getUniqueAmountFromPostgres baseAmount
      pure (fallbackAmount.map fun a => ⟨a, .postgres⟩)
    else throw e

/-! ## Creating an order -/

/-- The compensation of a Redis allocation whose order could not be stored. -/
def compensate (a : Amount) : App Unit :=
  try
    await (.smove .pendingOrders .amounts a)
    await (.sadd .freeAmounts [a])
  catch _ => pure ()

/-- The statistics logged when no amount is left. -/
def logStatistics : App Unit :=
  try
    let _ ← await (.scard .amounts)
    let _ ← await (.scard .freeAmounts)
    pure ()
  catch _ => pure ()

/-- The loop of `create_order_service` with `n` attempts left: the last attempt has `n = 1`. -/
def createOrderLoop (userId : Id) (amount : Amount) : ℕ → App (Option Order)
  | 0 => pure none
  | n + 1 => do
    let uniqueAmount ← getUniqueAmount (some amount)
    match uniqueAmount.filter fun u => u.value ≠ 0 with
    | none => do
      logStatistics
      pure none
    | some u =>
      try
        let newOrder ← await (.insertOrder userId amount u.value)
        pure (some newOrder)
      catch e =>
        if e.kind = .integrityError then
          if u.source = .redis then do
            compensate u.value
            throw ⟨.duplicateUniqueAmountError, "Duplicate unique amount"⟩
          else if n ≠ 0 then createOrderLoop userId amount n
          else throw ⟨.duplicateUniqueAmountError, "Duplicate unique amount"⟩
        else if u.source = .redis then do
          compensate u.value
          throw ⟨.databaseError, "Database error occurred"⟩
        else throw ⟨.databaseError, "Database error occurred"⟩

def createOrderService (userId : Id) (amount : Amount) (maxRetries : ℕ) : App (Option Order) :=
  createOrderLoop userId amount maxRetries

/-- The endpoint `POST /orders/create-order`. -/
def createOrder (userId : Id) (amount : Amount) : App Response :=
  withDb do
    try
      let order ← createOrderService userId amount 3
      match order with
      | none => throw (httpException 409 "No free amount is available ")
      | some o => do
        await .commit
        await (.refreshOrder o.id)
        pure (.order o)
    catch e =>
      match e.kind with
      | .httpException _ => throw e
      | .duplicateUniqueAmountError => do
        await .rollback
        throw (httpException 409 "Duplicate unique amount")
      | _ => do
        await .rollback
        throw (httpException 500 "Internal Server Error")

/-! ## Settling an order -/

/-- The `except` clauses around the settlement in `process_pending_payment`. -/
def settlementError (amount t : Json) (e : Exc) : Exc :=
  match e.kind with
  | .noResultFound =>
    ⟨.paymentIntentNotFoundError, s!"Payment intent for amount {amount.render} not found"⟩
  | .multipleResultsFound =>
    ⟨.duplicatePaymentIntentError, s!"Multiple payment intents found for amount {amount.render}"⟩
  | .integrityError =>
    ⟨.duplicatePaymentTransactionError, s!"SMS {t.render} was processed concurrently"⟩
  | _ => e

def processPendingPayment (amount smsTransactionId : Json) : App (PaymentIntent × Bool) := do
  if smsTransactionId.truthy = false then
    throw ⟨.invalidSMSDataError, "transaction_id is required for payment processing"⟩
  else do
    let alreadyProcessed ← await (.intentBySms smsTransactionId)
    match alreadyProcessed with
    | some i => pure (i, false)
    | none => do
      await .beginSelect
      let rows ← await (.lockPending amount)
      try
        let payment ← scalarOne rows
        -- the first query refused a transaction id that is no integer
        await (.flushPaid payment (some smsTransactionId.asInt))
        pure (payment.pay (some smsTransactionId.asInt), true)
      catch e => throw (settlementError amount smsTransactionId e)

/-- `amount` in the messages of `handle_payment`. -/
def Message.amountText (m : Message) : String :=
  match m.data.get "amount" with
  | .ok a => a.render
  | .error _ => ""

/-- The `except` clauses of `handle_payment`. -/
def handlerError (m : Message) (e : Exc) : Exc :=
  match e.kind with
  | .duplicatePaymentTransactionError => ⟨.ignoreAndAckMessage, e.message⟩
  | .paymentIntentNotFoundError => ⟨.ignoreAndAckMessage, s!"{m.amountText} not found in DB"⟩
  | .duplicatePaymentIntentError =>
    ⟨.criticalRejectMessage, s!"Duplicate amounts found for {m.amountText}"⟩
  | _ => ⟨.criticalRejectMessage, s!"Unexpected error {e.message}"⟩

def handlePayment (m : Message) : App Bool :=
  try
    let amount ← Prog.ofExcept (m.data.get "amount")
    let transactionId ← Prog.ofExcept (m.data.get "transaction_id")
    let result ← processPendingPayment amount transactionId
    await .commit
    if result.2 then do
      await (.smove .pendingOrders .freeAmounts amount.asInt)
      pure true
    else pure true
  catch e => do
    await .rollback
    throw (handlerError m e)

def handlePendingPayment (orderId paymentId : Id) : App PaymentIntent := do
  await .beginSelect
  let rows ← await (.lockById paymentId orderId)
  try
    let payment ← scalarOne rows
    await (.flushPaid payment none)
    await (.smove .pendingOrders .freeAmounts payment.exactAmount)
    pure (payment.pay none)
  catch e =>
    if e.kind = .noResultFound then
      throw ⟨.paymentIntentNotFoundError,
        s!"Payment intent {paymentId} for order {orderId} not found"⟩
    else throw e

/-- The endpoint `PATCH /admin/order/{order_id}/payment/{payment_id}/confirm`. -/
def confirmPayment (orderId paymentId : Id) : App Response :=
  withDb do
    try
      let updatePayment ← handlePendingPayment orderId paymentId
      await .commit
      pure (.confirmed updatePayment)
    catch e => do
      await .rollback
      if e.kind = .paymentIntentNotFoundError then throw (httpException 404 e.message)
      else throw (httpException 500 "Internal Server Error")

end PaymentRecon
