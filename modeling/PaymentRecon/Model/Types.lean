import Mathlib.Data.Rat.Defs
import PaymentRecon.Lib.Stream

/-!
# Types — the rows, messages and exceptions of the service

The data of `order/models.py`, `order/queue_manager.py` and `order/exceptions.py`.  Row ids and
amounts are Python integers (`ℤ`).  A `Json` value is what `json.loads` gives back; `json.dumps`
followed by `json.loads` is the identity on it, so stream fields carry the value itself.
-/

namespace PaymentRecon

open Streams

abbrev Id := ℤ

abbrev Amount := ℤ

-- the computable order, whatever lattices of `ℤ` are in scope
instance : Preorder Amount := Int.instLinearOrder.toPreorder

/-! ## Exceptions -/

/-- The exception classes the service raises or catches. -/
inductive ExcKind
  | redisError
  | integrityError
  | dbApiError
  | dataError
  | attributeError
  | keyError
  | typeError
  | valueError
  | indexError
  | noResultFound
  | multipleResultsFound
  | orderNotFoundError
  | duplicateUniqueAmountError
  | paymentIntentNotFoundError
  | duplicatePaymentIntentError
  | invalidSMSDataError
  | duplicateSMSTransactionError
  | duplicateOutboxEventError
  | duplicatePaymentTransactionError
  | invalidOutboxPayload
  | ignoreAndAckMessage
  | criticalRejectMessage
  | databaseError
  | expiredSignatureError
  | decodeError
  | invalidTokenError
  | httpException (status : ℕ)
  deriving DecidableEq

/-- An exception: its class and its message. -/
structure Exc where
  kind : ExcKind
  message : String
  deriving DecidableEq

def RedisError : Exc := ⟨.redisError, ""⟩

def IntegrityError : Exc := ⟨.integrityError, ""⟩

/-- Any database error that is neither an integrity nor a data error. -/
def DBAPIError : Exc := ⟨.dbApiError, ""⟩

/-- A value out of range for its column or parameter. -/
def DataError : Exc := ⟨.dataError, ""⟩

/-! ## JSON values -/

inductive Json
  | null
  | bool (b : Bool)
  | int (n : ℤ)
  | float (q : ℚ)
  | str (s : String)
  | arr (xs : List Json)
  | obj (kvs : List (String × Json))

namespace Json

/-- `data.get(key)`: `None` for a missing key, `AttributeError` when `data` is no dictionary. -/
def get (j : Json) (key : String) : Except Exc Json :=
  match j with
  | obj kvs => .ok ((kvs.lookup key).getD null)
  | _ => .error ⟨.attributeError, "object has no attribute 'get'"⟩

/-- Python truth. -/
def truthy : Json → Bool
  | null => false
  | bool b => b
  | int n => n ≠ 0
  | float q => q ≠ 0
  | str s => s ≠ ""
  | arr xs => !xs.isEmpty
  | obj kvs => !kvs.isEmpty

/-- The value of an integer. -/
def asInt : Json → ℤ
  | int n => n
  | _ => 0

/-- `str(x)` of the values the messages below print. -/
def render : Json → String
  | null => "None"
  | bool true => "True"
  | bool false => "False"
  | int n => toString n
  | str s => s
  | _ => ""

end Json

/-- The payload `handle_transaction_service` stores for SMS transaction `t`. -/
def transactionData (t : Id) (traceId : String) (amount : Amount) : Json :=
  .obj [("transaction_id", .int t), ("trace_id", .str traceId), ("amount", .int amount),
    ("type", .str "payment")]

@[simp] theorem transactionData_get_amount (t : Id) (tr : String) (a : Amount) :
    (transactionData t tr a).get "amount" = .ok (.int a) := rfl

@[simp] theorem transactionData_get_transactionId (t : Id) (tr : String) (a : Amount) :
    (transactionData t tr a).get "transaction_id" = .ok (.int t) := rfl

@[simp] theorem transactionData_get_type (t : Id) (tr : String) (a : Amount) :
    (transactionData t tr a).get "type" = .ok (.str "payment") := rfl

/-! ## Rows -/

inductive OrderStatus
  | PENDING
  | REVIEWED
  | PAID
  | FAILED
  | EXPIRED
  deriving DecidableEq

inductive EventStatus
  | PENDING
  | PROCESSING
  | PUBLISHED
  | FAILED
  deriving DecidableEq

structure Order where
  id : Id
  userId : Id
  status : OrderStatus
  amount : Amount
  deriving DecidableEq

structure PaymentIntent where
  id : Id
  orderId : Id
  status : OrderStatus
  baseAmount : Amount
  exactAmount : Amount
  smsTransactionId : Option Id
  deriving DecidableEq

structure SMSTransaction where
  id : Id
  smsAmount : ℤ
  smsInventory : ℤ
  smsDate : String
  smsTime : String
  webhookPayload : String
  deriving DecidableEq

/-- The columns of `uq_sms_amount_inventory_date_time`. -/
def SMSTransaction.key (r : SMSTransaction) : ℤ × ℤ × String × String :=
  (r.smsAmount, r.smsInventory, r.smsDate, r.smsTime)

structure OutBoxOrderEvent where
  id : Id
  status : EventStatus
  data : Json
  createdAt : ℕ
  retryCount : Option ℤ
  lockedAt : Option ℕ
  lastError : Option String

/-- The range of a PostgreSQL `Integer` column. -/
def inInt4 (n : ℤ) : Prop := -2147483648 ≤ n ∧ n ≤ 2147483647

instance (n : ℤ) : Decidable (inInt4 n) := inferInstanceAs (Decidable (_ ∧ _))

/-! ## Messages -/

/-- The fields of a stream entry.  A field that was not written is `none`. -/
structure Fields where
  data : Option Json
  createdAt : Option ℕ
  attempts : Option ℤ
  originalId : Option StreamId
  failedAt : Option ℕ
  eventId : Option Id
  reason : Option String
  originalStream : Option String

/-- The fields when none was written. -/
def Fields.none : Fields :=
  ⟨Option.none, Option.none, Option.none, Option.none, Option.none, Option.none, Option.none,
    Option.none⟩

structure Message where
  id : StreamId
  data : Json
  attempts : ℤ
  createdAt : ℕ

/-- `json.loads(fields.get('data', '{}'))`. -/
def Fields.loads (f : Fields) : Json := f.data.getD (.obj [])

end PaymentRecon
