import Mathlib.Algebra.Ring.Nat
import PaymentRecon.Lib.Prog
import PaymentRecon.Lib.Sets
import PaymentRecon.Model.Types

/-!
# World — Redis, PostgreSQL and the operations the service performs on them

The world holds the Redis sets and streams, the committed tables, and the open transaction of every
session: its row locks and its flushed, not yet committed writes.  One thread has at most one open
session, so sessions are named by thread ids.

PostgreSQL is READ COMMITTED.  A statement reads the committed tables; a statement that has to wait
for a row lock or for an uncommitted row with the same unique key has no step until the other
transaction ends, and then checks its WHERE clause and its constraints on the committed rows.  A
locking SELECT is two operations, `beginSelect` and the SELECT itself: the rows it answers are those
it saw when it began that still meet its WHERE clause once it has their locks.
`Op.run` is the effect of an operation that goes through, the constraint errors included; `exec`
adds the failures of the network and of the stores.
-/

namespace PaymentRecon

open Streams SetStore Interleave

/-! ## Tables -/

/-- The dictionary `process_single_outbox_event` returns for one event. -/
structure EventUpdate where
  id : Id
  status : EventStatus
  retryCount : ℤ
  lastError : Option String

/-- A flushed write. -/
inductive Write
  | insOrder (o : Order)
  | insIntent (i : PaymentIntent)
  | insSms (r : SMSTransaction)
  | insEvent (e : OutBoxOrderEvent)
  | payIntent (id : Id) (sms : Option Id)
  | payOrder (id : Id)
  | publish (ids : List Id)
  | eventError (u : EventUpdate)

/-- The committed rows and the sequences of the primary keys. -/
structure Db where
  orders : List Order
  intents : List PaymentIntent
  sms : List SMSTransaction
  outbox : List OutBoxOrderEvent
  nextOrder : Id
  nextIntent : Id
  nextSms : Id
  nextEvent : Id

def Db.empty : Db := ⟨[], [], [], [], 1, 1, 1, 1⟩

/-- `status = PAID`, and the SMS transaction when one is given. -/
def PaymentIntent.pay (i : PaymentIntent) (sms : Option Id) : PaymentIntent :=
  { i with status := .PAID, smsTransactionId := sms.orElse fun _ => i.smsTransactionId }

/-- The columns `process_outbox_updates` sets for a published event. -/
def OutBoxOrderEvent.publish (e : OutBoxOrderEvent) : OutBoxOrderEvent :=
  { e with status := .PUBLISHED, lockedAt := none, lastError := none }

/-- The columns it sets for any other event. -/
def OutBoxOrderEvent.fail (e : OutBoxOrderEvent) (u : EventUpdate) : OutBoxOrderEvent :=
  { e with status := u.status, retryCount := some u.retryCount, lastError := u.lastError,
           lockedAt := none }

def Write.apply (db : Db) : Write → Db
  | .insOrder o => { db with orders := db.orders ++ [o] }
  | .insIntent i => { db with intents := db.intents ++ [i] }
  | .insSms r => { db with sms := db.sms ++ [r] }
  | .insEvent e => { db with outbox := db.outbox ++ [e] }
  | .payIntent id sms =>
    { db with intents := db.intents.map fun i => if i.id = id then i.pay sms else i }
  | .payOrder id =>
    { db with orders := db.orders.map fun o => if o.id = id then { o with status := .PAID } else o }
  | .publish ids =>
    { db with outbox := db.outbox.map fun e => if e.id ∈ ids then e.publish else e }
  | .eventError u =>
    { db with outbox := db.outbox.map fun e => if e.id = u.id then e.fail u else e }

/-- The intents that the current locking SELECT of a session saw when it began, the row locks of the
session and its uncommitted writes. -/
structure Txn where
  snapshot : List Id
  locks : List Id
  writes : List Write

def Txn.empty : Txn := ⟨[], [], []⟩

/-! ## The world -/

inductive SetKey
  | amounts
  | freeAmounts
  | pendingOrders
  deriving DecidableEq

/-- `main` is the stream `pending_orders_queue`, `dead` its dead-letter stream, and `group` the
consumer group of the workers on `main`. -/
structure World where
  clock : ℕ
  sets : Sets SetKey Amount
  main : Stream Fields
  dead : Stream Fields
  group : Group
  db : Db
  txn : Pid → Txn

def World.empty : World :=
  ⟨0, fun _ => ∅, Stream.empty, Stream.empty, Group.init, Db.empty, fun _ => Txn.empty⟩

abbrev World.free (w : World) : Finset Amount := w.sets .freeAmounts

abbrev World.pending (w : World) : Finset Amount := w.sets .pendingOrders

abbrev World.amounts (w : World) : Finset Amount := w.sets .amounts

def World.setTxn (w : World) (p : Pid) (x : Txn) : World :=
  { w with txn := Function.update w.txn p x }

/-- Flush `ws` in the session `p`. -/
def World.flush (w : World) (p : Pid) (ws : List Write) : World :=
  w.setTxn p { w.txn p with writes := (w.txn p).writes ++ ws }

/-- Lock the intents `ids` for the session `p`. -/
def World.lock (w : World) (p : Pid) (ids : List Id) : World :=
  w.setTxn p { w.txn p with locks := (w.txn p).locks ++ ids }

section Frame

variable (w : World) (p q : Pid) (x : Txn) (ws : List Write) (ids : List Id)

@[simp] theorem setTxn_db : (w.setTxn p x).db = w.db := rfl
@[simp] theorem setTxn_sets : (w.setTxn p x).sets = w.sets := rfl
@[simp] theorem setTxn_main : (w.setTxn p x).main = w.main := rfl
@[simp] theorem setTxn_dead : (w.setTxn p x).dead = w.dead := rfl
@[simp] theorem setTxn_group : (w.setTxn p x).group = w.group := rfl
@[simp] theorem setTxn_clock : (w.setTxn p x).clock = w.clock := rfl
@[simp] theorem setTxn_txn : (w.setTxn p x).txn = Function.update w.txn p x := rfl

@[simp] theorem flush_db : (w.flush p ws).db = w.db := rfl
@[simp] theorem flush_sets : (w.flush p ws).sets = w.sets := rfl
@[simp] theorem flush_main : (w.flush p ws).main = w.main := rfl
@[simp] theorem flush_dead : (w.flush p ws).dead = w.dead := rfl
@[simp] theorem flush_group : (w.flush p ws).group = w.group := rfl

@[simp] theorem lock_db : (w.lock p ids).db = w.db := rfl
@[simp] theorem lock_sets : (w.lock p ids).sets = w.sets := rfl
@[simp] theorem lock_main : (w.lock p ids).main = w.main := rfl
@[simp] theorem lock_dead : (w.lock p ids).dead = w.dead := rfl
@[simp] theorem lock_group : (w.lock p ids).group = w.group := rfl

theorem flush_writes : ((w.flush p ws).txn q).writes =
    (w.txn q).writes ++ if q = p then ws else [] := by
  by_cases hq : q = p
  · subst hq; simp [World.flush]
  · simp [World.flush, hq]

theorem lock_writes : ((w.lock p ids).txn q).writes = (w.txn q).writes := by
  by_cases hq : q = p
  · subst hq; simp [World.lock]
  · simp [World.lock, hq]

theorem lock_locks : ((w.lock p ids).txn q).locks =
    (w.txn q).locks ++ if q = p then ids else [] := by
  by_cases hq : q = p
  · subst hq; simp [World.lock]
  · simp [World.lock, hq]

end Frame

/-- `w` with other sets. -/
def withSets (w : World) (s : Sets SetKey Amount) : World := { w with sets := s }

section Sets

variable (w : World) (s s' : Sets SetKey Amount)

@[simp] theorem withSets_db : (withSets w s).db = w.db := rfl
@[simp] theorem withSets_txn : (withSets w s).txn = w.txn := rfl
@[simp] theorem withSets_sets : (withSets w s).sets = s := rfl
@[simp] theorem withSets_withSets : withSets (withSets w s) s' = withSets w s' := rfl

end Sets

/-- The row is locked by a session other than `p`. -/
def World.LockedByOther (w : World) (p : Pid) (id : Id) : Prop :=
  ∃ q, q ≠ p ∧ id ∈ (w.txn q).locks

/-- A PENDING intent holds the amount: the predicate of the index `idx_pending_price`. -/
def PaymentIntent.Holds (i : PaymentIntent) (a : Amount) : Prop :=
  i.status = .PENDING ∧ i.exactAmount = a

instance (i : PaymentIntent) (a : Amount) : Decidable (i.Holds a) :=
  inferInstanceAs (Decidable (_ ∧ _))

/-! ## Operations -/

/-- The id argument of `XRANGE` and `XDEL`; the sequence part may be missing. -/
structure IdArg where
  ms : ℕ
  seq : Option ℕ

/-- As a range start, and in `XDEL`. -/
def IdArg.lo (x : IdArg) : StreamId := toLex (x.ms, x.seq.getD 0)

/-- As a range end. -/
def IdArg.hi (x : IdArg) : StreamId := toLex (x.ms, x.seq.getD (2 ^ 64 - 1))

/-- What the worker knows about a message: the log line before the handler runs, and the outcome of
the handler. -/
inductive Note
  | started (id : StreamId)
  | handled (id : StreamId) (ok : Bool)

/-- The SMS fields of `sms_data.get(..)`. -/
structure SmsData where
  traceId : Option String
  smsAmount : Option ℤ
  smsInventory : Option ℤ
  smsDate : Option String
  smsTime : Option String
  webhookPayload : Option String
  deriving DecidableEq

/-- What `claim_process_events` returns for one event. -/
structure ClaimedEvent where
  id : Id
  data : Json
  retryCount : Option ℤ

inductive Op
  -- Redis
  | spop (k : SetKey)
  | smove (src dst : SetKey) (m : Amount)
  | sadd (k : SetKey) (ms : List Amount)
  | scard (k : SetKey)
  | exists (k : SetKey)
  | del (k : SetKey)
  | sdiffstore (dst a b : SetKey)
  | xadd (f : Fields)
  | xaddDead (f : Fields)
  | xreadgroup (consumer : String) (count : ℕ)
  | xpending (count : ℕ)
  | xclaim (consumer : String) (minIdle : ℕ) (id : StreamId)
  | xack (id : StreamId)
  | xrangeDead (x : IdArg)
  | moveDead (f : Fields) (x : IdArg)
  -- PostgreSQL
  | candidate (lo hi : Amount)
  | insertOrder (userId : Id) (amount exactAmount : Amount)
  | refreshOrder (id : Id)
  | pendingPage (cursor : Id) (limit : ℕ)
  | intentBySms (t : Json)
  | beginSelect
  | lockPending (a : Json)
  | lockById (paymentId orderId : Id)
  | flushPaid (i : PaymentIntent) (sms : Option Id)
  | insertSms (amount inventory : ℤ) (date time payload : String)
  | insertEvent (data : Json)
  | claimEvents (now : ℕ) (staleLock : ℤ) (limit : ℕ)
  | publishEvents (ids : List Id)
  | failEvents (us : List EventUpdate)
  | commit
  | rollback
  -- the clock and the log
  | now
  | note (n : Note)
  -- a loop that used up its fuel: no step
  | outOfFuel

/-- What each operation answers. -/
@[reducible] def Op.Ret : Op → Type
  | .spop _ => Option Amount
  | .scard _ => ℕ
  | .exists _ => Bool
  | .xadd _ => StreamId
  | .xaddDead _ => StreamId
  | .xreadgroup _ _ => List (StreamId × Fields)
  | .xpending _ => List (StreamId × ℕ × ℕ)
  | .xclaim _ _ _ => List (StreamId × Fields)
  | .xack _ => ℕ
  | .xrangeDead _ => List (StreamId × Fields)
  | .moveDead _ _ => StreamId
  | .candidate _ _ => Option Amount
  | .insertOrder _ _ _ => Order
  | .pendingPage _ _ => List PaymentIntent
  | .intentBySms _ => Option PaymentIntent
  | .lockPending _ => List PaymentIntent
  | .lockById _ _ => List PaymentIntent
  | .insertSms _ _ _ _ _ => SMSTransaction
  | .insertEvent _ => OutBoxOrderEvent
  | .claimEvents _ _ _ => List ClaimedEvent
  | .now => ℕ
  | _ => Unit

@[reducible] def sig : Sig := ⟨Op, Op.Ret⟩

abbrev App (α : Type) := Prog sig Exc α

abbrev await (op : Op) : App op.Ret := Prog.perform (S := sig) (E := Exc) op

end PaymentRecon
