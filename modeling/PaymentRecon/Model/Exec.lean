import Mathlib.Data.Finset.Card
import PaymentRecon.Model.World

/-!
# Exec — the effect of every operation

`Op.run p op w r w'`: the operation `op` of the session `p`, performed in `w`, answers `r` and
leaves `w'`.  An operation that must wait has no effect and no answer until it can go on.
-/

namespace PaymentRecon

open Streams SetStore Interleave

/-! ## PostgreSQL statements -/

/-- Another session flushed, and did not yet commit, a PENDING intent with this amount, or it
flushed the settlement of the committed PENDING intent with this amount: the insertion waits. -/
def World.AmountBusy (w : World) (p : Pid) (a : Amount) : Prop :=
  (∃ q i, q ≠ p ∧ Write.insIntent i ∈ (w.txn q).writes ∧ i.Holds a) ∨
  (∃ q i t, q ≠ p ∧ i ∈ w.db.intents ∧ i.Holds a ∧ Write.payIntent i.id t ∈ (w.txn q).writes)

/-- The index `idx_pending_price` refuses one more PENDING intent with this amount. -/
def World.AmountTaken (w : World) (p : Pid) (a : Amount) : Prop :=
  (∃ i ∈ w.db.intents, i.Holds a) ∨ ∃ i, Write.insIntent i ∈ (w.txn p).writes ∧ i.Holds a

/-- Another session flushed, and did not yet commit, an intent with this SMS transaction. -/
def World.SmsBusy (w : World) (p : Pid) (t : Id) : Prop :=
  ∃ q id, q ≠ p ∧ Write.payIntent id (some t) ∈ (w.txn q).writes

/-- The unique index on `sms_transaction_id` refuses `t` for the intent `id`. -/
def World.SmsTaken (w : World) (p : Pid) (id t : Id) : Prop :=
  (∃ i ∈ w.db.intents, i.id ≠ id ∧ i.smsTransactionId = some t) ∨
  ∃ id', id' ≠ id ∧ Write.payIntent id' (some t) ∈ (w.txn p).writes

/-- Another session flushed, and did not yet commit, an SMS transaction with this key. -/
def World.KeyBusy (w : World) (p : Pid) (k : ℤ × ℤ × String × String) : Prop :=
  ∃ q r, q ≠ p ∧ Write.insSms r ∈ (w.txn q).writes ∧ r.key = k

/-- `uq_sms_amount_inventory_date_time` refuses one more row with this key. -/
def World.KeyTaken (w : World) (p : Pid) (k : ℤ × ℤ × String × String) : Prop :=
  (∃ r ∈ w.db.sms, r.key = k) ∨ ∃ r, Write.insSms r ∈ (w.txn p).writes ∧ r.key = k

/-- The order and the intent `create_order_service` adds, with the next ids. -/
def World.newOrder (w : World) (userId : Id) (amount : Amount) : Order :=
  ⟨w.db.nextOrder, userId, .PENDING, amount⟩

def World.newIntent (w : World) (amount exactAmount : Amount) : PaymentIntent :=
  ⟨w.db.nextIntent, w.db.nextOrder, .PENDING, amount, exactAmount, none⟩

def World.newSms (w : World) (amount inventory : ℤ) (date time payload : String) :
    SMSTransaction :=
  ⟨w.db.nextSms, amount, inventory, date, time, payload⟩

def World.newEvent (w : World) (data : Json) : OutBoxOrderEvent :=
  ⟨w.db.nextEvent, .PENDING, data, w.clock, some 0, none, none⟩

/-- The sequences after an insertion; they advance even when the insertion is refused. -/
def World.tickOrder (w : World) : World :=
  { w with db := { w.db with nextOrder := w.db.nextOrder + 1, nextIntent := w.db.nextIntent + 1 } }

def World.tickSms (w : World) : World := { w with db := { w.db with nextSms := w.db.nextSms + 1 } }

def World.tickEvent (w : World) : World :=
  { w with db := { w.db with nextEvent := w.db.nextEvent + 1 } }

/-- The rows a locking SELECT of the session `p` answers: what it saw when it began, where `sel`
still holds, joined with the order. -/
def World.selected (w : World) (p : Pid) (sel : PaymentIntent → Bool) : List PaymentIntent :=
  w.db.intents.filter fun i =>
    i.id ∈ (w.txn p).snapshot ∧ sel i ∧ w.db.orders.any fun o => o.id = i.orderId

/-- `WHERE exact_amount = a AND status = 'PENDING'`. -/
def pendingWith (a : Amount) (i : PaymentIntent) : Bool := i.Holds a

/-- `WHERE id = paymentId AND order_id = orderId AND status IN ('PENDING', 'FAILED')`. -/
def confirmable (paymentId orderId : Id) (i : PaymentIntent) : Bool :=
  i.id = paymentId ∧ i.orderId = orderId ∧ (i.status = .PENDING ∨ i.status = .FAILED)

/-- `SELECT .. FOR UPDATE`: it has no step while a row it wants is locked by another session. -/
def World.Locks (w : World) (p : Pid) (sel : PaymentIntent → Bool)
    (r : Except Exc (List PaymentIntent)) (w' : World) : Prop :=
  (∀ i ∈ w.selected p sel, ¬ w.LockedByOther p i.id) ∧ r = .ok (w.selected p sel) ∧
    w' = w.lock p ((w.selected p sel).map (·.id))

/-- `SELECT .. WHERE status = 'PENDING' AND id > cursor ORDER BY id LIMIT limit`. -/
def Db.pendingPage (db : Db) (cursor : Id) (limit : ℕ) : List PaymentIntent :=
  ((db.intents.filter fun i => i.status = .PENDING ∧ cursor < i.id).mergeSort
    fun i j => i.id ≤ j.id).take limit

/-- Another session flushed, and did not yet commit, an update of the event. -/
def World.EventLocked (w : World) (p : Pid) (id : Id) : Prop :=
  ∃ q, q ≠ p ∧ ((∃ ids, Write.publish ids ∈ (w.txn q).writes ∧ id ∈ ids) ∨
    ∃ u, Write.eventError u ∈ (w.txn q).writes ∧ u.id = id)

/-- `claim_process_events` may claim the event. -/
def OutBoxOrderEvent.Claimable (e : OutBoxOrderEvent) (staleLock : ℤ) : Prop :=
  e.status = .PENDING ∨ e.status = .PROCESSING ∧ ∃ t ∈ e.lockedAt, (t : ℤ) < staleLock

instance (e : OutBoxOrderEvent) (s : ℤ) : Decidable (e.Claimable s) :=
  inferInstanceAs (Decidable (_ ∨ _ ∧ ∃ t ∈ e.lockedAt, (t : ℤ) < s))

/-- `sel` are the oldest claimable events, `limit` at most, in any order among events of the same
age; SKIP LOCKED passes over the events that another session is updating. -/
structure Selects (w : World) (p : Pid) (staleLock : ℤ) (limit : ℕ)
    (sel : List OutBoxOrderEvent) : Prop where
  nodup : (sel.map (·.id)).Nodup
  claimable : ∀ e ∈ sel, e ∈ w.db.outbox ∧ e.Claimable staleLock ∧ ¬ w.EventLocked p e.id
  length : sel.length ≤ limit
  oldest : ∀ e ∈ w.db.outbox, e.Claimable staleLock → ¬ w.EventLocked p e.id → e ∉ sel →
    sel.length = limit ∧ ∀ e' ∈ sel, e'.createdAt ≤ e.createdAt

/-- `status = PROCESSING`, `locked_at = now`. -/
def OutBoxOrderEvent.claim (e : OutBoxOrderEvent) (now : ℕ) : OutBoxOrderEvent :=
  { e with status := .PROCESSING, lockedAt := some now }

/-- The events `ids`, claimed at `now`. -/
def Db.claim (db : Db) (ids : List Id) (now : ℕ) : Db :=
  { db with outbox := db.outbox.map fun e => if e.id ∈ ids then e.claim now else e }

def OutBoxOrderEvent.claimed (e : OutBoxOrderEvent) : ClaimedEvent := ⟨e.id, e.data, e.retryCount⟩

/-- `COMMIT`: the writes of the session become visible and its locks are released. -/
def World.commit (w : World) (p : Pid) : World :=
  { w with db := (w.txn p).writes.foldl Write.apply w.db }.setTxn p Txn.empty

/-- `ROLLBACK`, and what a session that is closed or lost leaves. -/
def World.rollback (w : World) (p : Pid) : World := w.setTxn p Txn.empty

section Frame

variable (w : World) (p q : Pid)

@[simp] theorem tickOrder_sets : w.tickOrder.sets = w.sets := rfl
@[simp] theorem tickOrder_main : w.tickOrder.main = w.main := rfl
@[simp] theorem tickOrder_dead : w.tickOrder.dead = w.dead := rfl
@[simp] theorem tickOrder_group : w.tickOrder.group = w.group := rfl
@[simp] theorem tickOrder_txn : w.tickOrder.txn = w.txn := rfl
@[simp] theorem tickOrder_orders : w.tickOrder.db.orders = w.db.orders := rfl
@[simp] theorem tickOrder_intents : w.tickOrder.db.intents = w.db.intents := rfl
@[simp] theorem tickOrder_sms : w.tickOrder.db.sms = w.db.sms := rfl
@[simp] theorem tickOrder_outbox : w.tickOrder.db.outbox = w.db.outbox := rfl

@[simp] theorem tickSms_sets : w.tickSms.sets = w.sets := rfl
@[simp] theorem tickSms_main : w.tickSms.main = w.main := rfl
@[simp] theorem tickSms_dead : w.tickSms.dead = w.dead := rfl
@[simp] theorem tickSms_group : w.tickSms.group = w.group := rfl
@[simp] theorem tickSms_txn : w.tickSms.txn = w.txn := rfl
@[simp] theorem tickSms_orders : w.tickSms.db.orders = w.db.orders := rfl
@[simp] theorem tickSms_intents : w.tickSms.db.intents = w.db.intents := rfl
@[simp] theorem tickSms_sms : w.tickSms.db.sms = w.db.sms := rfl
@[simp] theorem tickSms_outbox : w.tickSms.db.outbox = w.db.outbox := rfl

@[simp] theorem tickEvent_sets : w.tickEvent.sets = w.sets := rfl
@[simp] theorem tickEvent_main : w.tickEvent.main = w.main := rfl
@[simp] theorem tickEvent_dead : w.tickEvent.dead = w.dead := rfl
@[simp] theorem tickEvent_group : w.tickEvent.group = w.group := rfl
@[simp] theorem tickEvent_txn : w.tickEvent.txn = w.txn := rfl
@[simp] theorem tickEvent_orders : w.tickEvent.db.orders = w.db.orders := rfl
@[simp] theorem tickEvent_intents : w.tickEvent.db.intents = w.db.intents := rfl
@[simp] theorem tickEvent_sms : w.tickEvent.db.sms = w.db.sms := rfl
@[simp] theorem tickEvent_outbox : w.tickEvent.db.outbox = w.db.outbox := rfl

@[simp] theorem commit_sets : (w.commit p).sets = w.sets := rfl
@[simp] theorem commit_main : (w.commit p).main = w.main := rfl
@[simp] theorem commit_dead : (w.commit p).dead = w.dead := rfl
@[simp] theorem commit_group : (w.commit p).group = w.group := rfl

@[simp] theorem rollback_db : (w.rollback p).db = w.db := rfl
@[simp] theorem rollback_sets : (w.rollback p).sets = w.sets := rfl
@[simp] theorem rollback_main : (w.rollback p).main = w.main := rfl
@[simp] theorem rollback_dead : (w.rollback p).dead = w.dead := rfl
@[simp] theorem rollback_group : (w.rollback p).group = w.group := rfl

theorem rollback_txn : (w.rollback p).txn q = if q = p then Txn.empty else w.txn q := by
  by_cases hq : q = p
  · subst hq; simp [World.rollback]
  · simp [World.rollback, hq]

theorem commit_txn : (w.commit p).txn q = if q = p then Txn.empty else w.txn q := by
  by_cases hq : q = p
  · subst hq; simp [World.commit]
  · simp [World.commit, hq]

end Frame

/-- The integer a parameter of an integer column carries; any other parameter is refused. -/
def intParam (j : Json) : Option ℤ :=
  match j with
  | .int n => if inInt4 n then some n else none
  | _ => none

/-! ## All operations -/

/-- The effect of an operation that reaches its store and whose answer arrives. -/
def Op.run (p : Pid) : (op : Op) → World → Except Exc op.Ret → World → Prop
  | .spop k, w, r, w' =>
    (∃ a ∈ w.sets k, r = .ok (some a) ∧ w' = { w with sets := SetStore.spop w.sets k a }) ∨
      (w.sets k = ∅ ∧ r = .ok none ∧ w' = w)
  | .smove src dst m, w, r, w' =>
    r = .ok () ∧ w' = { w with sets := SetStore.smove w.sets src dst m }
  | .sadd k ms, w, r, w' => r = .ok () ∧ w' = { w with sets := SetStore.sadd w.sets k ms }
  | .scard k, w, r, w' => r = .ok (w.sets k).card ∧ w' = w
  | .exists k, w, r, w' => r = .ok (decide (w.sets k ≠ ∅)) ∧ w' = w
  | .del k, w, r, w' => r = .ok () ∧ w' = { w with sets := SetStore.del w.sets k }
  | .sdiffstore dst a b, w, r, w' =>
    r = .ok () ∧ w' = { w with sets := SetStore.sdiffstore w.sets dst a b }
  | .xadd f, w, r, w' =>
    r = .ok (nextId w.main.last w.clock) ∧ w' = { w with main := w.main.xadd w.clock f }
  | .xaddDead f, w, r, w' =>
    r = .ok (nextId w.dead.last w.clock) ∧ w' = { w with dead := w.dead.xadd w.clock f }
  | .xreadgroup consumer count, w, r, w' =>
    r = .ok (w.group.unread w.main count) ∧
      w' = { w with group := w.group.deliver consumer w.clock (w.group.unread w.main count) }
  | .xpending count, w, r, w' =>
    r = .ok ((w.group.pel.take count).map fun x => (x.id, w.clock - x.deliveredAt,
      x.timesDelivered)) ∧ w' = w
  | .xclaim consumer minIdle id, w, r, w' =>
    if w.group.claimable w.clock minIdle id then
      r = .ok (w.main.xrange id id) ∧
        w' = { w with group := w.group.claim consumer w.clock id }
    else r = .ok [] ∧ w' = w
  | .xack id, w, r, w' =>
    r = .ok (w.group.pel.filter fun x => x.id = id).length ∧
      w' = { w with group := w.group.xack id }
  | .xrangeDead x, w, r, w' => r = .ok (w.dead.xrange x.lo x.hi) ∧ w' = w
  | .moveDead f x, w, r, w' =>
    r = .ok (nextId w.main.last w.clock) ∧
      w' = { w with main := w.main.xadd w.clock f, dead := w.dead.xdel x.lo }
  | .candidate lo hi, w, r, w' =>
    w' = w ∧ if inInt4 lo ∧ inInt4 hi then
      (∃ c, lo ≤ c ∧ c ≤ hi ∧ (∀ i ∈ w.db.intents, ¬ i.Holds c) ∧ r = .ok (some c)) ∨
        ((∀ c, lo ≤ c → c ≤ hi → ∃ i ∈ w.db.intents, i.Holds c) ∧ r = .ok none)
    else r = .error DataError
  | .insertOrder userId amount a, w, r, w' =>
    if inInt4 amount ∧ inInt4 a then
      ¬ w.AmountBusy p a ∧
        ((w.AmountTaken p a ∧ r = .error IntegrityError ∧ w' = w.tickOrder) ∨
          (¬ w.AmountTaken p a ∧ r = .ok (w.newOrder userId amount) ∧
            w' = w.tickOrder.flush p
              [.insOrder (w.newOrder userId amount), .insIntent (w.newIntent amount a)]))
    else r = .error DataError ∧ w' = w
  | .refreshOrder _, w, r, w' => r = .ok () ∧ w' = w
  | .pendingPage cursor limit, w, r, w' => r = .ok (w.db.pendingPage cursor limit) ∧ w' = w
  | .intentBySms t, w, r, w' =>
    w' = w ∧ match intParam t with
      | some n => r = .ok (w.db.intents.find? fun i => i.smsTransactionId = some n)
      | none => r = .error DataError
  | .beginSelect, w, r, w' =>
    r = .ok () ∧ w' = w.setTxn p { w.txn p with snapshot := w.db.intents.map (·.id) }
  | .lockPending a, w, r, w' =>
    match a with
    | .null => r = .ok [] ∧ w' = w
    | a => match intParam a with
      | some n => w.Locks p (pendingWith n) r w'
      | none => r = .error DataError ∧ w' = w
  | .lockById paymentId orderId, w, r, w' =>
    if inInt4 paymentId ∧ inInt4 orderId then w.Locks p (confirmable paymentId orderId) r w'
    else r = .error DataError ∧ w' = w
  | .flushPaid i sms, w, r, w' =>
    ¬ w.LockedByOther p i.id ∧ (∀ t ∈ sms, ¬ w.SmsBusy p t) ∧
      (((∃ t ∈ sms, w.SmsTaken p i.id t ∨ ∀ x ∈ w.db.sms, x.id ≠ t) ∧
          r = .error IntegrityError ∧ w' = w) ∨
        ((∀ t ∈ sms, ¬ w.SmsTaken p i.id t ∧ ∃ x ∈ w.db.sms, x.id = t) ∧ r = .ok () ∧
          w' = (w.lock p [i.id]).flush p [.payIntent i.id sms, .payOrder i.orderId]))
  | .insertSms amount inventory date time payload, w, r, w' =>
    if inInt4 amount ∧ inInt4 inventory ∧ date.length ≤ 10 ∧ time.length ≤ 5 then
      ¬ w.KeyBusy p (amount, inventory, date, time) ∧
        ((w.KeyTaken p (amount, inventory, date, time) ∧ r = .error IntegrityError ∧
            w' = w.tickSms) ∨
          (¬ w.KeyTaken p (amount, inventory, date, time) ∧
            r = .ok (w.newSms amount inventory date time payload) ∧
            w' = w.tickSms.flush p [.insSms (w.newSms amount inventory date time payload)]))
    else r = .error DataError ∧ w' = w
  | .insertEvent data, w, r, w' =>
    r = .ok (w.newEvent data) ∧ w' = w.tickEvent.flush p [.insEvent (w.newEvent data)]
  | .claimEvents t staleLock limit, w, r, w' =>
    ∃ sel, Selects w p staleLock limit sel ∧ r = .ok (sel.map (·.claimed)) ∧
      w' = { w with db := w.db.claim (sel.map (·.id)) t }
  | .publishEvents ids, w, r, w' =>
    (∀ id ∈ ids, ¬ w.EventLocked p id) ∧ r = .ok () ∧ w' = w.flush p [.publish ids]
  | .failEvents us, w, r, w' =>
    (∀ u ∈ us, ¬ w.EventLocked p u.id) ∧ r = .ok () ∧ w' = w.flush p (us.map .eventError)
  | .commit, w, r, w' => r = .ok () ∧ w' = w.commit p
  | .rollback, w, r, w' => r = .ok () ∧ w' = w.rollback p
  | .now, w, r, w' => r = .ok w.clock ∧ w' = w
  | .note _, w, r, w' => r = .ok () ∧ w' = w
  | .outOfFuel, _, _, _ => False

/-- An operation on Redis. -/
def Op.OnRedis : Op → Prop
  | .spop _ | .smove _ _ _ | .sadd _ _ | .scard _ | .exists _ | .del _ | .sdiffstore _ _ _ | .xadd _
  | .xaddDead _ | .xreadgroup _ _ | .xpending _ | .xclaim _ _ _ | .xack _ | .xrangeDead _
  | .moveDead _ _ => True
  | _ => False

instance (op : Op) : Decidable op.OnRedis :=
  match op with
  | .spop _ | .smove _ _ _ | .sadd _ _ | .scard _ | .exists _ | .del _ | .sdiffstore _ _ _ | .xadd _
  | .xaddDead _ | .xreadgroup _ _ | .xpending _ | .xclaim _ _ _ | .xack _ | .xrangeDead _
  | .moveDead _ _ => inferInstanceAs (Decidable True)
  | .candidate _ _ | .insertOrder _ _ _ | .refreshOrder _ | .pendingPage _ _ | .intentBySms _
  | .beginSelect | .lockPending _ | .lockById _ _ | .flushPaid _ _ | .insertSms _ _ _ _ _
  | .insertEvent _ | .claimEvents _ _ _ | .publishEvents _ | .failEvents _ | .commit | .rollback
  | .now | .note _ | .outOfFuel => inferInstanceAs (Decidable False)

/-- The exceptions an operation raises when its store fails. -/
def Op.Fails (op : Op) (e : Exc) : Prop :=
  match op with
  | .spop _ | .smove _ _ _ | .sadd _ _ | .scard _ | .exists _ | .del _ | .sdiffstore _ _ _ | .xadd _
  | .xaddDead _ | .xreadgroup _ _ | .xpending _ | .xclaim _ _ _ | .xack _ | .xrangeDead _
  | .moveDead _ _ => e = RedisError
  | .beginSelect | .rollback | .now | .note _ | .outOfFuel => False
  | _ => e = DBAPIError ∨ e = IntegrityError

/-- The operation may take effect although it reports a failure: a Redis command whose reply is
lost, and a commit. -/
def Op.Loses (op : Op) : Prop := op.OnRedis ∨ op = .commit

/-- One operation, faults included. -/
def exec (f : Fault) (p : Pid) (op : Op) (w : World) (r : Except Exc op.Ret) (w' : World) : Prop :=
  match f with
  | .done => op.run p w r w'
  | .failed => w' = w ∧ ∃ e, op.Fails e ∧ r = .error e
  | .lost => op.Loses ∧ (∃ r₀, op.run p w r₀ w') ∧ ∃ e, op.Fails e ∧ r = .error e

/-- An operation goes through, fails without effect, or takes effect and its answer is lost. -/
theorem exec_cases {f : Fault} {p : Pid} {op : Op} {w w' : World} {r : Except Exc op.Ret}
    (h : exec f p op w r w') : op.run p w r w' ∨ (w' = w ∧ ∃ e, op.Fails e ∧ r = .error e) ∨
      (op.Loses ∧ ∃ r₀, op.run p w r₀ w' ∧ ∃ e, op.Fails e ∧ r = .error e) := by
  cases f with
  | done => exact Or.inl h
  | failed => exact Or.inr (Or.inl h)
  | lost =>
    obtain ⟨hl, ⟨r₀, hr⟩, he⟩ := h
    exact Or.inr (Or.inr ⟨hl, r₀, hr, he⟩)

end PaymentRecon
