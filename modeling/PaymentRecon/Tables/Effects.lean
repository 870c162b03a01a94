import PaymentRecon.Model.System

/-!
# Effects — what an operation does to each part of the world

`Effect` says, part by part, what an operation that goes through leaves in the streams, in the
consumer group, in the sets and in the outbox.  Everything later is derived from it, so that no proof
outside this file has to go through all operations.
-/

namespace PaymentRecon

open Interleave Streams SetStore

/-- The main stream after the operation. -/
def Op.mainAfter (w : World) : Op → Stream Fields
  | .xadd f => w.main.xadd w.clock f
  | .moveDead f _ => w.main.xadd w.clock f
  | _ => w.main

/-- The dead-letter stream after the operation. -/
def Op.deadAfter (w : World) : Op → Stream Fields
  | .xaddDead f => w.dead.xadd w.clock f
  | .moveDead _ x => w.dead.xdel x.lo
  | _ => w.dead

/-- The consumer group after the operation. -/
def Op.groupAfter (w : World) : Op → Group
  | .xreadgroup consumer count =>
    w.group.deliver consumer w.clock (w.group.unread w.main count)
  | .xclaim consumer minIdle id =>
    if w.group.claimable w.clock minIdle id then w.group.claim consumer w.clock id else w.group
  | .xack id => w.group.xack id
  | _ => w.group

/-- The sets after the operation; the answer of `SPOP` is the member it took. -/
def Op.setsAfter (w : World) : (op : Op) → Except Exc op.Ret → Sets SetKey Amount
  | .spop k, .ok (some a) => SetStore.spop w.sets k a
  | .smove src dst m, _ => SetStore.smove w.sets src dst m
  | .sadd k ms, _ => SetStore.sadd w.sets k ms
  | .del k, _ => SetStore.del w.sets k
  | .sdiffstore dst a b, _ => SetStore.sdiffstore w.sets dst a b
  | _, _ => w.sets

/-- The outbox after the operation. -/
def Op.OutboxAfter (p : Pid) (w w' : World) : Op → Prop
  | .claimEvents t staleLock limit => ∃ sel, Selects w p staleLock limit sel ∧
      w'.db.outbox = (w.db.claim (sel.map (·.id)) t).outbox
  | .commit => w'.db.outbox = ((w.txn p).writes.foldl Write.apply w.db).outbox
  | _ => w'.db.outbox = w.db.outbox

/-- The intents after the operation. -/
def Op.IntentsAfter (p : Pid) (w w' : World) : Op → Prop
  | .commit => w' = w.commit p
  | _ => w'.db.intents = w.db.intents

/-- The writes that an operation with this answer flushes. -/
def Op.flushed (w : World) : (op : Op) → Except Exc op.Ret → List Write
  | .insertOrder userId amount a, .ok _ =>
    [.insOrder (w.newOrder userId amount), .insIntent (w.newIntent amount a)]
  | .flushPaid i sms, .ok _ => [.payIntent i.id sms, .payOrder i.orderId]
  | .insertSms amount inventory date time payload, .ok _ =>
    [.insSms (w.newSms amount inventory date time payload)]
  | .insertEvent data, .ok _ => [.insEvent (w.newEvent data)]
  | .publishEvents ids, _ => [.publish ids]
  | .failEvents us, _ => us.map .eventError
  | _, _ => []

/-- The writes of the session after the operation. -/
def Op.writesAfter (p : Pid) (w : World) (op : Op) (r : Except Exc op.Ret) : List Write :=
  match op with
  | .commit | .rollback => []
  | op => (w.txn p).writes ++ op.flushed w r

structure Effect (p : Pid) (op : Op) (w : World) (r : Except Exc op.Ret) (w' : World) : Prop where
  clock : w'.clock = w.clock
  main : w'.main = op.mainAfter w
  dead : w'.dead = op.deadAfter w
  group : w'.group = op.groupAfter w
  sets : w'.sets = op.setsAfter w r
  outbox : op.OutboxAfter p w w'
  intents : op.IntentsAfter p w w'
  writes : (w'.txn p).writes = op.writesAfter p w r
  others : ∀ q, q ≠ p → w'.txn q = w.txn q

/-- Nothing happened at all. -/
theorem Effect.refl {p : Pid} {op : Op} {w : World} {r : Except Exc op.Ret}
    (main : w.main = op.mainAfter w) (dead : w.dead = op.deadAfter w)
    (group : w.group = op.groupAfter w) (sets : w.sets = op.setsAfter w r)
    (outbox : op.OutboxAfter p w w) (intents : op.IntentsAfter p w w)
    (writes : (w.txn p).writes = op.writesAfter p w r) :
    Effect p op w r w :=
  ⟨rfl, main, dead, group, sets, outbox, intents, writes, fun _ _ => rfl⟩

theorem Locks.parts {p : Pid} {w w' : World} {sel : PaymentIntent → Bool}
    {r : Except Exc (List PaymentIntent)} (h : w.Locks p sel r w') :
    w' = w.lock p ((w.selected p sel).map (·.id)) := h.2.2

theorem lock_others (w : World) {p q : Pid} (ids : List Id) (hq : q ≠ p) :
    (w.lock p ids).txn q = w.txn q := by
  simp [World.lock, Function.update_of_ne hq]

theorem flush_others (w : World) {p q : Pid} (ws : List Write) (hq : q ≠ p) :
    (w.flush p ws).txn q = w.txn q := by
  simp [World.flush, Function.update_of_ne hq]

/-- **Inversion** of the operations, part by part. -/
theorem run_effect {p : Pid} {op : Op} {w w' : World} {r : Except Exc op.Ret}
    (h : op.run p w r w') : Effect p op w r w' := by
  cases op with
  | spop k =>
    rcases h with ⟨a, -, rfl, rfl⟩ | ⟨-, rfl, rfl⟩
    · exact ⟨rfl, rfl, rfl, rfl, rfl, rfl, rfl, by simp [Op.writesAfter, Op.flushed], fun _ _ => rfl⟩
    · exact .refl rfl rfl rfl rfl rfl rfl (by simp [Op.writesAfter, Op.flushed])
  | insertOrder userId amount a =>
    simp only [Op.run] at h
    split_ifs at h
    · obtain ⟨-, ⟨-, rfl, rfl⟩ | ⟨-, rfl, rfl⟩⟩ := h
      · exact ⟨rfl, rfl, rfl, rfl, rfl, rfl, rfl, by simp [Op.writesAfter, Op.flushed], fun _ _ => rfl⟩
      · refine ⟨rfl, rfl, rfl, rfl, rfl, rfl, rfl, ?_, fun q hq => by rw [flush_others _ _ hq]; rfl⟩
        simp [flush_writes, Op.writesAfter, Op.flushed]
    · obtain ⟨rfl, rfl⟩ := h
      exact .refl rfl rfl rfl rfl rfl rfl (by simp [Op.writesAfter, Op.flushed])
  | beginSelect =>
    obtain ⟨rfl, rfl⟩ := h
    refine ⟨rfl, rfl, rfl, rfl, rfl, rfl, rfl, by simp [Op.writesAfter, Op.flushed], ?_⟩
    intro q hq
    simp [Function.update_of_ne hq]
  | lockPending a =>
    simp only [Op.run] at h
    split at h
    · obtain ⟨rfl, rfl⟩ := h
      exact .refl rfl rfl rfl rfl rfl rfl (by simp [Op.writesAfter, Op.flushed])
    · split at h
      · obtain rfl := Locks.parts h
        refine ⟨rfl, rfl, rfl, rfl, rfl, rfl, rfl, ?_, fun q hq => lock_others _ _ hq⟩
        simp [lock_writes, Op.writesAfter, Op.flushed]
      · obtain ⟨rfl, rfl⟩ := h
        exact .refl rfl rfl rfl rfl rfl rfl (by simp [Op.writesAfter, Op.flushed])
  | lockById paymentId orderId =>
    simp only [Op.run] at h
    split_ifs at h
    · obtain rfl := Locks.parts h
      refine ⟨rfl, rfl, rfl, rfl, rfl, rfl, rfl, ?_, fun q hq => lock_others _ _ hq⟩
      simp [lock_writes, Op.writesAfter, Op.flushed]
    · obtain ⟨rfl, rfl⟩ := h
      exact .refl rfl rfl rfl rfl rfl rfl (by simp [Op.writesAfter, Op.flushed])
  | flushPaid i sms =>
    obtain ⟨-, -, ⟨-, rfl, rfl⟩ | ⟨-, rfl, rfl⟩⟩ := h
    · exact .refl rfl rfl rfl rfl rfl rfl (by simp [Op.writesAfter, Op.flushed])
    · refine ⟨rfl, rfl, rfl, rfl, rfl, rfl, rfl, ?_, ?_⟩
      · simp [flush_writes, lock_writes, Op.writesAfter, Op.flushed]
      · intro q hq
        rw [flush_others _ _ hq, lock_others _ _ hq]
  | insertSms amount inventory date time payload =>
    simp only [Op.run] at h
    split_ifs at h
    · obtain ⟨-, ⟨-, rfl, rfl⟩ | ⟨-, rfl, rfl⟩⟩ := h
      · exact ⟨rfl, rfl, rfl, rfl, rfl, rfl, rfl, by simp [Op.writesAfter, Op.flushed], fun _ _ => rfl⟩
      · refine ⟨rfl, rfl, rfl, rfl, rfl, rfl, rfl, ?_, fun q hq => by rw [flush_others _ _ hq]; rfl⟩
        simp [flush_writes, Op.writesAfter, Op.flushed]
    · obtain ⟨rfl, rfl⟩ := h
      exact .refl rfl rfl rfl rfl rfl rfl (by simp [Op.writesAfter, Op.flushed])
  | insertEvent data =>
    obtain ⟨rfl, rfl⟩ := h
    refine ⟨rfl, rfl, rfl, rfl, rfl, rfl, rfl, ?_, fun q hq => by rw [flush_others _ _ hq]; rfl⟩
    simp [flush_writes, Op.writesAfter, Op.flushed]
  | claimEvents t staleLock limit =>
    obtain ⟨sel, hsel, rfl, rfl⟩ := h
    exact ⟨rfl, rfl, rfl, rfl, rfl, ⟨sel, hsel, rfl⟩, rfl, by simp [Op.writesAfter, Op.flushed],
      fun _ _ => rfl⟩
  | publishEvents ids =>
    obtain ⟨-, rfl, rfl⟩ := h
    refine ⟨rfl, rfl, rfl, rfl, rfl, rfl, rfl, ?_, fun q hq => flush_others _ _ hq⟩
    simp [flush_writes, Op.writesAfter, Op.flushed]
  | failEvents us =>
    obtain ⟨-, rfl, rfl⟩ := h
    refine ⟨rfl, rfl, rfl, rfl, rfl, rfl, rfl, ?_, fun q hq => flush_others _ _ hq⟩
    simp [flush_writes, Op.writesAfter, Op.flushed]
  | commit =>
    obtain ⟨rfl, rfl⟩ := h
    refine ⟨rfl, rfl, rfl, rfl, rfl, rfl, rfl, ?_, fun q hq => by rw [commit_txn, if_neg hq]⟩
    rw [commit_txn, if_pos rfl]
    rfl
  | rollback =>
    obtain ⟨rfl, rfl⟩ := h
    refine ⟨rfl, rfl, rfl, rfl, rfl, rfl, rfl, ?_, fun q hq => by rw [rollback_txn, if_neg hq]⟩
    rw [rollback_txn, if_pos rfl]
    rfl
  | xclaim consumer minIdle id =>
    simp only [Op.run] at h
    split_ifs at h with hc
    · obtain ⟨rfl, rfl⟩ := h
      exact ⟨rfl, rfl, rfl, by simp [Op.groupAfter, hc], rfl, rfl, rfl,
        by simp [Op.writesAfter, Op.flushed], fun _ _ => rfl⟩
    · obtain ⟨rfl, rfl⟩ := h
      exact .refl rfl rfl (by simp [Op.groupAfter, hc]) rfl rfl rfl
        (by simp [Op.writesAfter, Op.flushed])
  | intentBySms t =>
    obtain ⟨rfl, -⟩ := h
    exact .refl rfl rfl rfl rfl rfl rfl (by simp [Op.writesAfter, Op.flushed])
  | candidate lo hi =>
    obtain ⟨rfl, -⟩ := h
    exact .refl rfl rfl rfl rfl rfl rfl (by simp [Op.writesAfter, Op.flushed])
  | outOfFuel => exact h.elim
  | _ =>
    obtain ⟨rfl, rfl⟩ := h
    exact ⟨rfl, rfl, rfl, rfl, rfl, rfl, rfl, by simp [Op.writesAfter, Op.flushed], fun _ _ => rfl⟩

/-- An operation that does not fail takes effect. -/
theorem exec_taken {f : Fault} {p : Pid} {op : Op} {w w' : World} {r : Except Exc op.Ret}
    (h : exec f p op w r w') (hf : f ≠ .failed) : ∃ r₀, Effect p op w r₀ w' := by
  cases f with
  | done => exact ⟨r, run_effect h⟩
  | failed => exact absurd rfl hf
  | lost =>
    obtain ⟨-, ⟨r₀, hr⟩, -⟩ := h
    exact ⟨r₀, run_effect hr⟩

/-- With faults: the operation takes effect, or nothing happens. -/
theorem exec_effect {f : Fault} {p : Pid} {op : Op} {w w' : World} {r : Except Exc op.Ret}
    (h : exec f p op w r w') : (∃ r₀, Effect p op w r₀ w') ∨ w' = w := by
  rcases exec_cases h with h | ⟨h, -⟩ | ⟨-, r₀, h, -⟩
  · exact Or.inl ⟨r, run_effect h⟩
  · exact Or.inr h
  · exact Or.inl ⟨r₀, run_effect h⟩

end PaymentRecon
