import PaymentRecon.Model.Ordinary
import PaymentRecon.Pool.Startup
import PaymentRecon.Tables.Growth

/-!
# Stages — where a request is with the amount it handles

A request that allocates an amount pops it, reserves it, stores it with its intent, and may have to
return it; one that settles an intent matches it, pays it and moves its amount back.  `stageOf p past`
is read off the operations of `p` and their answers.  `Lawful` is the promise under which a request
performs each operation on the pool, in terms of its stage only; the results about the pool are derived
from these promises.
-/

namespace PaymentRecon

open Interleave Rely

namespace Pool

variable {p q : Pid} {w w' : World} {a : Label} {past : List Label}

/-! ## Stages -/

inductive Stage
  | idle
  | popped (a : Amount)
  | reserved (a : Amount)
  | returning (a : Amount)
  | stored (a : Amount)
  | matched (i : PaymentIntent)
  | moved (i : PaymentIntent)
  | paid (a : Amount)
  deriving DecidableEq

/-- The stage after an operation with this answer. -/
def Stage.next (s : Stage) : (op : Op) → Except Exc op.Ret → Stage
  | .spop .freeAmounts, .ok (some a) => .popped a
  | .smove .amounts .pendingOrders a, .ok _ => .reserved a
  -- the amount is lost: the request goes on with an amount of PostgreSQL
  | .smove .amounts .pendingOrders _, .error _ => .idle
  | .smove .pendingOrders .amounts a, .ok _ => .returning a
  | .smove .pendingOrders .freeAmounts _, .ok _ =>
    match s with
    | .matched i => .moved i
    | _ => .idle
  | .sadd .freeAmounts _, .ok _ => .idle
  | .insertOrder _ _ a, .ok _ => .stored a
  | .flushPaid i _, .ok _ => .matched i
  | .commit, .ok _ =>
    match s with
    | .matched i => .paid i.exactAmount
    | .moved _ => .idle
    | .stored _ => .idle
    | s => s
  | .rollback, _ => .idle
  | _, _ => s

/-- The stage of `p` after the steps `past`. -/
def stageOf (p : Pid) (past : List Label) : Stage := track Stage.next .idle p past

@[simp] theorem stageOf_nil : stageOf p [] = .idle := rfl

theorem stageOf_own {f : Fault} {op : Op} {r : Except Exc op.Ret} :
    stageOf p (past ++ [.run p f op r]) = (stageOf p past).next op r := track_own

theorem stageOf_other (h : a.pid ≠ some p) : stageOf p (past ++ [a]) = stageOf p past :=
  track_other h

theorem stageOf_spawn {x : Request} : stageOf p (past ++ [.spawn q x]) = stageOf p past :=
  track_spawn

/-- The request took the amount out of `free_amounts` and has not stored it. -/
def Stage.Takes (s : Stage) (a : Amount) : Prop := s = .popped a ∨ s = .reserved a ∨ s = .returning a

/-- The request has the amount in hand: it took it, or it is about to give it back. -/
def Stage.Owns (s : Stage) (a : Amount) : Prop := s.Takes a ∨ s = .paid a

/-- The request flushed an order, or moved the amount of an intent, and did not commit yet. -/
def Stage.Bound (s : Stage) : Prop := (∃ a, s = .stored a) ∨ ∃ i, s = .moved i

/-- The request flushed the payment of the intent and did not commit yet. -/
def Stage.Settles (s : Stage) (i : PaymentIntent) : Prop := s = .matched i ∨ s = .moved i

@[simp] theorem takes_idle {a : Amount} : ¬ Stage.idle.Takes a := by simp [Stage.Takes]

@[simp] theorem owns_idle {a : Amount} : ¬ Stage.idle.Owns a := by simp [Stage.Owns]

@[simp] theorem owns_stored {a b : Amount} : ¬ (Stage.stored b).Owns a := by
  simp [Stage.Owns, Stage.Takes]

@[simp] theorem owns_matched {a : Amount} {i : PaymentIntent} : ¬ (Stage.matched i).Owns a := by
  simp [Stage.Owns, Stage.Takes]

@[simp] theorem owns_moved {a : Amount} {i : PaymentIntent} : ¬ (Stage.moved i).Owns a := by
  simp [Stage.Owns, Stage.Takes]

@[simp] theorem owns_popped {a b : Amount} : (Stage.popped b).Owns a ↔ b = a := by
  simp [Stage.Owns, Stage.Takes]

@[simp] theorem owns_reserved {a b : Amount} : (Stage.reserved b).Owns a ↔ b = a := by
  simp [Stage.Owns, Stage.Takes]

@[simp] theorem owns_returning {a b : Amount} : (Stage.returning b).Owns a ↔ b = a := by
  simp [Stage.Owns, Stage.Takes]

@[simp] theorem owns_paid {a b : Amount} : (Stage.paid b).Owns a ↔ b = a := by
  simp [Stage.Owns, Stage.Takes]

theorem Stage.next_aside {s : Stage} {op : Op} {r : Except Exc op.Ret} (h : Aside op) :
    s.next op r = s := by
  cases op <;> first | rfl | exact h.elim

/-! ## Promises -/

/-- An operation of the thread failed for want of Redis. -/
def Faulted (p : Pid) (past : List Label) : Prop := ∃ op r, Act.run p .failed op r ∈ past

/-- Nothing is bound, and an amount in hand is given up only for want of Redis.  (The amount 0, once
taken, is given up too: Python takes it for none.) -/
def MayRollBack (p : Pid) (past : List Label) : Prop :=
  ¬ (stageOf p past).Bound ∧
    ∀ a, (stageOf p past).Owns a → (a = 0 ∧ (stageOf p past).Takes a) ∨ Faulted p past

/-- The thread is an admin's confirmation. -/
def Confirms (p : Pid) (past : List Label) : Prop :=
  ∃ orderId paymentId, Act.spawn p (.confirmPayment orderId paymentId) ∈ past

/-- The promise under which `p` performs the operation; `boot` says whether startups occur. -/
def Lawful (boot : Prop) (p : Pid) (w : World) (past : List Label) : Op → Prop
  | .spop k => k = .freeAmounts ∧ stageOf p past = .idle
  | .smove .amounts .pendingOrders a => stageOf p past = .popped a
  | .smove .pendingOrders .amounts a => stageOf p past = .reserved a
  | .smove .pendingOrders .freeAmounts a => stageOf p past = .paid a ∨
      Confirms p past ∧ ∃ i, stageOf p past = .matched i ∧ i.exactAmount = a
  | .smove _ _ _ => False
  | .sadd .freeAmounts as => ∃ a, as = [a] ∧ stageOf p past = .returning a
  | .sadd .amounts as => boot ∧ ∀ a ∈ as, a ∈ seeded
  | .sadd .pendingOrders as => boot ∧ ∀ a ∈ as, ∃ i ∈ w.db.intents, i.exactAmount = a
  | .del k => boot ∧ k = .pendingOrders
  | .sdiffstore dst a b => boot ∧ dst = .freeAmounts ∧ a = .amounts ∧ b = .pendingOrders
  | .insertOrder _ _ a => stageOf p past = .reserved a ∨ stageOf p past = .idle ∧ Faulted p past
  | .flushPaid i _ => stageOf p past = .idle ∧ w.Held p i ∧ (i.status = .PENDING ∨ i.status = .FAILED)
  | .rollback => MayRollBack p past
  | _ => True

/-- Redis may be out of reach for any time; nothing else fails. -/
def Outages (boot : Prop) : StepCond := fun _ _ a _ =>
  match a with
  | .spawn _ (.lifespan _) => boot
  | .run _ f op _ => f = .done ∨ f = .failed ∧ op.OnRedis
  | .crash _ => False
  | _ => True

instance (boot : Prop) [Decidable boot] (w : World) (past : List Label) (a : Label) (w' : World) :
    Decidable (Outages boot w past a w') :=
  match a with
  | .spawn _ (.lifespan _) => inferInstanceAs (Decidable boot)
  | .run _ _ _ _ => inferInstanceAs (Decidable (_ ∨ _ ∧ _))
  | .crash _ => inferInstanceAs (Decidable False)
  | .outer _ | .spawn _ (.createOrder _ _) | .spawn _ (.confirmPayment _ _)
  | .spawn _ (.handlePayment _) | .spawn _ (.receiveTransaction _) | .spawn _ .processOutboxEvent
  | .spawn _ (.work _) | .spawn _ (.replayDlq _) => inferInstanceAs (Decidable True)

def logic (boot : Prop) : Rely sig Exc Response World Request Tick where
  machine := system
  cond := Outages boot
  inv := fun w _ => Consistent w
  start := fun p _ past => stageOf p past = .idle
  guard := Lawful boot
  final := fun p _ _ past => stageOf p past = .idle

/-- An operation goes through, or Redis is out of reach. -/
theorem outage_cases {boot : Prop} {f : Fault} {op : Op} {r : Except Exc op.Ret}
    (hx : exec f p op w r w') (hc : (logic boot).cond w past (.run p f op r) w') :
    f = .done ∧ op.run p w r w' ∨
      f = .failed ∧ op.OnRedis ∧ w' = w ∧ r = .error RedisError := by
  rcases hc with rfl | ⟨rfl, hop⟩
  · exact Or.inl ⟨rfl, hx⟩
  · obtain ⟨rfl, e, he, rfl⟩ := hx
    refine Or.inr ⟨rfl, hop, rfl, ?_⟩
    cases op <;> first | exact congrArg _ he | exact hop.elim

/-- No command of Redis that goes through answers an error. -/
theorem redis_ok {op : Op} {r : Except Exc op.Ret} (hop : op.OnRedis) (h : op.run p w r w') :
    ∃ x, r = .ok x := by
  cases op with
  | spop k => rcases h with ⟨a, -, h, -⟩ | ⟨-, h, -⟩ <;> exact ⟨_, h⟩
  | xclaim _ _ _ =>
    simp only [Op.run] at h
    split_ifs at h <;> exact ⟨_, h.1⟩
  | candidate _ _ | insertOrder _ _ _ | refreshOrder _ | pendingPage _ _ | intentBySms _
  | beginSelect | lockPending _ | lockById _ _ | flushPaid _ _ | insertSms _ _ _ _ _
  | insertEvent _ | claimEvents _ _ _ | publishEvents _ | failEvents _ | commit | rollback
  | now | note _ | outOfFuel => exact hop.elim
  | _ => exact ⟨_, h.1⟩

/-- An operation on PostgreSQL goes through. -/
theorem outage_run {boot : Prop} {f : Fault} {op : Op} {r : Except Exc op.Ret}
    (hx : exec f p op w r w') (hc : (logic boot).cond w past (.run p f op r) w')
    (hop : ¬ op.OnRedis) :
    op.run p w r w' := by
  rcases outage_cases hx hc with ⟨-, h⟩ | ⟨-, h, -⟩
  · exact h
  · exact absurd h hop

end Pool

end PaymentRecon
