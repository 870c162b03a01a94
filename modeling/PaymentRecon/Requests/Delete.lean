import PaymentRecon.Lib.Runs
import PaymentRecon.Settle.Agree

/-!
# Delete — deleting an order

`delete_order_service` and the endpoint `DELETE /orders/delete/{order_id}`.  `session.delete` only marks
the order; the commit flushes.  The relationship `Order.payment_intent` has no delete cascade, so the
flush first sets `order_id` of the intents of the order to NULL, which their column refuses, and
deletes the order only when there was no such intent.
-/

namespace PaymentRecon

open Interleave Lts

namespace Requests

/-! ## The session of the request -/

inductive DeleteOp
  | selectOrder (orderId userId : Id)
  | delete (order : Order)
  | commit
  | rollback

@[reducible] def DeleteOp.Ret : DeleteOp → Type
  | .selectOrder _ _ => Option Order
  | _ => Unit

@[reducible] def deleteSig : Sig := ⟨DeleteOp, DeleteOp.Ret⟩

abbrev Deletion (α : Type) := Prog deleteSig Exc α

/-- The world, and the orders that the session marked. -/
structure Session where
  world : World
  deleted : List Order

/-- The flush of the marked orders: `UPDATE payment_intent SET order_id = NULL` for the intents of
each, and `DELETE FROM orders`. -/
def Db.flushDeleted : List Order → Db → Except Exc Db
  | [], db => .ok db
  | o :: os, db =>
    if ∃ i ∈ db.intents, i.orderId = o.id then .error IntegrityError
    else flushDeleted os { db with orders := db.orders.filter fun x => x.id ≠ o.id }

/-- An operation that goes through. -/
def DeleteOp.run : (op : DeleteOp) → Session → Except Exc op.Ret → Session → Prop
  | .selectOrder orderId userId, s, r, s' =>
    s' = s ∧ r = if inInt4 orderId ∧ inInt4 userId then
      .ok (s.world.db.orders.find? fun o => o.id = orderId ∧ o.userId = userId) else .error DataError
  | .delete order, s, r, s' => r = .ok () ∧ s' = { s with deleted := s.deleted ++ [order] }
  | .commit, s, r, s' =>
    match Db.flushDeleted s.deleted s.world.db with
    | .ok db => r = .ok () ∧ s' = ⟨{ s.world with db := db }, []⟩
    | .error e => r = .error e ∧ s' = ⟨s.world, []⟩
  | .rollback, s, r, s' => r = .ok () ∧ s' = ⟨s.world, []⟩

/-! ## The endpoint -/

abbrev ask (op : DeleteOp) : Deletion op.Ret := Prog.perform (S := deleteSig) (E := Exc) op

def deleteOrderService (orderId userId : Id) : Deletion Unit := do
  let order ← ask (.selectOrder orderId userId)
  match order with
  | none => throw ⟨.orderNotFoundError, "Order not found"⟩
  | some order => ask (.delete order)

/-- The dependency `get_db`. -/
def withSession {α : Type} (body : Deletion α) : Deletion α :=
  try body
  catch e => do
    ask .rollback
    throw e

/-- The endpoint `DELETE /orders/delete/{order_id}`. -/
def deleteOrder (userId orderId : Id) : Deletion Unit :=
  withSession do
    try
      deleteOrderService orderId userId
      ask .commit
    catch e =>
      if e.kind = .orderNotFoundError then throw (httpException 404 "Order not found") else throw e

/-- Requests that nothing fails. -/
@[reducible] def deletions : Machine deleteSig Exc Unit Session (Id × Id) Tick where
  prog := fun q => deleteOrder q.1 q.2
  exec := fun f _ op s r s' => f = .done ∧ op.run s r s'
  abort := fun _ s => ⟨s.world, []⟩
  outer := fun x s => { s with world := s.world.tick x }

/-- What deleting the order `o` is for. -/
structure Deletes (o : Order) (w w' : World) : Prop where
  orders : w'.db.orders = w.db.orders.filter fun x => x.id ≠ o.id
  intents : w'.db.intents = w.db.intents.filter fun i => i.orderId ≠ o.id
  freed : ∀ i ∈ w.db.intents, i.orderId = o.id → i.exactAmount ∉ w'.pending ∧ i.exactAmount ∈ w'.free

variable {p : Pid} {w : World} {cs : List (Call deleteSig Exc)} {s s' : Session}

theorem flushDeleted_refused {o : Order} {db : Db} (h : ∃ i ∈ db.intents, i.orderId = o.id) :
    Db.flushDeleted [o] db = .error IntegrityError := if_pos h

/-- An error rolls the session back. -/
theorem runs_refuse {e : Exc} {r : Except Exc Unit}
    (h : Runs deletions p (do ask .rollback; throw e : Deletion Unit) s cs r s') :
    s'.world = s.world ∧ r = .error e := by
  obtain ⟨f, a, s₁, cs₁, ⟨-, rfl, rfl⟩, -, h⟩ := runs_call.mp h
  obtain ⟨-, rfl, rfl⟩ := runs_raise.mp h
  exact ⟨rfl, rfl⟩

/-- An order that has an intent is not deleted. -/
theorem runs_deleteOrder {userId orderId : Id} {r : Except Exc Unit}
    (hintent : ∀ o ∈ w.db.orders, ∃ i ∈ w.db.intents, i.orderId = o.id)
    (h : Runs deletions p (deleteOrder userId orderId) ⟨w, []⟩ cs r s') :
    s'.world = w ∧ ∃ e, r = .error e := by
  obtain ⟨f, order, s₁, cs₁, ⟨-, hs₁, horder⟩, -, h⟩ := runs_call.mp h
  obtain rfl : s₁ = ⟨w, []⟩ := hs₁
  split_ifs at horder
  · cases hfind : w.db.orders.find? fun o => o.id = orderId ∧ o.userId = userId with
    | none =>
      rw [hfind] at horder
      subst horder
      obtain ⟨hw, hr⟩ := runs_refuse (e := httpException 404 "Order not found") h
      exact ⟨hw, _, hr⟩
    | some o =>
      rw [hfind] at horder
      subst horder
      -- the order is marked, and the flush of the commit fails on its intent
      obtain ⟨_, _, s₂, _, ⟨-, rfl, rfl⟩, -, h⟩ := runs_call.mp h
      obtain ⟨_, a, s₃, _, ⟨-, hcommit⟩, -, h⟩ := runs_call.mp h
      have hrefused : Db.flushDeleted ([] ++ [o]) w.db = .error IntegrityError :=
        flushDeleted_refused (hintent o (List.mem_of_find?_eq_some hfind))
      simp only [DeleteOp.run, hrefused] at hcommit
      obtain ⟨rfl, rfl⟩ := hcommit
      obtain ⟨hw, hr⟩ := runs_refuse (e := IntegrityError) h
      exact ⟨hw, _, hr⟩
  · subst horder
    obtain ⟨hw, hr⟩ := runs_refuse (e := DataError) h
    exact ⟨hw, _, hr⟩

theorem deletions_total (op : DeleteOp) (s : Session) : ∃ f r s', deletions.exec f p op s r s' := by
  cases op with
  | commit =>
    cases hflush : Db.flushDeleted s.deleted s.world.db with
    | ok db => exact ⟨_, _, _, rfl, by simp only [DeleteOp.run, hflush]; exact ⟨rfl, rfl⟩⟩
    | error e => exact ⟨_, _, _, rfl, by simp only [DeleteOp.run, hflush]; exact ⟨rfl, rfl⟩⟩
  | _ => exact ⟨_, _, _, rfl, rfl, rfl⟩

/-- Every order has an intent. -/
theorem order_has_intent {tr : List Label} {c : State} (hr : Run Steps (.init World.empty) tr c) :
    ∀ o ∈ c.world.db.orders, ∃ i ∈ c.world.db.intents, i.orderId = o.id := by
  intro o ho
  obtain ⟨-, hA⟩ := Settle.Agree.reached hr
    (Rely.Holds.init Consistent.empty fun _ => rfl) Settle.Agree.empty
  obtain ⟨i, hi, hof⟩ := hA.aligned.intent ho
  exact ⟨i, hi, hof.id⟩

theorem not_deletes {o : Order} (ho : o ∈ w.db.orders) : ¬ Deletes o w w := by
  intro h
  rw [h.orders] at ho
  simpa using (List.mem_filter.mp ho).2

/-- **No order is ever deleted.**  In every reachable state, the request to delete an order, by its
owner and with nothing failing, comes to an end, answers with an error and changes nothing. -/
theorem deleteOrder_never {tr : List Label} {c : State} (hr : Run Steps (.init World.empty) tr c)
    {o : Order} (ho : o ∈ c.world.db.orders) (p : Pid) :
    (∃ cs r s', Runs deletions p (deleteOrder o.userId o.id) ⟨c.world, []⟩ cs r s') ∧
      ∀ cs r s', Runs deletions p (deleteOrder o.userId o.id) ⟨c.world, []⟩ cs r s' →
        (∃ e, r = .error e) ∧ s'.world = c.world ∧ ¬ Deletes o c.world s'.world := by
  refine ⟨Runs.total deletions_total _ _, fun cs r s' h => ?_⟩
  obtain ⟨hw, he⟩ := runs_deleteOrder (order_has_intent hr) h
  refine ⟨he, hw, ?_⟩
  rw [hw]
  exact not_deletes ho

/-- A run that stores a PENDING order. -/
theorem pending_order : ∃ tr c, Run Steps (.init World.empty) tr c ∧
    ∃ o ∈ c.world.db.orders, o.status = .PENDING := by
  obtain ⟨tr, c, hr, htest, -⟩ := plays_run 1 .none (Script.createDown 0 1500001)
    (fun c => c.world.db.orders.any fun o => o.status = .PENDING) (by decide +kernel) World.empty_closed
  exact ⟨tr, c, hr.of_restrict, by simpa using htest⟩

theorem deleteOrder_never_sample : ∃ (tr : List Label) (c : State) (o : Order),
    Run Steps (.init World.empty) tr c ∧ o ∈ c.world.db.orders ∧
      ∃ cs r s', Runs deletions 0 (deleteOrder o.userId o.id) ⟨c.world, []⟩ cs r s' := by
  obtain ⟨tr, c, hr, o, ho, -⟩ := pending_order
  exact ⟨tr, c, o, hr, ho, (deleteOrder_never hr ho 0).1⟩

/-- Deleting the PENDING order of that run fails, and changes nothing. -/
theorem deleteOrder_fails : ∃ (tr : List Label) (c : State) (o : Order),
    Run Steps (.init World.empty) tr c ∧ o ∈ c.world.db.orders ∧ o.status = .PENDING ∧
      ∃ cs e s', Runs deletions 0 (deleteOrder o.userId o.id) ⟨c.world, []⟩ cs (.error e) s' ∧
        ¬ Deletes o c.world s'.world := by
  obtain ⟨tr, c, hr, o, ho, hst⟩ := pending_order
  obtain ⟨cs, r, s', h⟩ := Runs.total deletions_total (deleteOrder o.userId o.id) ⟨c.world, []⟩
  obtain ⟨hw, e, rfl⟩ := runs_deleteOrder (order_has_intent hr) h
  refine ⟨tr, c, o, hr, ho, hst, cs, e, s', h, ?_⟩
  rw [hw]
  exact not_deletes ho

end Requests

end PaymentRecon
