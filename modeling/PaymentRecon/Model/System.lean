import PaymentRecon.Lib.Solo
import PaymentRecon.Model.Startup

/-!
# System — the requests the service runs concurrently

Every request is a thread.  A crash loses the open transaction of the thread, as closing its session
does; the environment lets time pass.
-/

namespace PaymentRecon

open Interleave

inductive Request
  | createOrder (userId : Id) (amount : Amount)
  | confirmPayment (orderId paymentId : Id)
  | handlePayment (m : Message)
  | receiveTransaction (s : SmsData)
  | processOutboxEvent
  | work (workerId : String)
  | replayDlq (msgId : IdArg)
  | lifespan (fuel : ℕ)

def Request.prog : Request → App Response
  | .createOrder userId amount => PaymentRecon.createOrder userId amount
  | .confirmPayment orderId paymentId => PaymentRecon.confirmPayment orderId paymentId
  | .handlePayment m => do
    let result ← PaymentRecon.handlePayment m
    pure (.handled result)
  | .receiveTransaction s => PaymentRecon.receiveTransaction s
  | .processOutboxEvent => PaymentRecon.processOutboxEvent
  | .work workerId => (paymentWorker workerId).turn
  | .replayDlq msgId => replayDlqDashboard msgId
  | .lifespan fuel => PaymentRecon.lifespan fuel

/-- The environment: `tick d` lets `d` milliseconds pass. -/
inductive Tick
  | tick (d : ℕ)

def World.tick (w : World) : Tick → World
  | .tick d => { w with clock := w.clock + d }

@[reducible] def system : Machine sig Exc Response World Request Tick where
  prog := Request.prog
  exec := exec
  abort := fun p w => w.rollback p
  outer := fun x w => w.tick x

abbrev State := Config sig Exc Response World Request Tick

abbrev Label := Act sig Exc Request Tick

/-- One step of the service. -/
abbrev Steps : State → Label → State → Prop := Step system

/-- A condition on the world, the steps before and the step itself. -/
abbrev StepCond := World → List Label → Label → World → Prop

/-- The steps of the service that meet `P`. -/
abbrev StepsIf (P : StepCond) : State → Label → State → Prop := Lts.restrict Steps (Allows P)

/-- A program that performs one operation and goes on. -/
theorem all_await {A : Op → Prop} {op : Op} (h : A op) : (await op).All A fun _ => True :=
  Prog.All.perform h fun _ => trivial

theorem all_then {A : Op → Prop} {β : Type} {op : Op} {f : op.Ret → App β}
    {R : Except Exc β → Prop} (h : A op) (hok : ∀ a, (f a).All A R) (herr : ∀ e, R (.error e)) :
    (await op >>= f).All A R :=
  Prog.All.bind (all_await h) (fun a _ => hok a) fun e _ => herr e

end PaymentRecon
