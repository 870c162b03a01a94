import PaymentRecon.Model.Ordinary
import PaymentRecon.Play

/-!
# Acknowledged — XACK comes after success or after a dead-letter copy

What a worker acknowledges it has just handled, or just copied to the dead-letter stream: between the
end of the handler, or the answer to the XADD, and the XACK it performs no other operation.  This holds
of any entry of the stream, whatever it carries.
-/

namespace PaymentRecon

open Interleave Streams Rely

namespace Consume

variable {p : Pid} {w : World} {past : List Label} {id : StreamId}

/-! ## Successes and copies -/

/-- The handler answered a truthy value or `None`, or raised `IgnoreAndAckMessage`. -/
def Succeeded : Except Exc (Option Bool) → Prop
  | .ok result => result.getD true = true
  | .error e => e.kind = .ignoreAndAckMessage

abbrev Calls := List (Σ op : Op, Except Exc op.Ret)

/-- The thread started the message `m`, and then ran the handler to its end. -/
def Finished (m : Message) (calls : Calls) (r : Except Exc (Option Bool)) : Prop :=
  ∃ pre r₀ mid, calls = pre ++ ⟨Op.note (.started m.id), r₀⟩ :: mid ∧
    (dependenciesHandler m).Ends mid r

/-- The last thing `p` did is to run the handler of the entry `id` to a success. -/
def Handled (p : Pid) (past : List Label) (id : StreamId) : Prop :=
  ∃ m calls r r₀, m.id = id ∧ Finished m calls r ∧ Succeeded r ∧
    callsOf p past = calls ++ [⟨Op.note (.handled id true), r₀⟩]

/-- The last thing `p` did is to append a copy of the entry `id` to the dead-letter stream. -/
def Copied (p : Pid) (past : List Label) (id : StreamId) : Prop :=
  ∃ calls f x, callsOf p past = calls ++ [⟨Op.xaddDead f, .ok x⟩] ∧ f.originalId = some id

def Lawful (p : Pid) (past : List Label) : Op → Prop
  | .xack id => Handled p past id ∨ Copied p past id
  | _ => True

def logic : Rely sig Exc Response World Request Tick where
  machine := system
  cond := fun _ _ _ _ => True
  inv := fun _ _ => True
  start := fun _ => top
  guard := fun p _ past => Lawful p past
  final := fun _ _ => top

abbrev Facts := Assertion sig Exc World Request Tick

abbrev Keeps {β : Type} (p : Pid) (K : Facts) (x : App β) (post : Except Exc β → Facts) : Prop :=
  logic.Ensures p K x post

/-- An operation that acknowledges nothing. -/
def Unacking : Op → Prop
  | .xack _ => False
  | _ => True

theorem lawful_of_unacking {op : Op} (h : Unacking op) : Lawful p past op := by
  cases op <;> trivial

theorem keeps_all {β : Type} {x : App β} {A : Op → Prop} {R : Except Exc β → Prop} {K : Facts}
    (hx : x.All A R) (hA : ∀ op, A op → Unacking op) : Keeps p K x fun _ => top :=
  (Ensures.ofAll hx fun op _ _ h _ => lawful_of_unacking (hA op h)).mono fun _ _ _ _ => trivial

/-- What is known of the operations of one thread is stable. -/
theorem stable_calls {C : Calls → Prop} : logic.Stable p fun _ past => C (callsOf p past) := by
  intro w past a w' _ _ _ hp h
  show C (callsOf p (past ++ [a]))
  rw [callsOf_other hp]
  exact h

/-- One operation, and the operations of the thread before and after it. -/
theorem keeps_call {op : Op} {C : Calls → Prop} (h : ∀ past, C (callsOf p past) → Lawful p past op) :
    Keeps p (fun _ past => C (callsOf p past)) (await op)
      fun r _ past => ∃ calls, C calls ∧ callsOf p past = calls ++ [⟨op, r⟩] := by
  refine Ensures.perform (fun r => stable_calls (C := fun cs => ∃ calls, C calls ∧ cs = calls ++ [⟨op, r⟩]))
    (fun _ past _ hK => h past hK) ?_
  intro f w past r w' _ hK _ _
  exact ⟨callsOf p past, hK, callsOf_own⟩

theorem keeps_first {op : Op} (h : Unacking op) :
    Keeps p top (await op) fun r _ past => ∃ calls, callsOf p past = calls ++ [⟨op, r⟩] := by
  refine (Ensures.pre (keeps_call (C := fun _ => True) fun _ _ => lawful_of_unacking h)
    fun _ _ _ => trivial).mono ?_
  rintro r w past ⟨calls, -, hc⟩
  exact ⟨calls, hc⟩

/-! ## The worker -/

theorem keeps_acknowledge :
    Keeps p (fun _ past => Handled p past id ∨ Copied p past id) (acknowledge id) fun _ => top := by
  refine Ensures.bind (m := fun _ => top) ?_ (fun _ _ _ _ => trivial) fun _ _ _ _ => trivial
  exact Ensures.perform (fun _ => Persistent.true.stable) (fun _ _ _ h => h)
    fun _ _ _ _ _ _ _ _ _ => trivial

theorem keeps_moveToDeadLetter (m : Message) :
    Keeps p top (moveToDeadLetter m) (whenOk fun _ _ past => Copied p past m.id) := by
  unfold moveToDeadLetter
  refine Ensures.bind (m := fun _ => top) (keeps_all (A := Unacking) (all_await trivial) fun _ h => h) ?_
    fun _ _ _ _ => trivial
  intro now
  refine Ensures.bind (keeps_first trivial) ?_ fun _ _ _ _ => trivial
  rintro x w past ⟨calls, hc⟩
  exact ⟨calls, _, x, hc, rfl⟩

/-- A handler that is done, with the outcome `ok`. -/
def Done (p : Pid) (m : Message) (ok : Bool) : Facts := fun _ past =>
  ∃ r, Finished m (callsOf p past) r ∧ (ok = true → Succeeded r)

theorem keeps_handlerResult (m : Message) :
    Keeps p (fun _ past => ∃ calls r₀, callsOf p past = calls ++ [⟨Op.note (.started m.id), r₀⟩])
      (handlerResult dependenciesHandler m) (whenOk fun ok => Done p m ok) := by
  refine Ensures.exists fun calls => Ensures.exists fun r₀ => ?_
  have hrun : Keeps p (fun _ past => callsOf p past = calls ++ [⟨Op.note (.started m.id), r₀⟩])
      (dependenciesHandler m) fun r _ past => ∃ calls', callsOf p past =
        (calls ++ [⟨Op.note (.started m.id), r₀⟩]) ++ calls' ∧ (dependenciesHandler m).Ends calls' r :=
    Ensures.ends (all_dependenciesHandler m) fun op w past h _ => lawful_of_unacking (by cases op <;> trivial)
  unfold handlerResult
  refine Ensures.tryCatch (m := fun r => match r with
    | .ok ok => Done p m ok
    | .error e => fun _ past => Finished m (callsOf p past) (.error e)) ?_ (fun _ _ _ h => h) ?_
  · refine Ensures.bind hrun ?_ ?_
    · rintro result w past ⟨mid, hc, hend⟩
      exact ⟨.ok result, ⟨calls, r₀, mid, by simpa using hc, hend⟩, fun h => h⟩
    · rintro e w past ⟨mid, hc, hend⟩
      exact ⟨calls, r₀, mid, by simpa using hc, hend⟩
  · exact fun e w past h => ⟨.error e, h, fun hk => by simpa [Succeeded] using hk⟩

theorem keeps_processMessage (workerId : String) (m : Message) :
    Keeps p top ((paymentWorker workerId).processMessage m)
      (whenOk fun ok _ past => ok = true → Handled p past m.id) := by
  unfold Worker.processMessage
  refine Ensures.bind (m := fun _ => top) ?_ ?_ fun _ _ _ _ => trivial
  · exact keeps_all (A := Unacking) (all_ofExcept _) fun _ h => h
  intro _
  refine Ensures.bind (keeps_first trivial) ?_ fun _ _ _ _ => trivial
  intro u
  cases hd : (paymentWorker workerId).getHandler m.data with
  | error e => exact fun _ _ _ => trivial
  | ok handler =>
    rw [Prog.ofExcept_ok, Prog.ret_bind]
    cases handler with
    | none => exact fun _ _ _ h => absurd h (by simp)
    | some h =>
      obtain rfl := paymentWorker_getHandler hd
      refine Ensures.bind ((keeps_handlerResult m).pre ?_) ?_ fun _ _ _ _ => trivial
      · rintro w past ⟨calls, hc⟩
        exact ⟨calls, _, hc⟩
      · intro ok
        refine Ensures.bind (keeps_call (C := fun calls => ∃ r, Finished m calls r ∧
          (ok = true → Succeeded r)) fun _ _ => trivial) ?_ fun _ _ _ _ => trivial
        rintro u' w past ⟨calls, ⟨r, hfin, hs⟩, hc⟩ rfl
        exact ⟨m, calls, r, _, rfl, hfin, hs rfl, hc⟩

theorem keeps_handleFailure (worker : Worker) (m : Message) :
    Keeps p top (worker.handleFailure m) fun _ => top := by
  unfold Worker.handleFailure
  refine Ensures.bind (m := fun _ => top) ?_ ?_ fun _ _ _ _ => trivial
  · exact keeps_all (A := Unacking) (all_ofExcept _) fun _ h => h
  intro _
  split_ifs
  · refine Ensures.tryCatch (m := fun _ => top) ?_ (fun _ _ _ _ => trivial) fun _ _ _ _ => trivial
    refine Ensures.bind (keeps_moveToDeadLetter m) ?_ fun _ _ _ _ => trivial
    exact fun _ => keeps_acknowledge.pre fun _ _ h => Or.inr h
  · exact fun _ _ _ => trivial

theorem keeps_processOne (workerId : String) (m : Message) :
    Keeps p top ((paymentWorker workerId).processOne m) fun _ => top := by
  unfold Worker.processOne
  refine Ensures.bind (m := fun _ => top) ?_ ?_ fun _ _ _ _ => trivial
  · exact keeps_all (A := Unacking) (all_ofExcept _) fun _ h => h
  intro amount
  split_ifs
  · refine Ensures.bind (keeps_moveToDeadLetter m) ?_ fun _ _ _ _ => trivial
    exact fun _ => keeps_acknowledge.pre fun _ _ h => Or.inr h
  · refine Ensures.bind (keeps_processMessage workerId m) ?_ fun _ _ _ _ => trivial
    intro ok
    split_ifs with hok
    · exact keeps_acknowledge.pre fun _ _ h => Or.inl (h hok)
    · exact (keeps_handleFailure _ m).pre fun _ _ _ => trivial

theorem keeps_turn (workerId : String) : Keeps p top (paymentWorker workerId).turn fun _ => top :=
  ensures_batches (fun _ h => keeps_all (A := Fetches) (all_await h) fun op h => by cases op <;> trivial)
    (keeps_processOne workerId)

/-! ## All requests -/

theorem keeps_prog (q : Request) : Keeps p top q.prog fun _ => top := by
  have collects : ∀ op, Collects op → Unacking op := fun op h => by cases op <;> trivial
  have stocks : ∀ op, Stocks op → Unacking op := fun op h => by cases op <;> trivial
  cases q with
  | createOrder userId amount => exact keeps_all (all_createOrder userId amount) stocks
  | confirmPayment orderId paymentId => exact keeps_all (all_confirmPayment orderId paymentId) collects
  | handlePayment m => exact keeps_all (all_seq (all_handlePayment m) fun _ => trivial) collects
  | receiveTransaction s =>
    exact keeps_all (all_receiveTransaction s) fun op h => by cases op <;> trivial
  | processOutboxEvent => exact keeps_all all_processOutboxEvent fun op h => by cases op <;> trivial
  | work workerId => exact keeps_turn workerId
  | replayDlq y => exact keeps_all (all_replayDlqDashboard y) fun op h => by cases op <;> trivial
  | lifespan fuel => exact keeps_all (all_lifespan fuel) stocks

theorem sound : logic.Sound where
  prog _ q _ _ _ _ _ := (keeps_prog q).pre fun _ _ _ => trivial
  start _ := Persistent.true.stable
  begin _ _ _ _ h := h
  spawn _ _ _ _ _ _ := trivial
  run _ _ _ _ _ _ _ _ _ _ _ := trivial
  crash _ _ _ _ _ := trivial
  outer _ _ _ _ _ := trivial

/-- An acknowledgement. -/
def acks : Label → Bool
  | .run _ _ (.xack _) _ => true
  | _ => false

/-- **Acknowledged only after success or a copy.**  Whatever the stream carries, and wherever requests
crash or fail: when a worker acknowledges an entry, the last thing it did was to run the handler of the
entry to a truthy result, to `None` or to `IgnoreAndAckMessage`, or to append a dead-letter entry with
the id of the entry. -/
theorem acknowledged_after_success {w₀ : World} {tr before after : List Label} {c : State}
    (hr : Lts.Run Steps (.init w₀) tr c) {p : Pid} {f : Fault} {r : Except Exc ℕ}
    (htr : tr = before ++ .run p f (Op.xack id) r :: after) :
    Handled p before id ∨ Copied p before id := by
  subst htr
  obtain ⟨c₁, h₁, h₂⟩ := hr.split
  obtain ⟨c₂, hs, -⟩ := h₂.uncons
  have hH := (sound.derive (P := fun _ _ _ => True) (J := fun _ => True)
    (h₁.mono fun _ _ _ h => ⟨h, trivial, trivial⟩) (Holds.init trivial fun _ => trivial) trivial
    fun _ _ _ _ _ _ _ _ => trivial).1
  have hg := (sound.step hs trivial hH).1
  have hlaw : Lawful p c₁.past (.xack id) := hg.2 p f (Op.xack id) r rfl
  rwa [show c₁.past = before from run_past h₁] at hlaw

theorem acknowledged_after_success_sample : ∃ (tr : List Label) (c : State) (p : Pid) (f : Fault)
    (id : StreamId) (r : Except Exc ℕ) (before : List Label),
    Lts.Run Steps (.init World.empty) tr c ∧ tr = before ++ [.run p f (Op.xack id) r] ∧
      (Handled p before id ∨ Copied p before id) := by
  have hplay : visits 4 .none
      [(Script.createDown 0 1500001 ++ Script.webhook 1 1500001 ++ Script.relay 2 ++
          (Script.pay 3).dropLast, fun _ => true),
        ([.go 3 none], fun c => c.past.getLast?.any acks)] (.init World.empty) [] World.empty.sets = true := by
    decide +kernel
  obtain ⟨tr, c₁, h₁, -, -, -, tr', c, h₂, hlen, hack, -⟩ :=
    visits_run hplay (Within.init 4 World.empty_closed)
  obtain ⟨a, hs, -⟩ := h₂.step_of_length hlen
  simp only [hs.wstep.2, List.getLast?_concat, Option.any_some, acks] at hack
  split at hack
  · have hr := h₁.of_restrict.snoc hs
    exact ⟨_, c, _, _, _, _, tr, hr, rfl, acknowledged_after_success hr rfl⟩
  · exact absurd hack (by simp)

end Consume

end PaymentRecon
