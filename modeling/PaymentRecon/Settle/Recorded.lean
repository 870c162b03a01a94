import PaymentRecon.Consume.Acknowledged
import PaymentRecon.Lib.Splits
import PaymentRecon.Requests.Create
import PaymentRecon.Settle.Agree

/-!
# Recorded — what a delivery leaves behind

A delivery of a payment message that ends without an error found the transfer on an intent, or settled one
with it.  Either way the transfer is recorded on an intent, and no later step takes it off.  This holds of
a request to `handle_payment`, and of the handler that a worker runs in one of its turns.
-/

namespace PaymentRecon

open Interleave Rely Lts Settle

variable {p q : Pid} {w w' : World} {past : List Label} {x : Label} {m : Message}

/-- The transfer of the message is recorded on an intent. -/
def Recorded (m : Message) (w : World) : Prop :=
  ∃ t n, m.data.get "transaction_id" = .ok t ∧ intParam t = some n ∧
    ∃ i ∈ w.db.intents, i.smsTransactionId = some n

/-- The session has written nothing. -/
def Silent (p : Pid) (w : World) : Prop := (w.txn p).writes = []

theorem Silent.of_writes (h : Silent p w) (hw : (w'.txn p).writes = (w.txn p).writes) : Silent p w' :=
  hw.trans h

theorem Silent.other (h : Silent p w) (hw : system.WStep w x w') (hp : x.pid ≠ some p) : Silent p w' :=
  h.of_writes (by rw [wstep_txn hw hp])

/-- An intent on which a transfer is recorded stays as it is. -/
theorem recorded_stays (hw : system.WStep w x w') (hA : Agree w) (hc : Consistent w) {j : PaymentIntent}
    {n : Id} (hj : j ∈ w.db.intents) (hn : j.smsTransactionId = some n) : j ∈ w'.db.intents :=
  intent_stays hw hj (hA.not_pays hc hj (hc.settled.paid j hj n hn))

theorem Recorded.step (h : Recorded m w) (hw : system.WStep w x w') (hA : Agree w) (hc : Consistent w) :
    Recorded m w' := by
  obtain ⟨t, n, ht, hn, j, hj, hsms⟩ := h
  exact ⟨t, n, ht, hn, j, recorded_stays hw hA hc hj hsms, hsms⟩

/-- The first query answers when the id of the transfer is an integer. -/
theorem intentBySms_param {f : Fault} {t : Json} {found : Option PaymentIntent}
    (h : exec f p (.intentBySms t) w (.ok found) w') : ∃ n, intParam t = some n ∧
      ∀ i, found = some i → i ∈ w.db.intents ∧ i.smsTransactionId = some n := by
  obtain ⟨-, -, hrun⟩ := Requests.exec_ok h
  split at hrun
  · next n hn =>
    refine ⟨n, hn, ?_⟩
    rintro i rfl
    have hfind := (Except.ok.inj hrun).symm
    exact ⟨List.mem_of_find?_eq_some hfind, by simpa using List.find?_some hfind⟩
  · cases hrun

/-! ## What a delivery does -/

/-- The operations until a delivery ends well. -/
def Delivering : Op → Prop
  | .intentBySms _ | .beginSelect | .lockPending _ | .flushPaid _ _ | .commit | .smove _ _ _ => True
  | _ => False

/-- The ROLLBACK tells how a delivery ended. -/
theorem delivered_iff {calls : Consume.Calls} {r : Except Exc Bool}
    (h : (handlePayment m).Ends calls r) : (∃ b, r = .ok b) ↔ ∀ c ∈ calls, Delivering c.1 := by
  unfold handlePayment at h
  rcases Prog.ends_tryCatch h with ⟨b, rfl, hx⟩ | ⟨e, us, vs, rfl, -, hg⟩
  · refine iff_of_true ⟨b, rfl⟩ (hx.all (R := fun _ => True) ?_)
    refine all_seq (all_ofExcept _) fun amount => all_seq (all_ofExcept _) fun t => ?_
    refine all_seq ((all_processPendingPayment amount t).mono (fun op hop => ?_) fun _ h => h) fun result =>
      all_seq (all_await trivial) fun _ => ?_
    · cases op <;> first | exact hop.elim | trivial
    · split_ifs
      · exact all_seq (all_await trivial) fun _ => trivial
      · trivial
  · rcases Prog.ends_bind hg with ⟨u, us', vs', rfl, hroll, hthrow⟩ | ⟨e', rfl, hroll⟩
    · cases hthrow
      refine iff_of_false (by simp) fun hall => hall ⟨.rollback, .ok u⟩ ?_
      rw [Prog.ends_perform hroll]
      simp
    · refine iff_of_false (by simp) fun hall => hall ⟨.rollback, .error e'⟩ ?_
      rw [Prog.ends_perform hroll]
      simp

/-- A delivery that ends well asks for the transfer of its message first. -/
theorem delivered_asks {calls : Consume.Calls} {b : Bool} (h : (handlePayment m).Ends calls (.ok b)) :
    ∃ t x rest, m.data.get "transaction_id" = .ok t ∧ calls = ⟨.intentBySms t, x⟩ :: rest := by
  unfold handlePayment at h
  rcases Prog.ends_tryCatch h with ⟨b', -, hx⟩ | ⟨e, us, vs, -, -, hg⟩
  · cases ha : m.data.get "amount" with
    | error e =>
      rw [ha] at hx
      cases hx
    | ok amount =>
      cases ht : m.data.get "transaction_id" with
      | error e =>
        rw [ha, ht] at hx
        cases hx
      | ok t =>
        simp only [ha, ht, Prog.ofExcept_ok, Prog.ret_bind] at hx
        unfold processPendingPayment at hx
        split_ifs at hx
        · cases hx
        · cases hx with
          | call h => exact ⟨t, _, _, rfl, rfl⟩
  · rcases Prog.ends_bind hg with ⟨u, us', vs', -, -, hthrow⟩ | ⟨e', heq, -⟩
    · cases hthrow
    · cases heq

theorem ends_dependenciesHandler {calls : Consume.Calls} {r : Except Exc (Option Bool)}
    (h : (dependenciesHandler m).Ends calls r) : ∃ r', (handlePayment m).Ends calls r' ∧ r = r'.map some := by
  rcases Prog.ends_bind h with ⟨b, us, vs, rfl, hx, hret⟩ | ⟨e, rfl, hx⟩
  · cases hret
    exact ⟨.ok b, by simpa using hx, rfl⟩
  · exact ⟨.error e, hx, rfl⟩

/-- What a thread did since it started a message tells the transfer of the message. -/
theorem finished_same {m m' : Message} {calls : Consume.Calls} {r : Except Exc (Option Bool)} {b : Option Bool}
    (h : Consume.Finished m calls r) (h' : Consume.Finished m' calls (.ok b)) :
    (∃ b', r = .ok b') ∧ m.data.get "transaction_id" = m'.data.get "transaction_id" := by
  obtain ⟨pre, r₀, mid, hcalls, hend⟩ := h
  obtain ⟨pre', r₀', mid', hcalls', hend'⟩ := h'
  obtain ⟨s, hs, rfl⟩ := ends_dependenciesHandler hend
  obtain ⟨s', hs', heq⟩ := ends_dependenciesHandler hend'
  -- the note of the start is the last operation that is not the handler's
  obtain ⟨-, -, rfl⟩ := Splits.last_unique (p := fun c : Σ op : Op, Except Exc op.Ret => Collects c.1)
    (hcalls.symm.trans hcalls') (fun hn => hn) (fun hn => hn) (hs.all (all_handlePayment m))
    (hs'.all (all_handlePayment m'))
  cases s' with
  | error e => cases heq
  | ok b' =>
    obtain ⟨b₁, rfl⟩ := (delivered_iff hs).mpr ((delivered_iff hs').mp ⟨b', rfl⟩)
    obtain ⟨t, x, rest, ht, hfirst⟩ := delivered_asks hs
    obtain ⟨t', x', rest', ht', hfirst'⟩ := delivered_asks hs'
    have hhead := (List.cons.inj (hfirst.symm.trans hfirst')).1
    have htransfer : t = t' := Op.intentBySms.inj (congrArg Sigma.fst hhead)
    exact ⟨⟨some b₁, rfl⟩, by rw [ht, ht', htransfer]⟩

namespace Recorded

/-- The session holds a settlement by the transfer, and nothing else. -/
def Pays (p : Pid) (m : Message) (w : World) : Prop :=
  ∃ t n id o, m.data.get "transaction_id" = .ok t ∧ intParam t = some n ∧
    (w.txn p).writes = [.payIntent id (some n), .payOrder o]

/-- When a worker notes that a handler is done, the transfer of the message that it was run on is
recorded, if it ended without an error. -/
def Lawful (p : Pid) (w : World) (past : List Label) : Op → Prop
  | .note (.handled _ _) => ∀ m b, Consume.Finished m (callsOf p past) (.ok b) → Recorded m w
  | _ => True

def logic : Rely sig Exc Response World Request Tick where
  machine := system
  cond := fun w _ _ _ => Agree w ∧ Consistent w
  inv := top
  start := fun p w _ => Silent p w
  guard := Lawful
  final := fun p r w past => ∃ y, .spawn p y ∈ past ∧
    ∀ m, y = .handlePayment m → (∃ b, r = .ok b) → Recorded m w

abbrev Keeps {β : Type} (p : Pid) (K : Assertion sig Exc World Request Tick) (y : App β)
    (post : Except Exc β → Assertion sig Exc World Request Tick) : Prop := logic.Ensures p K y post

theorem persistent : logic.Persistent fun w _ => Recorded m w := by
  rintro w past x w' - hw ⟨hA, hc⟩ h
  exact h.step hw hA hc

theorem stable_silent : logic.Stable p fun w _ => Silent p w := by
  rintro w past x w' - hw - hp h
  exact h.other hw hp

theorem stable_pays : logic.Stable p fun w _ => Pays p m w := by
  rintro w past x w' - hw - hp ⟨t, n, id, o, ht, hn, hws⟩
  exact ⟨t, n, id, o, ht, hn, by rw [wstep_txn hw hp]; exact hws⟩

/-- An operation that notes no end of a handler. -/
def Unnoted : Op → Prop
  | .note (.handled _ _) => False
  | _ => True

theorem lawful_of_unnoted {op : Op} (h : Unnoted op) : Lawful p w past op := by
  cases op with
  | note n =>
    cases n with
    | handled id ok => exact h.elim
    | _ => trivial
  | _ => trivial

theorem keeps_all {β : Type} {x : App β} {A : Op → Prop} {R : Except Exc β → Prop}
    {K : Assertion sig Exc World Request Tick} (hx : x.All A R) (hA : ∀ op, A op → Unnoted op) :
    Keeps p K x fun _ => top :=
  (Ensures.ofAll hx fun op _ _ h _ => lawful_of_unnoted (hA op h)).mono fun _ _ _ _ => trivial

/-- An operation that flushes nothing. -/
theorem keeps_silent (op : Op) (hop : Unnoted op) (h : ∀ w r, op.flushed w r = []) :
    Keeps p (fun w _ => Silent p w) (await op) fun _ w _ => Silent p w := by
  refine Ensures.perform (fun _ => stable_silent) (fun _ _ _ _ => lawful_of_unnoted hop) ?_
  intro f w past r w' _ hs hx _
  have hw : system.WStep w (.run p f op r) w' := hx
  refine List.eq_nil_iff_forall_not_mem.mpr fun y hy => ?_
  rcases wstep_writes hw hy with hold | ⟨f', op', r', r₀, heq, hnew⟩
  · rw [show (w.txn p).writes = [] from hs] at hold
    exact absurd hold List.not_mem_nil
  · cases heq
    rw [h] at hnew
    exact absurd hnew List.not_mem_nil

/-- What the first query finds is recorded. -/
theorem keeps_intentBySms {t : Json} (ht : m.data.get "transaction_id" = .ok t) :
    Keeps p (fun w _ => Silent p w) (await (.intentBySms t)) (whenOk fun found w _ =>
      (∃ n, intParam t = some n) ∧ Silent p w ∧ ∀ i, found = some i → Recorded m w) := by
  refine Ensures.perform (stable_whenOk fun found => ?_) (fun _ _ _ _ => trivial) ?_
  · rintro w past x w' hI hw ⟨hA, hc⟩ hp ⟨hn, hs, hrec⟩
    exact ⟨hn, hs.other hw hp, fun i hi => (hrec i hi).step hw hA hc⟩
  · intro f w past r w' _ hs hx _
    cases r with
    | error e => trivial
    | ok found =>
      obtain ⟨n, hn, hfound⟩ := intentBySms_param hx
      obtain ⟨-, rfl, -⟩ := Requests.exec_ok hx
      exact ⟨⟨n, hn⟩, hs, fun i hi => ⟨t, n, ht, hn, i, hfound i hi⟩⟩

theorem keeps_flushPaid {t : Json} {n : Id} (ht : m.data.get "transaction_id" = .ok t)
    (hn : intParam t = some n) (i : PaymentIntent) :
    Keeps p (fun w _ => Silent p w) (await (.flushPaid i (some n)))
      (whenOk fun _ w _ => Pays p m w) := by
  refine Ensures.perform (stable_whenOk fun _ => stable_pays) (fun _ _ _ _ => trivial) ?_
  intro f w past r w' _ hs hx _
  cases r with
  | error e => trivial
  | ok u =>
    obtain ⟨-, hrun⟩ := Requests.exec_ok hx
    refine ⟨t, n, i.id, i.orderId, ht, hn, ?_⟩
    rw [(run_effect hrun).writes]
    show (w.txn p).writes ++ _ = _
    rw [show (w.txn p).writes = [] from hs]
    rfl

/-- The search for an intent, and its settlement. -/
theorem keeps_processPendingPayment {amount t : Json} (ht : m.data.get "transaction_id" = .ok t) :
    Keeps p (fun w _ => Silent p w) (processPendingPayment amount t)
      (whenOk fun _ w _ => Recorded m w ∨ Pays p m w) := by
  unfold processPendingPayment
  split_ifs
  · exact fun _ _ _ => trivial
  · refine Ensures.bind (keeps_intentBySms ht) (fun already => ?_) fun _ _ _ _ => trivial
    cases already with
    | some i => exact fun w _ h => Or.inl (h.2.2 i rfl)
    | none =>
      refine Ensures.pure ?_
      rintro ⟨n, hn⟩
      refine Ensures.pre (K := fun w _ => Silent p w) ?_ fun _ _ h => h.1
      rw [intParam_asInt hn]
      refine Ensures.bind (keeps_silent .beginSelect trivial fun _ _ => rfl) (fun _ => ?_) fun _ _ _ _ => trivial
      refine Ensures.bind (keeps_silent (.lockPending amount) trivial fun _ _ => rfl) (fun rows => ?_)
        fun _ _ _ _ => trivial
      refine Ensures.tryCatch (m := whenOk fun _ w _ => Recorded m w ∨ Pays p m w) ?_ (fun _ _ _ h => h)
        fun e _ _ _ => trivial
      match rows with
      | [] => exact fun _ _ _ => trivial
      | _ :: _ :: _ => exact fun _ _ _ => trivial
      | [i] =>
        show Keeps p _ (await (.flushPaid i (some n)) >>= fun _ => pure (i.pay (some n), true)) _
        exact Ensures.bind (keeps_flushPaid ht hn i) (fun _ _ _ h => Or.inr h) fun _ _ _ _ => trivial

/-- The commit of a settlement by the transfer records it. -/
theorem of_commit (h : Pays p m w) (hA : Agree w) : Recorded m (w.commit p) := by
  obtain ⟨t, n, id, o, ht, hn, hws⟩ := h
  obtain ⟨i, hi, rfl, -⟩ := hA.unpaid p id (some n) (by simp [hws])
  refine ⟨t, n, ht, hn, i.pay (some n), ?_, rfl⟩
  show i.pay (some n) ∈ (w.db.commit (w.txn p).writes).intents
  rw [hws]
  exact List.mem_map.mpr ⟨i, hi, if_pos rfl⟩

theorem keeps_commit : Keeps p (fun w _ => Recorded m w ∨ Pays p m w) (await .commit)
    (whenOk fun _ w _ => Silent p w ∧ Recorded m w) := by
  refine Ensures.perform (stable_whenOk fun _ => stable_silent.and persistent.stable)
    (fun _ _ _ _ => trivial) ?_
  rintro f w past r w' - h hx ⟨hA, hc⟩
  cases r with
  | error e => trivial
  | ok u =>
    have hw : system.WStep w (.run p f .commit (.ok u)) w' := hx
    obtain ⟨-, -, rfl⟩ := Requests.exec_ok hx
    refine ⟨by simp [Silent, commit_txn, Txn.empty], ?_⟩
    rcases h with hrec | hpays
    · exact hrec.step hw hA hc
    · exact of_commit hpays hA

theorem keeps_rollback : Keeps p top (await .rollback) fun _ w _ => Silent p w := by
  refine Ensures.perform (fun _ => stable_silent) (fun _ _ _ _ => trivial) ?_
  intro f w past r w' _ _ hx _
  obtain ⟨-, -, rfl⟩ := Requests.exec_rollback hx
  simp [Silent, rollback_txn, Txn.empty]

/-- **A delivery that ends without an error** leaves the transfer recorded; and any delivery leaves the
session with nothing written. -/
theorem keeps_handlePayment : Keeps p (fun w _ => Silent p w) (handlePayment m)
    fun r w past => Silent p w ∧ whenOk (fun _ w _ => Recorded m w) r w past := by
  unfold handlePayment
  refine Ensures.tryCatch (m := whenOk fun _ w _ => Silent p w ∧ Recorded m w) ?_ (fun _ _ _ h => h) ?_
  · cases m.data.get "amount" with
    | error e => exact fun w past h => trivial
    | ok amount =>
      cases ht : m.data.get "transaction_id" with
      | error e => exact fun w past h => trivial
      | ok t =>
        simp only [Prog.ofExcept_ok, Prog.ret_bind]
        refine Ensures.bind (keeps_processPendingPayment ht) (fun result => ?_) fun _ _ _ _ => trivial
        refine Ensures.bind keeps_commit (fun _ => ?_) fun _ _ _ _ => trivial
        split_ifs
        · exact Ensures.bind ((keeps_silent (.smove .pendingOrders .freeAmounts amount.asInt) trivial fun _ _ => rfl).frame persistent) (fun _ _ _ h => h)
            fun _ _ _ _ => trivial
        · exact fun _ _ h => h
  · intro e
    refine Ensures.bind (m := fun _ w _ => Silent p w) ?_ (fun _ _ _ h => ⟨h, trivial⟩) fun _ _ _ h => ⟨h, trivial⟩
    exact keeps_rollback.pre fun _ _ _ => trivial

/-! ## The worker -/

/-- The handler is done with the message; when it ended without an error, the transfer is recorded. -/
def Ended (p : Pid) (m : Message) : Assertion sig Exc World Request Tick := fun w past =>
  Silent p w ∧ ∃ r, Consume.Finished m (callsOf p past) r ∧ ((∃ b, r = .ok b) → Recorded m w)

theorem keeps_dependenciesHandler : Keeps p (fun w _ => Silent p w) (dependenciesHandler m)
    fun r w past => Silent p w ∧ whenOk (fun _ w _ => Recorded m w) r w past :=
  Ensures.bind keeps_handlePayment (fun _ _ _ h => h) fun _ _ _ h => h

theorem keeps_handlerResult : Keeps p
    (fun w past => (∃ calls r₀, callsOf p past = calls ++ [⟨Op.note (.started m.id), r₀⟩]) ∧ Silent p w)
    (handlerResult dependenciesHandler m) fun _ => Ended p m := by
  have hcollects : ∀ op, Collects op → Unnoted op := fun op h => by cases op <;> trivial
  have hrun : Keeps p
      (fun w past => (∃ calls r₀, callsOf p past = calls ++ [⟨Op.note (.started m.id), r₀⟩]) ∧ Silent p w)
      (dependenciesHandler m) fun r w past => Silent p w ∧ Consume.Finished m (callsOf p past) r ∧
        ((∃ b, r = .ok b) → Recorded m w) := by
    have htrace : ∀ calls r₀, Keeps p
        (fun _ past => callsOf p past = calls ++ [⟨Op.note (.started m.id), r₀⟩]) (dependenciesHandler m)
        fun r _ past => Consume.Finished m (callsOf p past) r := by
      intro calls r₀
      refine (Ensures.ends (all_dependenciesHandler m) fun op _ _ h _ =>
        lawful_of_unnoted (hcollects op h)).mono ?_
      rintro r w past ⟨mid, hc, hend⟩
      exact ⟨calls, r₀, mid, by simpa using hc, hend⟩
    refine ((Ensures.exists fun calls => Ensures.exists fun r₀ => htrace calls r₀).both
      keeps_dependenciesHandler).mono ?_
    rintro r w past ⟨hfin, hs, hrec⟩
    refine ⟨hs, hfin, ?_⟩
    rintro ⟨b, rfl⟩
    exact hrec
  unfold handlerResult
  refine Ensures.tryCatch (m := fun _ => Ended p m) ?_ (fun _ _ _ h => h) fun e _ _ h => h
  exact Ensures.bind hrun (fun _ _ _ h => ⟨h.1, _, h.2⟩) fun _ _ _ h => ⟨h.1, _, h.2⟩

theorem keeps_processMessage (workerId : String) :
    Keeps p (fun w _ => Silent p w) ((paymentWorker workerId).processMessage m) fun _ w _ => Silent p w := by
  unfold Worker.processMessage
  refine Ensures.bind (Ensures.all (A := fun _ => False) (fun _ h => h.elim) (all_ofExcept _)) ?_
    fun _ _ _ h => h
  intro _
  have hstarted : Keeps p (fun w _ => Silent p w) (await (.note (.started m.id)))
      fun _ w past => (∃ calls r₀, callsOf p past = calls ++ [⟨Op.note (.started m.id), r₀⟩]) ∧ Silent p w := by
    have hcalls : Keeps p top (await (.note (.started m.id)))
        fun _ _ past => ∃ calls r₀, callsOf p past = calls ++ [⟨Op.note (.started m.id), r₀⟩] := by
      refine Ensures.perform (fun _ => ?_) (fun _ _ _ _ => trivial) fun _ _ past r _ _ _ _ _ =>
        ⟨callsOf p past, r, callsOf_own⟩
      intro w past a w' _ _ _ hp h
      show ∃ calls r₀, callsOf p (past ++ [a]) = _
      rw [callsOf_other hp]
      exact h
    exact (hcalls.both (keeps_silent _ trivial fun _ _ => rfl)).pre fun _ _ h => ⟨trivial, h⟩
  refine Ensures.bind hstarted ?_ fun _ _ _ h => h.2
  intro u
  cases hd : (paymentWorker workerId).getHandler m.data with
  | error e => exact fun _ _ h => h.2
  | ok handler =>
    rw [Prog.ofExcept_ok, Prog.ret_bind]
    cases handler with
    | none => exact fun _ _ h => h.2
    | some handler =>
      obtain rfl := paymentWorker_getHandler hd
      refine Ensures.bind keeps_handlerResult ?_ fun _ _ _ h => h.1
      intro ok
      have hnote : Keeps p (Ended p m) (await (.note (.handled m.id ok))) fun _ w _ => Silent p w := by
        refine Ensures.perform (fun _ => stable_silent) ?_ ?_
        · rintro w past - ⟨-, r, hfin, hrec⟩ m' b hfin'
          obtain ⟨hok, hdata⟩ := finished_same hfin hfin'
          obtain ⟨t, n, ht, hn, hi⟩ := hrec hok
          exact ⟨t, n, hdata ▸ ht, hn, hi⟩
        · rintro f w past r w' - ⟨hs, -⟩ hx -
          obtain rfl : w' = w := by
            cases f with
            | done => exact hx.2
            | failed => exact hx.1
            | lost => exact (by simpa [Op.Loses, Op.OnRedis] using hx.1)
          exact hs
      exact Ensures.bind hnote (fun _ _ _ h => h) fun _ _ _ h => h

theorem keeps_turn (workerId : String) :
    Keeps p (fun w _ => Silent p w) (paymentWorker workerId).turn fun _ w _ => Silent p w := by
  refine ensures_batches (fun op h => keeps_silent op ?_ fun w r => ?_) fun m =>
    ensures_disposed (fun op h => keeps_silent op ?_ fun w r => ?_) (keeps_processMessage workerId)
  all_goals
    cases op <;> first | exact h.elim | trivial

/-! ## All requests -/

theorem keeps_prog (y : Request) : Keeps p (fun w _ => Silent p w) y.prog fun r w _ =>
    ∀ m, y = .handlePayment m → (∃ b, r = .ok b) → Recorded m w := by
  have collects : ∀ op, Collects op → Unnoted op := fun op h => by cases op <;> trivial
  have stocks : ∀ op, Stocks op → Unnoted op := fun op h => by cases op <;> trivial
  cases y with
  | handlePayment m =>
    have hrec : Keeps p (fun w _ => Silent p w) (Request.handlePayment m).prog
        (whenOk fun _ w _ => Recorded m w) :=
      Ensures.bind keeps_handlePayment (fun _ _ _ h => h.2) fun _ _ _ _ => trivial
    refine hrec.mono ?_
    rintro r w past h m' heq ⟨b, rfl⟩
    cases heq
    exact h
  | work workerId => exact (keeps_turn workerId).mono fun _ _ _ _ _ heq => by cases heq
  | createOrder userId amount =>
    exact (keeps_all (all_createOrder userId amount) stocks).mono fun _ _ _ _ _ heq => by cases heq
  | confirmPayment orderId paymentId =>
    exact (keeps_all (all_confirmPayment orderId paymentId) collects).mono fun _ _ _ _ _ heq => by cases heq
  | receiveTransaction s =>
    exact (keeps_all (all_receiveTransaction s) fun op h => by cases op <;> trivial).mono
      fun _ _ _ _ _ heq => by cases heq
  | processOutboxEvent =>
    exact (keeps_all all_processOutboxEvent fun op h => by cases op <;> trivial).mono
      fun _ _ _ _ _ heq => by cases heq
  | replayDlq msgId =>
    exact (keeps_all (all_replayDlqDashboard msgId) fun op h => by cases op <;> trivial).mono
      fun _ _ _ _ _ heq => by cases heq
  | lifespan fuel => exact (keeps_all (all_lifespan fuel) stocks).mono fun _ _ _ _ _ heq => by cases heq

theorem sound : logic.Sound where
  prog p y _ _ _ _ _ := by
    have hspawn : logic.Persistent fun _ past => .spawn p y ∈ past :=
      fun _ _ _ _ _ _ _ h => List.mem_append_left _ h
    exact ((keeps_prog y).frame hspawn).mono fun r w past h => ⟨y, h.2, h.1⟩
  start _ := stable_silent
  begin _ _ _ _ h := h
  spawn _ _ _ _ _ _ := trivial
  run _ _ _ _ _ _ _ _ _ _ _ := trivial
  crash _ _ _ _ _ := trivial
  outer _ _ _ _ _ := trivial

end Recorded

/-! ## Runs -/

/-- A run passes through states in which orders and intents agree. -/
theorem agreed {P : StepCond} {tr : List Label} {c c' : State} (hH : Settle.logic.Holds c)
    (hA : Agree c.world) (hr : Run (StepsIf P) c tr c') :
    Run (StepsIf fun w past x w' => P w past x w' ∧ Agree w ∧ Consistent w) c tr c' := by
  obtain ⟨-, hrun⟩ := hr.along (fun c => Settle.logic.Holds c ∧ Agree c.world) ⟨hH, hA⟩
    fun _ _ _ h hs => h.2.reached (.single hs.1) h.1
  refine hrun.mono ?_
  rintro c x c' ⟨⟨hs, hP⟩, hH, hA⟩
  exact ⟨hs, hP, hA, hH.inv⟩

theorem Recorded.reached {before after : List Label} {c c' : State} (h : Recorded m c.world)
    (hr : Run Steps (.init World.empty) before c) (hr' : Run Steps c after c') : Recorded m c'.world := by
  obtain ⟨hH, hA⟩ := Agree.reached hr (Holds.init Consistent.empty fun _ => rfl) Agree.empty
  have hstart : Settle.logic.Holds c ∧ Agree c.world ∧ Recorded m c.world := ⟨hH, hA, h⟩
  refine (hr'.inv (fun c => Settle.logic.Holds c ∧ Agree c.world ∧ Recorded m c.world) hstart ?_).2.2
  rintro c x c' ⟨hH, hA, h⟩ hs
  obtain ⟨hH', hA'⟩ := hA.reached (.single hs) hH
  exact ⟨hH', hA', h.step hs.wstep.1 hA hH.inv⟩

theorem Recorded.holds {tr : List Label} {c : State} (hr : Run Steps (.init World.empty) tr c) :
    Recorded.logic.Holds c := by
  have hsteps : Run (StepsIf fun _ _ _ _ => True) (.init World.empty) tr c :=
    hr.mono fun _ _ _ hs => ⟨hs, trivial⟩
  have hrun := agreed (Holds.init Consistent.empty fun _ => rfl) Agree.empty hsteps
  refine (Recorded.sound.derive (P := fun _ _ _ => True) (J := fun _ => True)
    (hrun.mono fun _ _ _ h => ⟨h.1, h.2.2, trivial⟩) (Holds.init trivial fun _ => rfl) trivial ?_).1
  exact fun _ _ _ _ _ _ _ _ => trivial

/-- **A delivery that ended without an error** left the transfer recorded. -/
theorem recorded_of_handled {tr : List Label} {c : State} {b : Response}
    (hr : Run Steps (.init World.empty) tr c) (hq : .spawn q (.handlePayment m) ∈ tr)
    (hend : c.thread q = .live (.ret b)) : Recorded m c.world := by
  obtain ⟨y, hy, hrec⟩ := (Recorded.holds hr).final hend
  rw [run_past hr] at hy
  obtain rfl := spawn_unique hr hy hq
  exact hrec m rfl ⟨b, rfl⟩

/-- In a turn of a worker the handler of the message ended without an error, and the turn went on. -/
def HandledInTurn (m : Message) (tr : List Label) : Prop :=
  ∃ q pre f id ok r post b, tr = pre ++ .run q f (.note (.handled id ok)) r :: post ∧
    Consume.Finished m (callsOf q pre) (.ok b)

/-- **A worker that handled the message without an error** left the transfer recorded. -/
theorem recorded_of_turn {tr : List Label} {c : State} (hr : Run Steps (.init World.empty) tr c)
    (h : HandledInTurn m tr) : Recorded m c.world := by
  obtain ⟨q, pre, f, id, ok, r, post, b, rfl, hfin⟩ := h
  obtain ⟨c₁, h₁, h₂⟩ := hr.split
  obtain ⟨c₂, hs, -⟩ := h₂.uncons
  obtain ⟨hH, hA⟩ := Agree.reached h₁ (Holds.init Consistent.empty fun _ => rfl) Agree.empty
  have hg := (Recorded.sound.step hs ⟨hA, hH.inv⟩ (Recorded.holds h₁)).1
  have hlaw : Recorded.Lawful q c₁.world c₁.past (.note (.handled id ok)) := hg.2 q f _ r rfl
  exact (hlaw m b (by rwa [run_past h₁])).reached h₁ h₂

end PaymentRecon
