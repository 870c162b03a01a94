import PaymentRecon.Pool.Startup
import PaymentRecon.Settle.Agree
import PaymentRecon.Waits.Orderly

/-!
# Applied — what a payment message does when nobody is in the way

`handle_payment` pays the PENDING intent that holds the amount, unless an intent carries the transfer
already; where there is no such intent it raises `IgnoreAndAckMessage`.  Either way the worker
acknowledges the message.
-/

namespace PaymentRecon

open Interleave Streams

namespace Settle

variable {p : Pid} {w w₁ w₂ w' : World} {m : Message} {t : Id} {a : Amount} {r : SMSTransaction}

/-- No session is open; ids and amounts of the transfers are in the range of their columns. -/
structure Calm (w : World) : Prop where
  bare : ∀ p, Waits.Bare p w
  consistent : Consistent w
  joined : ∀ i ∈ w.db.intents, ∃ o ∈ w.db.orders, o.id = i.orderId
  sms : ∀ r ∈ w.db.sms, 1 ≤ r.id ∧ inInt4 r.id ∧ inInt4 r.smsAmount

/-- An intent carries the transfer. -/
def Used (w : World) (t : Id) : Prop := ∃ i ∈ w.db.intents, i.smsTransactionId = some t

/-- Only the tables of orders and intents and the sets may differ. -/
structure Spares (w w' : World) : Prop where
  clock : w'.clock = w.clock
  main : w'.main = w.main
  group : w'.group = w.group
  sms : w'.db.sms = w.db.sms
  outbox : w'.db.outbox = w.db.outbox

/-- What the transfer `t` of the amount `a` does to the tables and the pool. -/
inductive Applied (t : Id) (a : Amount) (w w' : World) : Prop
  | skipped (intents : w'.db.intents = w.db.intents) (orders : w'.db.orders = w.db.orders)
      (sets : w'.sets = w.sets) (why : a = 0 ∨ Used w t ∨ ∀ i ∈ w.db.intents, ¬ i.Holds a)
  | paid (i : PaymentIntent) (mem : i ∈ w.db.intents) (holds : i.Holds a) (unused : ¬ Used w t)
      (db : w'.db = w.db.commit [.payIntent i.id (some t), .payOrder i.orderId])
      (sets : w'.sets = SetStore.smove w.sets .pendingOrders .freeAmounts a)

/-- A session that closes leaves the others as they are. -/
theorem bare_setTxn {x : Txn} (h : ∀ q, q ≠ p → Waits.Bare q w) (hl : x.locks = []) (hw : x.writes = []) :
    ∀ q, Waits.Bare q (w.setTxn p x) := by
  intro q
  by_cases hq : q = p
  · subst hq
    refine ⟨?_, ?_⟩
    · rw [setTxn_txn, Function.update_self, hl]
    · rw [setTxn_txn, Function.update_self, hw]
  · exact (h q hq).congr (by rw [setTxn_txn, Function.update_of_ne hq])

/-- The payload of the transfer. -/
def Payload (r : SMSTransaction) (d : Json) : Prop :=
  ∃ traceId, d = transactionData r.id traceId r.smsAmount

/-- The rows that the locking SELECT answers: the intent that holds the amount, if there is one. -/
theorem Calm.selected (h : Calm w) (a : Amount) :
    (w.setTxn p { w.txn p with snapshot := w.db.intents.map (·.id) }).selected p (pendingWith a) =
      w.db.intents.filter fun i => i.Holds a := by
  unfold World.selected
  refine List.filter_congr fun i hi => ?_
  obtain ⟨o, ho, hid⟩ := h.joined i hi
  rw [Bool.eq_iff_iff]
  simp only [setTxn_txn, setTxn_db, Function.update_self, decide_eq_true_eq, pendingWith, List.any_eq_true]
  exact ⟨fun hx => hx.2.1, fun hx => ⟨List.mem_map_of_mem hi, hx, o, ho, hid⟩⟩

/-- At most one intent holds the amount. -/
theorem Calm.holders (h : Calm w) (a : Amount) : (w.db.intents.filter fun i => i.Holds a) = [] ∨
    ∃ i ∈ w.db.intents, i.Holds a ∧ (w.db.intents.filter fun i => i.Holds a) = [i] := by
  by_cases hex : ∃ i ∈ w.db.intents, i.Holds a
  · obtain ⟨i, hi, ha⟩ := hex
    refine Or.inr ⟨i, hi, ha, ?_⟩
    rw [← filter_key h.consistent.intents.nodup hi]
    refine List.filter_congr fun j hj => ?_
    rw [Bool.eq_iff_iff, decide_eq_true_eq, decide_eq_true_eq]
    constructor
    · exact fun hj' => h.consistent.intents.holder none none j i a hj hi hj' ha
    · exact fun hid => h.consistent.intent_eq hj hi hid ▸ ha
  · refine Or.inl (List.filter_eq_nil_iff.mpr fun i hi ha => hex ⟨i, hi, by simpa using ha⟩)

/-! ## The handler -/

/-- An operation with one outcome. -/
theorem wp_step {β : Type} {op : Op} {f : op.Ret → App β} {post : Except Exc β → World → Prop} (u : op.Ret)
    (v : World) (hrun : ∀ res w₁, op.run p w res w₁ ↔ res = .ok u ∧ w₁ = v)
    (h : Wp system p (f u) post v) : Wp system p (await op >>= f) post w := Pool.wp_await_bind hrun h

/-- The session began its locking SELECT. -/
def selecting (w : World) (p : Pid) : World :=
  w.setTxn p { w.txn p with snapshot := w.db.intents.map (·.id) }

/-- It has locked the intent and flushed that the transfer pays it. -/
def paying (w : World) (p : Pid) (i : PaymentIntent) (t : Id) : World :=
  (((selecting w p).lock p [i.id]).lock p [i.id]).flush p [.payIntent i.id (some t), .payOrder i.orderId]

/-- The other sessions are as they were. -/
theorem selecting_txn (q : Pid) (hq : q ≠ p) : (selecting w p).txn q = w.txn q := by
  rw [selecting, setTxn_txn, Function.update_of_ne hq]

theorem paying_txn {i : PaymentIntent} {q : Pid} (hq : q ≠ p) : (paying w p i t).txn q = w.txn q := by
  rw [paying, flush_others _ _ hq, lock_others _ _ hq, lock_others _ _ hq, selecting_txn q hq]

/-- What `process_pending_payment` answers for a transfer, and what its session holds then. -/
inductive Found (p : Pid) (t : Id) (a : Amount) (w : World) :
    Except Exc (PaymentIntent × Bool) → World → Prop
  | known (i : PaymentIntent) (used : Used w t) : Found p t a w (.ok (i, false)) w
  | new (i : PaymentIntent) (mem : i ∈ w.db.intents) (holds : i.Holds a) (unused : ¬ Used w t) :
      Found p t a w (.ok (i.pay (some t), true)) (paying w p i t)
  | missing (e : Exc) (kind : e.kind = .paymentIntentNotFoundError)
      (none : ∀ i ∈ w.db.intents, ¬ i.Holds a) :
      Found p t a w (.error e) ((selecting w p).lock p [])

theorem intParam_int {n : ℤ} (h : inInt4 n) : intParam (.int n) = some n := if_pos h

/-- The payment is flushed when nobody holds the row and no intent carries the transfer. -/
theorem run_flushPaid {i : PaymentIntent} {res : Except Exc Unit} (hothers : ∀ q, q ≠ p → Waits.Bare q w)
    (hown : (w.txn p).writes = []) (hunused : ¬ Used w t) (hknown : ∃ x ∈ w.db.sms, x.id = t) :
    (Op.flushPaid i (some t)).run p w res w' ↔
      res = .ok () ∧ w' = (w.lock p [i.id]).flush p [.payIntent i.id (some t), .payOrder i.orderId] := by
  have hlock : ¬ w.LockedByOther p i.id := by
    rintro ⟨q, hq, hl⟩
    rw [(hothers q hq).locks] at hl
    exact List.not_mem_nil hl
  have hbusy : ¬ w.SmsBusy p t := by
    rintro ⟨q, id, hq, hx⟩
    rw [(hothers q hq).writes] at hx
    exact List.not_mem_nil hx
  have htaken : ¬ w.SmsTaken p i.id t := by
    rintro (⟨j, hj, -, hs⟩ | ⟨id, -, hx⟩)
    · exact hunused ⟨j, hj, hs⟩
    · rw [hown] at hx
      exact List.not_mem_nil hx
  have hmissing : ¬ ∀ x ∈ w.db.sms, x.id ≠ t := fun hno => by
    obtain ⟨x, hx, hid⟩ := hknown
    exact hno x hx hid
  simp only [Op.run, Option.mem_def, Option.some.injEq, forall_eq', exists_eq_left']
  constructor
  · rintro ⟨-, -, ⟨htaken' | hmissing', -, -⟩ | ⟨-, hres, hw'⟩⟩
    · exact absurd htaken' htaken
    · exact absurd hmissing' hmissing
    · exact ⟨hres, hw'⟩
  · rintro ⟨hres, hw'⟩
    exact ⟨hlock, hbusy, Or.inr ⟨⟨htaken, hknown⟩, hres, hw'⟩⟩

theorem wp_processPendingPayment (h : Calm w) (hr : r ∈ w.db.sms) :
    Wp system p (processPendingPayment (.int r.smsAmount) (.int r.id)) (Found p r.id r.smsAmount w) w := by
  obtain ⟨hpos, hid, hamount⟩ := h.sms r hr
  have htruthy : ¬ (Json.int r.id).truthy = false := by
    have hne : r.id ≠ 0 := (lt_of_lt_of_le one_pos hpos).ne'
    simpa [Json.truthy] using hne
  unfold processPendingPayment
  rw [if_neg htruthy]
  refine wp_step (w.db.intents.find? fun i => i.smsTransactionId = some r.id) w (fun res w₁ => ?_) ?_
  · simp only [Op.run, intParam_int hid]
    exact and_comm
  cases hfind : w.db.intents.find? fun i => i.smsTransactionId = some r.id with
  | some i =>
    exact .known i ⟨i, List.mem_of_find?_eq_some hfind, by simpa using List.find?_some hfind⟩
  | none =>
    have hunused : ¬ Used w r.id := by
      rintro ⟨i, hi, hs⟩
      exact absurd hs (by simpa using List.find?_eq_none.mp hfind i hi)
    refine wp_step () (selecting w p) (fun _ _ => Iff.rfl) ?_
    have hlocks : ∀ id, ¬ (selecting w p).LockedByOther p id := by
      rintro id ⟨q, hq, hl⟩
      rw [selecting_txn q hq, (h.bare q).locks] at hl
      exact List.not_mem_nil hl
    have hsel := h.selected (p := p) r.smsAmount
    refine wp_step (w.db.intents.filter fun i => i.Holds r.smsAmount)
      ((selecting w p).lock p ((w.db.intents.filter fun i => i.Holds r.smsAmount).map (·.id)))
      (fun res w₁ => ?_) ?_
    · simp only [Op.run, intParam_int hamount, World.Locks]
      rw [← hsel]
      exact and_iff_right fun i _ => hlocks i.id
    rcases h.holders r.smsAmount with hnil | ⟨i, hi, hholds, hone⟩
    · rw [hnil]
      refine Found.missing _ rfl fun i hi ha => ?_
      exact absurd (List.mem_filter.mpr ⟨hi, decide_eq_true ha⟩) (hnil ▸ List.not_mem_nil)
    · rw [hone]
      have hothers : ∀ q, q ≠ p → Waits.Bare q ((selecting w p).lock p [i.id]) := fun q hq => by
        refine (h.bare q).congr ?_
        rw [lock_others _ _ hq, selecting_txn q hq]
      have hown : (((selecting w p).lock p [i.id]).txn p).writes = [] := by
        rw [lock_writes, selecting, setTxn_txn, Function.update_self]
        exact (h.bare p).writes
      refine Wp.tryCatch (m := fun res w₁ => res = .ok (i.pay (some r.id), true) ∧ w₁ = paying w p i r.id)
        ?_ ?_ ?_
      · show Wp system p (await (.flushPaid i (some r.id)) >>= fun _ => pure (i.pay (some r.id), true)) _ _
        exact wp_step () (paying w p i r.id) (fun _ _ => run_flushPaid hothers hown hunused ⟨r, hr, rfl⟩)
          ⟨rfl, rfl⟩
      · intro x w₁ hpaid
        rw [hpaid.1, hpaid.2]
        exact .new i hi hholds hunused
      · intro e w₁ hpaid
        exact absurd hpaid.1 (by simp)

/-- The commit writes what was flushed. -/
theorem commit_paying (h : (w.txn p).writes = []) {i : PaymentIntent} : ((paying w p i t).commit p).db =
    w.db.commit [.payIntent i.id (some t), .payOrder i.orderId] := by
  rw [World.commit_eq, setTxn_db, paying, flush_writes, if_pos rfl, lock_writes, lock_writes, selecting,
    setTxn_txn, Function.update_self, h]
  rfl

/-- The payment is committed, and the amount released. -/
theorem Calm.committed (h : Calm w) {i : PaymentIntent} (hi : i ∈ w.db.intents) (ha : i.Holds a)
    (hunused : ¬ Used w t) {v : World} (hv : v = (paying w p i t).commit p) :
    Applied t a w { v with sets := SetStore.smove v.sets .pendingOrders .freeAmounts a } ∧
      Spares w { v with sets := SetStore.smove v.sets .pendingOrders .freeAmounts a } ∧
      ∀ q, Waits.Bare q { v with sets := SetStore.smove v.sets .pendingOrders .freeAmounts a } := by
  have hdb : v.db = w.db.commit [.payIntent i.id (some t), .payOrder i.orderId] :=
    hv ▸ commit_paying (h.bare p).writes
  have hsets : v.sets = w.sets := by
    rw [hv, commit_sets]
    rfl
  have hmain : v.main = w.main := by
    rw [hv, commit_main]
    rfl
  have hgroup : v.group = w.group := by
    rw [hv, commit_group]
    rfl
  have hclock : v.clock = w.clock := by
    rw [hv, World.commit_eq]
    rfl
  refine ⟨.paid i hi ha hunused hdb ?_, ⟨hclock, hmain, hgroup, ?_, ?_⟩, ?_⟩
  · show SetStore.smove v.sets _ _ _ = _
    rw [hsets]
  · show v.db.sms = _
    rw [hdb]
    rfl
  · show v.db.outbox = _
    rw [hdb]
    rfl
  · intro q
    by_cases hq : q = p
    · subst hq
      refine Waits.Bare.over (w := w) ⟨fun q' hq' => ?_, ?_, ?_⟩
      · show v.txn q' = w.txn q'
        rw [hv, commit_txn, if_neg hq', paying_txn hq']
      · show (v.txn q).locks = []
        rw [hv, commit_txn, if_pos rfl]
        rfl
      · show (v.txn q).writes = []
        rw [hv, commit_txn, if_pos rfl]
        rfl
    · refine (h.bare q).congr ?_
      show v.txn q = w.txn q
      rw [hv, commit_txn, if_neg hq, paying_txn hq]

/-- What the handler answers. -/
def Finished (res : Except Exc Bool) : Prop :=
  res = .ok true ∨ ∃ e, res = .error e ∧ e.kind = .ignoreAndAckMessage

/-- **The handler**: the message is applied, and the session is closed. -/
theorem wp_handlePayment (h : Calm w) (hr : r ∈ w.db.sms) (hm : Payload r m.data) :
    Wp system p (handlePayment m) (fun res w' => Finished res ∧ Applied r.id r.smsAmount w w' ∧
      Spares w w' ∧ ∀ q, Waits.Bare q w') w := by
  obtain ⟨traceId, hd⟩ := hm
  unfold handlePayment
  rw [hd, transactionData_get_amount, transactionData_get_transactionId]
  refine Wp.tryCatch (m := fun res w' => (res = .ok true ∧ Applied r.id r.smsAmount w w' ∧
    Spares w w' ∧ ∀ q, Waits.Bare q w') ∨ (∃ e, res = .error e ∧ e.kind = .paymentIntentNotFoundError) ∧
      (∀ i ∈ w.db.intents, ¬ i.Holds r.smsAmount) ∧ w' = (selecting w p).lock p []) ?_ ?_ ?_
  · show Wp system p (processPendingPayment (.int r.smsAmount) (.int r.id) >>= _) _ _
    refine (wp_processPendingPayment h hr).bind ?_ ?_
    · rintro ⟨i, new⟩ w₁ hfound
      cases hfound with
      | known _ used =>
        refine wp_step () (w.commit p) (fun _ _ => Iff.rfl) ?_
        have hsame : w.commit p = w.setTxn p Txn.empty := by
          rw [World.commit_eq, (h.bare p).writes]
          rfl
        rw [hsame]
        exact Or.inl ⟨rfl, .skipped rfl rfl rfl (Or.inr (Or.inl used)), ⟨rfl, rfl, rfl, rfl, rfl⟩,
          bare_setTxn (fun q _ => h.bare q) rfl rfl⟩
      | new i hi holds unused =>
        refine wp_step () ((paying w p i r.id).commit p) (fun _ _ => Iff.rfl) ?_
        refine wp_step () _ (fun _ _ => Iff.rfl) ?_
        exact Or.inl ⟨rfl, h.committed hi holds unused rfl⟩
    · rintro e w₁ hfound
      cases hfound with
      | missing _ kind none => exact Or.inr ⟨⟨e, rfl, kind⟩, none, rfl⟩
  · rintro b w₁ (⟨hb, happ, hsp, hbare⟩ | ⟨⟨e, he, -⟩, -⟩)
    · exact ⟨Or.inl hb, happ, hsp, hbare⟩
    · cases he
  · rintro e w₁ (⟨hb, -⟩ | ⟨⟨e', he, hkind⟩, hnone, rfl⟩)
    · cases hb
    · obtain rfl := Except.error.inj he
      refine wp_step () (((selecting w p).lock p []).rollback p) (fun _ _ => Iff.rfl) ?_
      refine ⟨Or.inr ⟨_, rfl, ?_⟩, .skipped rfl rfl rfl (Or.inr (Or.inr hnone)),
        ⟨rfl, rfl, rfl, rfl, rfl⟩, ?_⟩
      · unfold handlerError
        rw [hkind]
      · refine bare_setTxn (fun q hq => (h.bare q).congr ?_) rfl rfl
        rw [lock_others _ _ hq, selecting_txn q hq]

/-! ## One message -/

/-- What the worker did with the message of a transfer. -/
structure Handled (m : Message) (r : SMSTransaction) (w w' : World) : Prop where
  applied : Applied r.id r.smsAmount w w'
  clock : w'.clock = w.clock
  main : w'.main = w.main
  group : w'.group = w.group.xack m.id
  sms : w'.db.sms = w.db.sms
  outbox : w'.db.outbox = w.db.outbox
  bare : ∀ q, Waits.Bare q w'

theorem wp_handlerResult (h : Calm w) (hr : r ∈ w.db.sms) (hm : Payload r m.data) :
    Wp system p (handlerResult dependenciesHandler m) (fun res w' => res = .ok true ∧
      Applied r.id r.smsAmount w w' ∧ Spares w w' ∧ ∀ q, Waits.Bare q w') w := by
  unfold handlerResult
  refine Wp.tryCatch (m := fun res w' => (res = .ok true ∨ ∃ e, res = .error e ∧
    e.kind = .ignoreAndAckMessage) ∧ Applied r.id r.smsAmount w w' ∧ Spares w w' ∧
      ∀ q, Waits.Bare q w') ?_ ?_ ?_
  · show Wp system p (dependenciesHandler m >>= fun result => pure (result.getD true)) _ w
    refine Wp.bind (m := fun res w' => (res = .ok (some true) ∨ ∃ e, res = .error e ∧
      e.kind = .ignoreAndAckMessage) ∧ Applied r.id r.smsAmount w w' ∧ Spares w w' ∧
        ∀ q, Waits.Bare q w') ?_ ?_ ?_
    · show Wp system p (handlePayment m >>= fun result => pure (some result)) _ w
      refine (wp_handlePayment h hr hm).bind ?_ ?_
      · rintro b w₁ ⟨hb | ⟨e, he, -⟩, hrest⟩
        · obtain rfl := Except.ok.inj hb
          exact ⟨Or.inl rfl, hrest⟩
        · cases he
      · rintro e w₁ ⟨hb | ⟨e', he, hkind⟩, hrest⟩
        · cases hb
        · obtain rfl := Except.error.inj he
          exact ⟨Or.inr ⟨e, rfl, hkind⟩, hrest⟩
    · rintro b w₁ ⟨hb | ⟨e, he, -⟩, hrest⟩
      · obtain rfl := Except.ok.inj hb
        exact ⟨Or.inl rfl, hrest⟩
      · cases he
    · rintro e w₁ ⟨hb | ⟨e', he, hkind⟩, hrest⟩
      · cases hb
      · obtain rfl := Except.error.inj he
        exact ⟨Or.inr ⟨e, rfl, hkind⟩, hrest⟩
  · rintro b w₁ ⟨hb | ⟨e, he, -⟩, hrest⟩
    · exact ⟨hb, hrest⟩
    · cases he
  · rintro e w₁ ⟨hb | ⟨e', he, hkind⟩, hrest⟩
    · cases hb
    · obtain rfl := Except.error.inj he
      exact ⟨congrArg Except.ok (decide_eq_true hkind), hrest⟩

/-- A message without an amount goes to the dead-letter stream. -/
theorem wp_moveToDeadLetter :
    Wp system p (moveToDeadLetter m) (fun res w' => res = .ok () ∧ ∃ s, w' = { w with dead := s }) w := by
  refine wp_step _ w (fun _ _ => Iff.rfl) ?_
  exact wp_step _ _ (fun _ _ => Iff.rfl) ⟨rfl, _, rfl⟩

theorem wp_processMessage (id : String) (h : Calm w) (hr : r ∈ w.db.sms) (hm : Payload r m.data) :
    Wp system p ((paymentWorker id).processMessage m) (fun res w' => res = .ok true ∧
      Applied r.id r.smsAmount w w' ∧ Spares w w' ∧ ∀ q, Waits.Bare q w') w := by
  obtain ⟨x, htrace⟩ : ∃ x, m.data.get "trace_id" = .ok x := by
    obtain ⟨traceId, hd⟩ := hm
    exact ⟨.str traceId, by rw [hd]; rfl⟩
  have hhandler : (paymentWorker id).getHandler m.data = .ok (some dependenciesHandler) := by
    obtain ⟨traceId, hd⟩ := hm
    rw [hd]
    rfl
  unfold Worker.processMessage
  rw [htrace, Prog.ofExcept_ok, Prog.ret_bind]
  refine wp_step () w (fun _ _ => Iff.rfl) ?_
  rw [hhandler, Prog.ofExcept_ok, Prog.ret_bind]
  refine (wp_handlerResult h hr hm).bind ?_ fun e w₁ he => absurd he.1 (by simp)
  rintro ok w₁ ⟨hok, hrest⟩
  obtain rfl := Except.ok.inj hok
  exact wp_step () w₁ (fun _ _ => Iff.rfl) ⟨rfl, hrest⟩

/-- **One message** is applied and acknowledged. -/
theorem wp_processOne (id : String) (h : Calm w) (hr : r ∈ w.db.sms) (hm : Payload r m.data) :
    Wp system p ((paymentWorker id).processOne m) (fun res w' => res = .ok () ∧ Handled m r w w') w := by
  have hack : ∀ v, Applied r.id r.smsAmount w v → Spares w v → (∀ q, Waits.Bare q v) →
      Wp system p (acknowledge m.id) (fun res w' => res = .ok () ∧ Handled m r w w') v := by
    intro v happ hsp hbare
    refine wp_step _ { v with group := v.group.xack m.id } (fun _ _ => Iff.rfl) ?_
    refine ⟨rfl, ?_, hsp.clock, hsp.main, ?_, hsp.sms, hsp.outbox, fun q => (hbare q).congr rfl⟩
    · cases happ with
      | skipped intents orders sets why => exact .skipped intents orders sets why
      | paid i hi holds unused db sets => exact .paid i hi holds unused db sets
    · show v.group.xack m.id = _
      rw [hsp.group]
  have hamount : m.data.get "amount" = .ok (.int r.smsAmount) := by
    obtain ⟨traceId, hd⟩ := hm
    rw [hd]
    rfl
  unfold Worker.processOne
  rw [hamount, Prog.ofExcept_ok, Prog.ret_bind]
  split_ifs with hzero
  · have hzero : r.smsAmount = 0 := by simpa [Json.truthy] using hzero
    refine wp_moveToDeadLetter.bind ?_ fun e w₁ he => absurd he.1 (by simp)
    rintro _ w₁ ⟨-, s, rfl⟩
    exact hack _ (.skipped rfl rfl rfl (Or.inl hzero)) ⟨rfl, rfl, rfl, rfl, rfl⟩ fun q => (h.bare q).congr rfl
  · refine (wp_processMessage id h hr hm).bind ?_ fun e w₁ he => absurd he.1 (by simp)
    rintro ok w₁ ⟨hok, happ, hsp, hbare⟩
    obtain rfl := Except.ok.inj hok
    exact hack w₁ happ hsp hbare

end Settle

end PaymentRecon
