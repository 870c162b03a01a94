import PaymentRecon.Tables.Commit
import PaymentRecon.Model.System

/-!
# TableStep — what one step can do to the tables

`TableStep p w w'` says all that a step of the session `p` can do to the intents, the SMS
transactions and the sessions, guards included; the invariants of the tables are derived from it and
never from the operations.  `exec_tableStep` is the inversion lemma of the operations.
-/

namespace PaymentRecon

open Interleave Streams

/-- A write to the orders or to the outbox. -/
def Write.Minor : Write → Prop
  | .insIntent _ | .payIntent _ _ | .insSms _ => False
  | _ => True

/-- The other sessions stay, and `p` has the locks and writes given. -/
structure SessionIs (p : Pid) (w w' : World) (locks : List Id) (writes : List Write) : Prop where
  others : ∀ q, q ≠ p → w'.txn q = w.txn q
  locks : (w'.txn p).locks = locks
  writes : (w'.txn p).writes = writes

theorem SessionIs.same {p : Pid} {w w' : World} (h : w'.txn = w.txn) :
    SessionIs p w w' (w.txn p).locks (w.txn p).writes := by
  constructor
  · intro q _; rw [h]
  · rw [h]
  · rw [h]

theorem SessionIs.setTxn {p : Pid} {w w₁ : World} {x : Txn} (h : w₁.txn = w.txn) :
    SessionIs p w (w₁.setTxn p x) x.locks x.writes := by
  constructor
  · intro q hq
    simp [World.setTxn, Function.update_of_ne hq, h]
  · simp [World.setTxn]
  · simp [World.setTxn]

inductive TableStep (p : Pid) (w w' : World) : Prop
  /-- Nothing happens to the intents and the SMS transactions. -/
  | aside (ws : List Write) (intents : w'.db.intents = w.db.intents) (sms : w'.db.sms = w.db.sms)
      (nextIntent : w.db.nextIntent ≤ w'.db.nextIntent) (nextSms : w.db.nextSms ≤ w'.db.nextSms)
      (minor : ∀ x ∈ ws, x.Minor)
      (session : SessionIs p w w' (w.txn p).locks ((w.txn p).writes ++ ws))
  /-- Rows are locked. -/
  | lock (ids : List Id) (free : ∀ id ∈ ids, ¬ w.LockedByOther p id) (db : w'.db = w.db)
      (session : SessionIs p w w' ((w.txn p).locks ++ ids) (w.txn p).writes)
  /-- A PENDING intent is flushed. -/
  | store (o : Order) (i : PaymentIntent) (notBusy : ¬ w.AmountBusy p i.exactAmount)
      (notTaken : ¬ w.AmountTaken p i.exactAmount) (id : i.id = w.db.nextIntent)
      (pending : i.status = .PENDING) (noSms : i.smsTransactionId = none)
      (intents : w'.db.intents = w.db.intents) (sms : w'.db.sms = w.db.sms)
      (nextIntent : w'.db.nextIntent = w.db.nextIntent + 1)
      (nextSms : w'.db.nextSms = w.db.nextSms)
      (session : SessionIs p w w' (w.txn p).locks
        ((w.txn p).writes ++ [.insOrder o, .insIntent i]))
  /-- A settlement is flushed. -/
  | settle (i : PaymentIntent) (t : Option Id) (free : ¬ w.LockedByOther p i.id)
      (notBusy : ∀ n ∈ t, ¬ w.SmsBusy p n) (notTaken : ∀ n ∈ t, ¬ w.SmsTaken p i.id n)
      (known : ∀ n ∈ t, ∃ r ∈ w.db.sms, r.id = n) (db : w'.db = w.db)
      (session : SessionIs p w w' ((w.txn p).locks ++ [i.id])
        ((w.txn p).writes ++ [.payIntent i.id t, .payOrder i.orderId]))
  /-- An SMS transaction is flushed. -/
  | record (r : SMSTransaction) (notBusy : ¬ w.KeyBusy p r.key) (notTaken : ¬ w.KeyTaken p r.key)
      (id : r.id = w.db.nextSms) (intents : w'.db.intents = w.db.intents)
      (sms : w'.db.sms = w.db.sms) (nextIntent : w'.db.nextIntent = w.db.nextIntent)
      (nextSms : w'.db.nextSms = w.db.nextSms + 1)
      (session : SessionIs p w w' (w.txn p).locks ((w.txn p).writes ++ [.insSms r]))
  /-- The session commits. -/
  | commit (db : w'.db = w.db.commit (w.txn p).writes) (session : SessionIs p w w' [] [])
  /-- The session is rolled back. -/
  | rollback (db : w'.db = w.db) (session : SessionIs p w w' [] [])

/-- A step that leaves tables and sessions alone. -/
theorem TableStep.same {p : Pid} {w w' : World} (hdb : w'.db = w.db) (htxn : w'.txn = w.txn) :
    TableStep p w w' := by
  refine .aside [] (by rw [hdb]) (by rw [hdb]) (by rw [hdb]) (by rw [hdb]) (by simp) ?_
  rw [List.append_nil]
  exact SessionIs.same htxn

theorem TableStep.refl (p : Pid) (w : World) : TableStep p w w := .same rfl rfl

/-- Flushing writes that touch neither intents nor SMS transactions. -/
theorem TableStep.minor {p : Pid} {w w₁ : World} {ws : List Write}
    (intents : w₁.db.intents = w.db.intents) (sms : w₁.db.sms = w.db.sms)
    (nextIntent : w.db.nextIntent ≤ w₁.db.nextIntent) (nextSms : w.db.nextSms ≤ w₁.db.nextSms)
    (htxn : w₁.txn = w.txn) (hws : ∀ x ∈ ws, x.Minor) : TableStep p w (w₁.flush p ws) := by
  refine .aside ws intents sms nextIntent nextSms hws ?_
  rw [← htxn]
  exact SessionIs.setTxn htxn

theorem Locks.tableStep {p : Pid} {w w' : World} {sel : PaymentIntent → Bool}
    {r : Except Exc (List PaymentIntent)} (h : w.Locks p sel r w') : TableStep p w w' := by
  obtain ⟨hfree, -, rfl⟩ := h
  refine .lock ((w.selected p sel).map (·.id)) ?_ rfl (SessionIs.setTxn rfl)
  intro id hid
  obtain ⟨i, hi, rfl⟩ := List.mem_map.mp hid
  exact hfree i hi

/-- **Inversion** of the operations, for the tables. -/
theorem run_tableStep {p : Pid} {op : Op} {w w' : World} {r : Except Exc op.Ret}
    (h : op.run p w r w') : TableStep p w w' := by
  cases op with
  | spop k =>
    rcases h with ⟨a, -, -, rfl⟩ | ⟨-, -, rfl⟩
    · exact .same rfl rfl
    · exact .refl p _
  | insertOrder userId amount a =>
    simp only [Op.run] at h
    split_ifs at h
    · obtain ⟨hb, ⟨-, -, rfl⟩ | ⟨ht, -, rfl⟩⟩ := h
      · refine .aside [] rfl rfl ?_ le_rfl (by simp) ?_
        · exact (Int.lt_succ w.db.nextIntent).le
        · rw [List.append_nil]
          exact SessionIs.same rfl
      · exact .store (w.newOrder userId amount) (w.newIntent amount a) hb ht rfl rfl rfl rfl rfl
          rfl rfl (SessionIs.setTxn rfl)
    · obtain ⟨-, rfl⟩ := h
      exact .refl p _
  | beginSelect =>
    obtain ⟨-, rfl⟩ := h
    refine .aside [] rfl rfl le_rfl le_rfl (by simp) ?_
    rw [List.append_nil]
    exact SessionIs.setTxn rfl
  | lockPending a =>
    simp only [Op.run] at h
    split at h
    · obtain ⟨-, rfl⟩ := h
      exact .refl p _
    · split at h
      · exact Locks.tableStep h
      · obtain ⟨-, rfl⟩ := h
        exact .refl p _
  | lockById paymentId orderId =>
    simp only [Op.run] at h
    split_ifs at h
    · exact Locks.tableStep h
    · obtain ⟨-, rfl⟩ := h
      exact .refl p _
  | flushPaid i sms =>
    obtain ⟨hfree, hbusy, ⟨-, -, rfl⟩ | ⟨hok, -, rfl⟩⟩ := h
    · exact .refl p _
    · refine .settle i sms hfree hbusy (fun t ht => (hok t ht).1) (fun t ht => (hok t ht).2) rfl ?_
      constructor
      · intro q hq
        simp [World.flush, World.lock, World.setTxn, Function.update_of_ne hq]
      · simp [World.flush, World.lock, World.setTxn]
      · simp [World.flush, World.lock, World.setTxn]
  | insertSms amount inventory date time payload =>
    simp only [Op.run] at h
    split_ifs at h
    · obtain ⟨hb, ⟨-, -, rfl⟩ | ⟨ht, -, rfl⟩⟩ := h
      · refine .aside [] rfl rfl le_rfl ?_ (by simp) ?_
        · exact (Int.lt_succ w.db.nextSms).le
        · rw [List.append_nil]
          exact SessionIs.same rfl
      · exact .record (w.newSms amount inventory date time payload) hb ht rfl rfl rfl rfl rfl
          (SessionIs.setTxn rfl)
    · obtain ⟨-, rfl⟩ := h
      exact .refl p _
  | insertEvent data =>
    obtain ⟨-, rfl⟩ := h
    exact .minor rfl rfl le_rfl le_rfl rfl (by simp [Write.Minor])
  | claimEvents t staleLock limit =>
    obtain ⟨sel, -, -, rfl⟩ := h
    refine .aside [] rfl rfl le_rfl le_rfl (by simp) ?_
    rw [List.append_nil]
    exact SessionIs.same rfl
  | publishEvents ids =>
    obtain ⟨-, -, rfl⟩ := h
    exact .minor rfl rfl le_rfl le_rfl rfl (by simp [Write.Minor])
  | failEvents us =>
    obtain ⟨-, -, rfl⟩ := h
    refine .minor rfl rfl le_rfl le_rfl rfl ?_
    intro x hx
    obtain ⟨u, -, rfl⟩ := List.mem_map.mp hx
    trivial
  | commit =>
    obtain ⟨-, rfl⟩ := h
    exact .commit rfl (SessionIs.setTxn rfl)
  | rollback =>
    obtain ⟨-, rfl⟩ := h
    exact .rollback rfl (SessionIs.setTxn rfl)
  | xclaim consumer minIdle id =>
    simp only [Op.run] at h
    split_ifs at h
    · obtain ⟨-, rfl⟩ := h
      exact .same rfl rfl
    · obtain ⟨-, rfl⟩ := h
      exact .refl p _
  | intentBySms t => exact .same (by rw [h.1]) (by rw [h.1])
  | candidate lo hi => exact .same (by rw [h.1]) (by rw [h.1])
  | outOfFuel => exact h.elim
  | _ =>
    obtain ⟨-, rfl⟩ := h
    exact .same rfl rfl

theorem exec_tableStep {f : Fault} {p : Pid} {op : Op} {w w' : World} {r : Except Exc op.Ret}
    (h : exec f p op w r w') : TableStep p w w' := by
  cases f with
  | done => exact run_tableStep h
  | failed =>
    obtain ⟨rfl, -⟩ := h
    exact .refl p _
  | lost =>
    obtain ⟨-, ⟨r₀, hr⟩, -⟩ := h
    exact run_tableStep hr

/-- Every step of the service is a step of some session on the tables. -/
theorem step_tableStep {c c' : State} {a : Label} (h : Steps c a c') :
    ∃ p, TableStep p c.world c'.world := by
  cases h with
  | spawn _ => exact ⟨0, .refl 0 _⟩
  | @run p _ _ _ _ _ _ hx => exact ⟨p, exec_tableStep hx⟩
  | @crash p _ _ _ => exact ⟨p, .rollback rfl (SessionIs.setTxn rfl)⟩
  | @outer x =>
    cases x with
    | tick d => exact ⟨0, .same rfl rfl⟩

end PaymentRecon
