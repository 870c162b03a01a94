import PaymentRecon.Tables.Consistent
import PaymentRecon.Tables.Effects

/-!
# Play — executions given as scripts

A `Move` says which thread goes on and how its operation fares; `play` computes the configuration
that a list of moves leads to.  The Redis sets are left out of the computation: it records the
commands on them (`SetCmd`), and `play_run` turns the script into a run from every store of sets that
gives the recorded answers.  `n` bounds the threads that take part.
-/

namespace PaymentRecon

open Interleave Streams SetStore

variable {n : ℕ} {p q : Pid} {w w' : World} {s : Sets SetKey Amount}

/-! ## Commands on the sets -/

/-- A command on the sets, with its answer. -/
inductive SetCmd
  | spop (k : SetKey) (a : Option Amount)
  | smove (src dst : SetKey) (a : Amount)
  | sadd (k : SetKey) (as : List Amount)
  | exists (k : SetKey) (b : Bool)
  | del (k : SetKey)
  | sdiffstore (dst a b : SetKey)
  deriving DecidableEq

/-- The sets give this answer. -/
def SetCmd.Answers (s : Sets SetKey Amount) : SetCmd → Prop
  | .spop k (some a) => a ∈ s k
  | .spop k none => s k = ∅
  | .exists k b => b = decide (s k ≠ ∅)
  | _ => True

def SetCmd.after (s : Sets SetKey Amount) : SetCmd → Sets SetKey Amount
  | .spop k (some a) => SetStore.spop s k a
  | .smove src dst a => SetStore.smove s src dst a
  | .sadd k as => SetStore.sadd s k as
  | .del k => SetStore.del s k
  | .sdiffstore dst a b => SetStore.sdiffstore s dst a b
  | _ => s

/-- The sets give all these answers, one after the other. -/
def Answer (s : Sets SetKey Amount) : List SetCmd → Prop
  | [] => True
  | x :: xs => x.Answers s ∧ Answer (x.after s) xs

instance (x : SetCmd) (s : Sets SetKey Amount) : Decidable (x.Answers s) :=
  match x with
  | .spop k (some a) => inferInstanceAs (Decidable (a ∈ s k))
  | .spop k none => inferInstanceAs (Decidable (s k = ∅))
  | .exists k b => inferInstanceAs (Decidable (b = decide (s k ≠ ∅)))
  | .smove _ _ _ | .sadd _ _ | .del _ | .sdiffstore _ _ _ => inferInstanceAs (Decidable True)

instance decidableAnswer : (s : Sets SetKey Amount) → (xs : List SetCmd) → Decidable (Answer s xs)
  | _, [] => inferInstanceAs (Decidable True)
  | s, x :: xs =>
    have := decidableAnswer (x.after s) xs
    inferInstanceAs (Decidable (_ ∧ _))

theorem answer_append {xs ys : List SetCmd} :
    Answer s (xs ++ ys) ↔ Answer s xs ∧ Answer (xs.foldl SetCmd.after s) ys := by
  induction xs generalizing s with
  | nil => simp [Answer]
  | cons x xs ih => simp [Answer, ih, and_assoc]

/-! ## Operations -/

/-- The threads from `n` on have no session. -/
def Unopened (n : ℕ) (w : World) : Prop := ∀ q, n ≤ q → w.txn q = Txn.empty

/-- Every other session among the first `n` meets `f`. -/
def World.others (n : ℕ) (p : Pid) (w : World) (f : Txn → Bool) : Bool :=
  (List.range n).all fun q => q = p || f (w.txn q)

theorem others_all {f : Txn → Bool} (h : w.others n p f = true) (hn : Unopened n w)
    (hf : f Txn.empty = true) : ∀ q, q ≠ p → f (w.txn q) = true := by
  intro q hq
  by_cases hlt : q < n
  · have := List.all_eq_true.mp h q (List.mem_range.mpr hlt)
    simpa [hq] using this
  · rw [hn q (Nat.le_of_not_lt hlt)]
    exact hf

/-- The session does not hold up the insertion of a PENDING intent with amount `a`. -/
def Txn.leavesAmount (db : Db) (a : Amount) (x : Txn) : Bool :=
  x.writes.all fun y => match y with
    | .insIntent i => ¬ i.Holds a
    | .payIntent id _ => db.intents.all fun i => ¬ (i.id = id ∧ i.Holds a)
    | _ => true

/-- It does not settle by the SMS transaction `t`. -/
def Txn.leavesSms (t : Id) (x : Txn) : Bool :=
  x.writes.all fun y => match y with
    | .payIntent _ (some t') => t' ≠ t
    | _ => true

/-- It inserts no SMS transaction with the key `k`. -/
def Txn.leavesKey (k : ℤ × ℤ × String × String) (x : Txn) : Bool :=
  x.writes.all fun y => match y with
    | .insSms r => r.key ≠ k
    | _ => true

/-- It does not update the event. -/
def Txn.leavesEvent (id : Id) (x : Txn) : Bool :=
  x.writes.all fun y => match y with
    | .publish ids => id ∉ ids
    | .eventError u => u.id ≠ id
    | _ => true

/-- The amount has no PENDING intent, committed or flushed by `p`. -/
def World.offers (w : World) (p : Pid) (a : Amount) : Bool :=
  (w.db.intents.all fun i => ¬ i.Holds a) && (w.txn p).writes.all fun y => match y with
    | .insIntent i => ¬ i.Holds a
    | _ => true

/-- No SMS transaction has this key yet. -/
def World.newKey (w : World) (p : Pid) (k : ℤ × ℤ × String × String) : Bool :=
  (w.db.sms.all fun r => r.key ≠ k) && (w.txn p).writes.all fun y => match y with
    | .insSms r => r.key ≠ k
    | _ => true

/-- The SMS transaction exists and may settle the intent. -/
def World.settles (w : World) (p : Pid) (id t : Id) : Bool :=
  (w.db.intents.all fun i => i.id = id ∨ i.smsTransactionId ≠ some t) &&
    ((w.txn p).writes.all fun y => match y with
      | .payIntent id' (some t') => id' = id ∨ t' ≠ t
      | _ => true) && w.db.sms.any fun r => r.id = t

/-- The answer to an operation, the world it leaves and the commands on the sets; `none` when it has
to wait, or when `play` does not cover the case.  `pick` is the member that `SPOP` and the search for
a candidate answer, and tells whether `EXISTS` finds something. -/
def Op.attempt (n : ℕ) (p : Pid) (pick : Option Amount) (w : World) :
    (op : Op) → Option (Except Exc op.Ret × World × List SetCmd)
  | .spop k => some (.ok pick, w, [.spop k pick])
  | .smove src dst m => some (.ok (), w, [.smove src dst m])
  | .sadd k ms => some (.ok (), w, [.sadd k ms])
  | .exists k => some (.ok pick.isSome, w, [.exists k pick.isSome])
  | .del k => some (.ok (), w, [.del k])
  | .sdiffstore dst a b => some (.ok (), w, [.sdiffstore dst a b])
  | .xadd f => some (.ok (nextId w.main.last w.clock), { w with main := w.main.xadd w.clock f }, [])
  | .xaddDead f =>
    some (.ok (nextId w.dead.last w.clock), { w with dead := w.dead.xadd w.clock f }, [])
  | .xreadgroup consumer count =>
    some (.ok (w.group.unread w.main count),
      { w with group := w.group.deliver consumer w.clock (w.group.unread w.main count) }, [])
  | .xpending count =>
    some (.ok ((w.group.pel.take count).map fun x => (x.id, w.clock - x.deliveredAt,
      x.timesDelivered)), w, [])
  | .xclaim consumer minIdle id =>
    if w.group.claimable w.clock minIdle id then
      some (.ok (w.main.xrange id id), { w with group := w.group.claim consumer w.clock id }, [])
    else some (.ok [], w, [])
  | .xack id =>
    some (.ok (w.group.pel.filter fun x => x.id = id).length, { w with group := w.group.xack id }, [])
  | .xrangeDead x => some (.ok (w.dead.xrange x.lo x.hi), w, [])
  | .moveDead f x =>
    some (.ok (nextId w.main.last w.clock),
      { w with main := w.main.xadd w.clock f, dead := w.dead.xdel x.lo }, [])
  | .candidate lo hi =>
    match pick with
    | some c =>
      if (inInt4 lo ∧ inInt4 hi) ∧ (lo ≤ c ∧ c ≤ hi) ∧ (w.db.intents.all fun i => ¬ i.Holds c) then
        some (.ok (some c), w, [])
      else none
    | none => none
  | .insertOrder userId amount a =>
    if (inInt4 amount ∧ inInt4 a) ∧ w.others n p (Txn.leavesAmount w.db a) ∧ w.offers p a then
      some (.ok (w.newOrder userId amount), w.tickOrder.flush p
        [.insOrder (w.newOrder userId amount), .insIntent (w.newIntent amount a)], [])
    else none
  | .refreshOrder _ => some (.ok (), w, [])
  | .pendingPage cursor limit =>
    let rows := w.db.intents.filter fun i => i.status = .PENDING ∧ cursor < i.id
    if rows.length ≤ 1 then some (.ok (rows.take limit), w, []) else none
  | .intentBySms t =>
    match intParam t with
    | some n => some (.ok (w.db.intents.find? fun i => i.smsTransactionId = some n), w, [])
    | none => some (.error DataError, w, [])
  | .beginSelect =>
    some (.ok (), w.setTxn p { w.txn p with snapshot := w.db.intents.map (·.id) }, [])
  | .lockPending a =>
    match a with
    | .null => some (.ok [], w, [])
    | a => match intParam a with
      | some m =>
        let ids := (w.selected p (pendingWith m)).map (·.id)
        if w.others n p fun x => ids.all fun id => id ∉ x.locks then
          some (.ok (w.selected p (pendingWith m)), w.lock p ids, [])
        else none
      | none => some (.error DataError, w, [])
  | .lockById paymentId orderId =>
    let ids := (w.selected p (confirmable paymentId orderId)).map (·.id)
    if (inInt4 paymentId ∧ inInt4 orderId) ∧ w.others n p fun x => ids.all fun id => id ∉ x.locks then
      some (.ok (w.selected p (confirmable paymentId orderId)), w.lock p ids, [])
    else none
  | .flushPaid i sms =>
    if (w.others n p fun x => i.id ∉ x.locks) ∧
        sms.all fun t => w.others n p (Txn.leavesSms t) && w.settles p i.id t then
      some (.ok (), (w.lock p [i.id]).flush p [.payIntent i.id sms, .payOrder i.orderId], [])
    else none
  | .insertSms amount inventory date time payload =>
    if (inInt4 amount ∧ inInt4 inventory ∧ date.length ≤ 10 ∧ time.length ≤ 5) ∧
        w.others n p (Txn.leavesKey (amount, inventory, date, time)) then
      if w.newKey p (amount, inventory, date, time) then
        some (.ok (w.newSms amount inventory date time payload),
          w.tickSms.flush p [.insSms (w.newSms amount inventory date time payload)], [])
      else some (.error IntegrityError, w.tickSms, [])
    else none
  | .insertEvent data =>
    some (.ok (w.newEvent data), w.tickEvent.flush p [.insEvent (w.newEvent data)], [])
  | .claimEvents t staleLock limit =>
    let sel := w.db.outbox.filter fun e => e.Claimable staleLock ∧ w.others n p (Txn.leavesEvent e.id)
    if (sel.map (·.id)).Nodup ∧ sel.length ≤ limit then
      some (.ok (sel.map (·.claimed)), { w with db := w.db.claim (sel.map (·.id)) t }, [])
    else none
  | .publishEvents ids =>
    if ids.all fun id => w.others n p (Txn.leavesEvent id) then
      some (.ok (), w.flush p [.publish ids], [])
    else none
  | .failEvents us =>
    if us.all fun u => w.others n p (Txn.leavesEvent u.id) then
      some (.ok (), w.flush p (us.map .eventError), [])
    else none
  | .commit => some (.ok (), w.commit p, [])
  | .rollback => some (.ok (), w.rollback p, [])
  | .now => some (.ok w.clock, w, [])
  | .note _ => some (.ok (), w, [])
  | .scard _ => none
  | .outOfFuel => none

/-! ### Soundness -/

theorem not_amountBusy {a : Amount} (h : w.others n p (Txn.leavesAmount w.db a) = true)
    (hn : Unopened n w) : ¬ w.AmountBusy p a := by
  have hall := others_all h hn rfl
  rintro (⟨q, i, hq, hm, hi⟩ | ⟨q, i, t, hq, hmem, hi, hm⟩)
  · have := List.all_eq_true.mp (hall q hq) _ hm
    simp [hi] at this
  · have := List.all_eq_true.mp (hall q hq) _ hm
    simp only [List.all_eq_true] at this
    have := this i hmem
    simp [hi] at this

theorem not_amountTaken {a : Amount} (h : w.offers p a = true) : ¬ w.AmountTaken p a := by
  simp only [World.offers, Bool.and_eq_true, List.all_eq_true] at h
  rintro (⟨i, hmem, hi⟩ | ⟨i, hm, hi⟩)
  · have := h.1 i hmem
    simp [hi] at this
  · have := h.2 _ hm
    simp [hi] at this

theorem not_smsBusy {t : Id} (h : w.others n p (Txn.leavesSms t) = true) (hn : Unopened n w) :
    ¬ w.SmsBusy p t := by
  have hall := others_all h hn rfl
  rintro ⟨q, id, hq, hm⟩
  have := List.all_eq_true.mp (hall q hq) _ hm
  simp at this

theorem settles_ok {id t : Id} (h : w.settles p id t = true) :
    ¬ w.SmsTaken p id t ∧ ∃ r ∈ w.db.sms, r.id = t := by
  simp only [World.settles, Bool.and_eq_true, List.all_eq_true, List.any_eq_true] at h
  obtain ⟨⟨hdb, htx⟩, r, hr, hid⟩ := h
  refine ⟨?_, r, hr, by simpa using hid⟩
  rintro (⟨i, hi, hne, ht⟩ | ⟨id', hne, hm⟩)
  · have := hdb i hi
    simp [hne, ht] at this
  · have := htx _ hm
    simp [hne] at this

theorem not_keyBusy {k : ℤ × ℤ × String × String} (h : w.others n p (Txn.leavesKey k) = true)
    (hn : Unopened n w) : ¬ w.KeyBusy p k := by
  have hall := others_all h hn rfl
  rintro ⟨q, r, hq, hm, hk⟩
  have := List.all_eq_true.mp (hall q hq) _ hm
  simp [hk] at this

theorem newKey_iff {k : ℤ × ℤ × String × String} : w.newKey p k = true ↔ ¬ w.KeyTaken p k := by
  simp only [World.newKey, Bool.and_eq_true, List.all_eq_true]
  constructor
  · intro h
    rintro (⟨r, hmem, hk⟩ | ⟨r, hm, hk⟩)
    · have := h.1 r hmem
      simp [hk] at this
    · have := h.2 _ hm
      simp [hk] at this
  · intro h
    refine ⟨fun r hmem => decide_eq_true fun hk => h (Or.inl ⟨r, hmem, hk⟩), fun y hy => ?_⟩
    cases y with
    | insSms r => exact decide_eq_true fun hk => h (Or.inr ⟨r, hy, hk⟩)
    | _ => rfl

theorem eventLocked_iff {id : Id} (hn : Unopened n w) :
    w.others n p (Txn.leavesEvent id) = true ↔ ¬ w.EventLocked p id := by
  constructor
  · intro h
    have hall := others_all h hn rfl
    rintro ⟨q, hq, ⟨ids, hm, hid⟩ | ⟨u, hm, hid⟩⟩
    · have := List.all_eq_true.mp (hall q hq) _ hm
      simp [hid] at this
    · have := List.all_eq_true.mp (hall q hq) _ hm
      simp [hid] at this
  · intro h
    refine List.all_eq_true.mpr fun q _ => ?_
    by_cases hq : q = p
    · simp [hq]
    · simp only [hq, decide_false, Bool.false_or]
      refine List.all_eq_true.mpr fun y hy => ?_
      cases y with
      | publish ids =>
        simp only [decide_eq_true_eq]
        exact fun hid => h ⟨q, hq, Or.inl ⟨ids, hy, hid⟩⟩
      | eventError u =>
        simp only [decide_eq_true_eq]
        exact fun hid => h ⟨q, hq, Or.inr ⟨u, hy, hid⟩⟩
      | _ => rfl

theorem not_locked {ids : List Id} (h : (w.others n p fun x => ids.all fun id => id ∉ x.locks) = true)
    (hn : Unopened n w) : ∀ id ∈ ids, ¬ w.LockedByOther p id := by
  have hall := others_all h hn (by simp [Txn.empty])
  rintro id hid ⟨q, hq, hl⟩
  have := List.all_eq_true.mp (hall q hq) id hid
  simp [hl] at this

theorem attempt_inj {α β γ : Type} {a a' : α} {b b' : β} {c c' : γ}
    (h : some (a, b, c) = some (a', b', c')) : a = a' ∧ b = b' ∧ c = c' := by
  simpa using h

/-- **An attempt is an execution** of the operation, in every store of sets that gives the answers. -/
theorem attempt_run {pick : Option Amount} {op : Op} {r : Except Exc op.Ret} {log : List SetCmd}
    (h : op.attempt n p pick w = some (r, w', log)) (hn : Unopened n w) (hs : Answer s log) :
    op.run p (withSets w s) r (withSets w' (log.foldl SetCmd.after s)) := by
  cases op with
  | spop k =>
    obtain ⟨rfl, rfl, rfl⟩ := attempt_inj h
    cases pick with
    | some a => exact Or.inl ⟨a, hs.1, rfl, rfl⟩
    | none => exact Or.inr ⟨hs.1, rfl, rfl⟩
  | «exists» k =>
    obtain ⟨rfl, rfl, rfl⟩ := attempt_inj h
    exact ⟨congrArg Except.ok hs.1, rfl⟩
  | xclaim consumer minIdle id =>
    simp only [Op.attempt] at h
    split_ifs at h with hc
    · obtain ⟨rfl, rfl, rfl⟩ := attempt_inj h
      exact (if_pos hc).mpr ⟨rfl, rfl⟩
    · obtain ⟨rfl, rfl, rfl⟩ := attempt_inj h
      exact (if_neg hc).mpr ⟨rfl, rfl⟩
  | candidate lo hi =>
    cases pick with
    | none => simp [Op.attempt] at h
    | some c =>
      simp only [Op.attempt] at h
      split_ifs at h with hc
      obtain ⟨rfl, rfl, rfl⟩ := attempt_inj h
      obtain ⟨hrange, hin, hall⟩ := hc
      refine ⟨rfl, (if_pos hrange).mpr (Or.inl ⟨c, hin.1, hin.2, ?_, rfl⟩)⟩
      intro i hi
      simpa using List.all_eq_true.mp hall i hi
  | insertOrder userId amount a =>
    simp only [Op.attempt] at h
    split_ifs at h with hc
    obtain ⟨rfl, rfl, rfl⟩ := attempt_inj h
    obtain ⟨hrange, hb, ht⟩ := hc
    exact (if_pos hrange).mpr
      ⟨not_amountBusy (n := n) hb hn, Or.inr ⟨not_amountTaken ht, rfl, rfl⟩⟩
  | pendingPage cursor limit =>
    simp only [Op.attempt] at h
    split_ifs at h with hc
    obtain ⟨rfl, rfl, rfl⟩ := attempt_inj h
    refine ⟨congrArg Except.ok ?_, rfl⟩
    unfold Db.pendingPage
    generalize hrows : (w.db.intents.filter fun i => i.status = .PENDING ∧ cursor < i.id) = rows at hc
    match rows with
    | [] => rw [withSets_db, hrows, List.mergeSort_nil]
    | [i] => rw [withSets_db, hrows, List.mergeSort_singleton]
    | _ :: _ :: _ => simp at hc
  | intentBySms t =>
    simp only [Op.attempt] at h
    split at h
    all_goals
      rename_i ht
      obtain ⟨rfl, rfl, rfl⟩ := attempt_inj h
      refine ⟨rfl, ?_⟩
      simp [ht]
  | lockPending a =>
    cases a with
    | int m =>
      cases hk : intParam (.int m) with
      | some k =>
        simp only [Op.attempt, hk] at h
        simp only [Op.run, hk]
        split_ifs at h with hc
        obtain ⟨rfl, rfl, rfl⟩ := attempt_inj h
        refine ⟨?_, rfl, rfl⟩
        intro i hi
        exact not_locked (n := n) hc hn i.id (List.mem_map_of_mem hi)
      | none =>
        simp only [Op.attempt, hk] at h
        simp only [Op.run, hk]
        obtain ⟨rfl, rfl, rfl⟩ := attempt_inj h
        exact ⟨rfl, rfl⟩
    | _ =>
      obtain ⟨rfl, rfl, rfl⟩ := attempt_inj h
      exact ⟨rfl, rfl⟩
  | lockById paymentId orderId =>
    simp only [Op.attempt] at h
    split_ifs at h with hc
    obtain ⟨rfl, rfl, rfl⟩ := attempt_inj h
    refine (if_pos hc.1).mpr ⟨?_, rfl, rfl⟩
    intro i hi
    exact not_locked (n := n) hc.2 hn i.id (List.mem_map_of_mem hi)
  | flushPaid i sms =>
    simp only [Op.attempt] at h
    split_ifs at h with hc
    obtain ⟨rfl, rfl, rfl⟩ := attempt_inj h
    obtain ⟨hfree, hsms⟩ := hc
    have hok : ∀ t ∈ sms, ¬ w.SmsBusy p t ∧ ¬ w.SmsTaken p i.id t ∧ ∃ x ∈ w.db.sms, x.id = t := by
      rintro t rfl
      simp only [Option.all_some, Bool.and_eq_true] at hsms
      exact ⟨not_smsBusy (n := n) hsms.1 hn, settles_ok hsms.2⟩
    refine ⟨?_, fun t ht => (hok t ht).1, Or.inr ⟨fun t ht => (hok t ht).2, rfl, rfl⟩⟩
    rintro ⟨q, hq, hl⟩
    have := others_all hfree hn (by simp [Txn.empty]) q hq
    simp only [decide_eq_true_eq] at this
    exact this hl
  | insertSms amount inventory date time payload =>
    simp only [Op.attempt] at h
    split_ifs at h with hc ht
    · obtain ⟨rfl, rfl, rfl⟩ := attempt_inj h
      exact (if_pos hc.1).mpr
        ⟨not_keyBusy (n := n) hc.2 hn, Or.inr ⟨newKey_iff.mp ht, rfl, rfl⟩⟩
    · obtain ⟨rfl, rfl, rfl⟩ := attempt_inj h
      have htaken := Classical.not_not.mp (mt newKey_iff.mpr ht)
      exact (if_pos hc.1).mpr ⟨not_keyBusy (n := n) hc.2 hn, Or.inl ⟨htaken, rfl, rfl⟩⟩
  | claimEvents t staleLock limit =>
    simp only [Op.attempt] at h
    split_ifs at h with hc
    obtain ⟨rfl, rfl, rfl⟩ := attempt_inj h
    refine ⟨_, ⟨hc.1, ?_, hc.2, ?_⟩, rfl, rfl⟩
    · intro e he
      obtain ⟨hmem, hsel⟩ := List.mem_filter.mp he
      simp only [Bool.decide_and, Bool.and_eq_true, decide_eq_true_eq, Bool.decide_eq_true] at hsel
      exact ⟨hmem, hsel.1, (eventLocked_iff hn).mp hsel.2⟩
    · intro e he hcl hl hnot
      refine absurd (List.mem_filter.mpr ⟨he, ?_⟩) hnot
      have := (eventLocked_iff (n := n) hn).mpr hl
      simp [hcl, this]
  | publishEvents ids =>
    simp only [Op.attempt] at h
    split_ifs at h with hc
    obtain ⟨rfl, rfl, rfl⟩ := attempt_inj h
    exact ⟨fun id hid => (eventLocked_iff hn).mp (List.all_eq_true.mp hc id hid), rfl, rfl⟩
  | failEvents us =>
    simp only [Op.attempt] at h
    split_ifs at h with hc
    obtain ⟨rfl, rfl, rfl⟩ := attempt_inj h
    exact ⟨fun u hu => (eventLocked_iff hn).mp (List.all_eq_true.mp hc u hu), rfl, rfl⟩
  | scard k => simp [Op.attempt] at h
  | outOfFuel => simp [Op.attempt] at h
  | _ =>
    obtain ⟨rfl, rfl, rfl⟩ := attempt_inj h
    exact ⟨rfl, rfl⟩

/-- Only the session that moves changes. -/
theorem attempt_others {pick : Option Amount} {op : Op} {r : Except Exc op.Ret} {log : List SetCmd}
    (h : op.attempt n p pick w = some (r, w', log)) (hn : Unopened n w) (hs : Answer s log)
    (hp : p < n) : Unopened n w' := by
  intro q hq
  have heff := (run_effect (attempt_run h hn hs)).others q (lt_of_lt_of_le hp hq).ne'
  exact heff.trans (hn q hq)

/-! ## Faults -/

instance (op : Op) (e : Exc) : Decidable (op.Fails e) :=
  match op with
  | .spop _ | .smove _ _ _ | .sadd _ _ | .scard _ | .exists _ | .del _ | .sdiffstore _ _ _ | .xadd _
  | .xaddDead _ | .xreadgroup _ _ | .xpending _ | .xclaim _ _ _ | .xack _ | .xrangeDead _
  | .moveDead _ _ => inferInstanceAs (Decidable (e = RedisError))
  | .beginSelect | .rollback | .now | .note _ | .outOfFuel => inferInstanceAs (Decidable False)
  | .candidate _ _ | .insertOrder _ _ _ | .refreshOrder _ | .pendingPage _ _ | .intentBySms _
  | .lockPending _ | .lockById _ _ | .flushPaid _ _ | .insertSms _ _ _ _ _ | .insertEvent _
  | .claimEvents _ _ _ | .publishEvents _ | .failEvents _ | .commit =>
    inferInstanceAs (Decidable (e = DBAPIError ∨ e = IntegrityError))

/-- The operation may lose its answer. -/
def Op.loses : Op → Bool
  | .spop _ | .smove _ _ _ | .sadd _ _ | .scard _ | .exists _ | .del _ | .sdiffstore _ _ _ | .xadd _
  | .xaddDead _ | .xreadgroup _ _ | .xpending _ | .xclaim _ _ _ | .xack _ | .xrangeDead _
  | .moveDead _ _ | .commit => true
  | _ => false

theorem loses_of {op : Op} (h : op.loses = true) : op.Loses := by
  cases op <;> first
    | exact Or.inl trivial
    | exact Or.inr rfl
    | simp [Op.loses] at h

/-! ## Scripts -/

inductive Move
  | spawn (p : Pid) (q : Request)
  | go (p : Pid) (pick : Option Amount)
  | fail (p : Pid) (e : Exc)
  | lose (p : Pid) (pick : Option Amount) (e : Exc)
  | crash (p : Pid)
  | wait (d : ℕ)

/-- `k` operations of `p` that go through. -/
def Move.goes (p : Pid) (k : ℕ) : List Move := List.replicate k (.go p none)

/-- A configuration without its past. -/
structure Scene where
  world : World
  thread : Pid → Thread sig Exc Response

def Scene.init (w : World) : Scene := ⟨w, fun _ => .fresh⟩

/-- `p` goes on with `x` in the world `w`. -/
def Scene.next (c : Scene) (p : Pid) (x : Thread sig Exc Response) (w : World) : Scene :=
  ⟨w, Function.update c.thread p x⟩

/-- The configuration with this past and these sets. -/
def Scene.at (c : Scene) (past : List Label) (s : Sets SetKey Amount) : State :=
  ⟨withSets c.world s, c.thread, past⟩

@[simp] theorem Scene.at_world (c : Scene) (past : List Label) (s : Sets SetKey Amount) :
    (c.at past s).world = withSets c.world s := rfl

/-- What a move leads to: the scene, the step and the commands on the sets. -/
def Move.play (n : ℕ) (c : Scene) : Move → Option (Scene × Label × List SetCmd)
  | .spawn p q =>
    match c.thread p with
    | .fresh => if p < n then some (c.next p (.live q.prog) c.world, .spawn p q, []) else none
    | _ => none
  | .go p pick =>
    match c.thread p with
    | .live (.call op k) =>
      match op.attempt n p pick c.world with
      | some (r, w, log) =>
        if p < n then some (c.next p (.live (k r)) w, .run p .done op r, log) else none
      | none => none
    | _ => none
  | .fail p e =>
    match c.thread p with
    | .live (.call op k) =>
      if op.Fails e then
        some (c.next p (.live (k (.error e))) c.world, .run p .failed op (.error e), [])
      else none
    | _ => none
  | .lose p pick e =>
    match c.thread p with
    | .live (.call op k) =>
      match op.attempt n p pick c.world with
      | some (_, w, log) =>
        if p < n ∧ op.loses ∧ op.Fails e then
          some (c.next p (.live (k (.error e))) w, .run p .lost op (.error e), log)
        else none
      | none => none
    | _ => none
  | .crash p =>
    match c.thread p with
    | .live (.call _ _) => some (c.next p .crashed (c.world.rollback p), .crash p, [])
    | _ => none
  | .wait d => some (⟨c.world.tick (.tick d), c.thread⟩, .outer (.tick d), [])

/-- The threads from `n` on were not started, and have no session. -/
structure Within (n : ℕ) (c : Scene) : Prop where
  world : Unopened n c.world
  fresh : ∀ q, n ≤ q → c.thread q = .fresh

theorem Within.init (n : ℕ) {w : World} (h : w.Closed) : Within n (.init w) :=
  ⟨fun q _ => h q, fun _ _ => rfl⟩

/-- **Moves are steps.** -/
theorem move_step {m : Move} {c c' : Scene} {a : Label} {log : List SetCmd} (past : List Label)
    (h : m.play n c = some (c', a, log)) (hn : Within n c) (hs : Answer s log) :
    Steps (c.at past s) a (c'.at (past ++ [a]) (log.foldl SetCmd.after s)) ∧ Within n c' := by
  have upd : ∀ {p : Pid} {x : Thread sig Exc Response}, p < n →
      ∀ q, n ≤ q → Function.update c.thread p x q = .fresh := by
    intro p x hp q hq
    rw [Function.update_of_ne (lt_of_lt_of_le hp hq).ne']
    exact hn.fresh q hq
  have lt_of_live : ∀ {p : Pid}, c.thread p ≠ .fresh → p < n := by
    intro p hp
    by_contra hge
    exact hp (hn.fresh p (Nat.le_of_not_lt hge))
  cases m with
  | spawn p q =>
    simp only [Move.play] at h
    split at h
    · rename_i hf
      split_ifs at h with hp
      obtain ⟨rfl, rfl, rfl⟩ := attempt_inj h
      exact ⟨Step.spawn (c := c.at past s) hf, hn.world, upd hp⟩
    · exact absurd h (by simp)
  | go p pick =>
    simp only [Move.play] at h
    split at h
    · rename_i op k hlive
      split at h
      · rename_i r w log' hat
        split_ifs at h with hp
        obtain ⟨rfl, rfl, rfl⟩ := attempt_inj h
        exact ⟨Step.run (c := c.at past s) hlive (attempt_run hat hn.world hs),
          attempt_others hat hn.world hs hp, upd hp⟩
      · exact absurd h (by simp)
    · exact absurd h (by simp)
  | fail p e =>
    simp only [Move.play] at h
    split at h
    · rename_i op k hlive
      split_ifs at h with he
      obtain ⟨rfl, rfl, rfl⟩ := attempt_inj h
      refine ⟨Step.run (c := c.at past s) (f := .failed) hlive ⟨rfl, e, he, rfl⟩, hn.world, ?_⟩
      exact upd (lt_of_live (by simp [hlive]))
    · exact absurd h (by simp)
  | lose p pick e =>
    simp only [Move.play] at h
    split at h
    · rename_i op k hlive
      split at h
      · rename_i r w log' hat
        split_ifs at h with hp
        obtain ⟨rfl, rfl, rfl⟩ := attempt_inj h
        exact ⟨Step.run (c := c.at past s) (f := .lost) hlive
            ⟨loses_of hp.2.1, ⟨r, attempt_run hat hn.world hs⟩, e, hp.2.2, rfl⟩,
          attempt_others hat hn.world hs hp.1, upd hp.1⟩
      · exact absurd h (by simp)
    · exact absurd h (by simp)
  | crash p =>
    simp only [Move.play] at h
    split at h
    · rename_i op k hlive
      obtain ⟨rfl, rfl, rfl⟩ := attempt_inj h
      have hlt : p < n := lt_of_live (by simp [hlive])
      refine ⟨Step.crash (c := c.at past s) hlive, ?_, upd hlt⟩
      intro q hq
      show (c.world.rollback p).txn q = Txn.empty
      rw [rollback_txn, if_neg (lt_of_lt_of_le hlt hq).ne']
      exact hn.world q hq
    · exact absurd h (by simp)
  | wait d =>
    obtain ⟨rfl, rfl, rfl⟩ := attempt_inj h
    exact ⟨Step.outer (c := c.at past s), hn.world, hn.fresh⟩

/-- A condition on steps that does not look at the sets. -/
structure Check where
  test : World → List Label → Label → Bool
  sets : ∀ w s past a, test (withSets w s) past a = test w past a

/-- No condition. -/
def Check.none : Check := ⟨fun _ _ _ => true, fun _ _ _ _ => rfl⟩

/-- A condition on the label. -/
def Check.label (f : Label → Bool) : Check := ⟨fun _ _ a => f a, fun _ _ _ _ => rfl⟩

/-- The steps that meet the condition. -/
abbrev Check.Steps (chk : Check) : State → Label → State → Prop :=
  Lts.restrict PaymentRecon.Steps fun c a _ => chk.test c.world c.past a = true

/-- The script, from the scene `c` with this past; every step meets `chk`. -/
def play (n : ℕ) (chk : Check) : List Move → List Label → Scene →
    Option (Scene × List Label × List SetCmd)
  | [], _, c => some (c, [], [])
  | m :: ms, past, c =>
    match m.play n c with
    | some (c', a, log) =>
      if chk.test c.world past a then
        match play n chk ms (past ++ [a]) c' with
        | some (c'', tr, log') => some (c'', a :: tr, log ++ log')
        | none => none
      else none
    | none => none

/-- **Scripts are runs.** -/
theorem play_run {chk : Check} {ms : List Move} {c c' : Scene} {tr past : List Label}
    {log : List SetCmd} (h : play n chk ms past c = some (c', tr, log)) (hn : Within n c)
    (hs : Answer s log) : Lts.Run chk.Steps (c.at past s) tr
      (c'.at (past ++ tr) (log.foldl SetCmd.after s)) ∧ Within n c' := by
  induction ms generalizing c tr log s past with
  | nil =>
    obtain ⟨rfl, rfl, rfl⟩ := attempt_inj h
    rw [List.append_nil]
    exact ⟨.nil, hn⟩
  | cons m ms ih =>
    simp only [play] at h
    split at h
    · rename_i c₁ a log₁ hm
      split_ifs at h with hchk
      split at h
      · rename_i c₂ tr₂ log₂ hms
        obtain ⟨rfl, rfl, rfl⟩ := attempt_inj h
        rw [answer_append] at hs
        obtain ⟨hstep, hn₁⟩ := move_step past hm hn hs.1
        obtain ⟨hrun, hn₂⟩ := ih hms hn₁ hs.2
        rw [List.foldl_append, List.append_cons]
        exact ⟨Lts.Run.cons ⟨hstep, (chk.sets _ _ _ _).trans hchk⟩ hrun, hn₂⟩
      · exact absurd h (by simp)
    · exact absurd h (by simp)

/-- The condition does not look at the past. -/
def Check.Forgets (chk : Check) : Prop := ∀ w past a, chk.test w past a = chk.test w [] a

theorem Check.Forgets.play {chk : Check} (h : chk.Forgets) (ms : List Move) (c : Scene)
    (past past' : List Label) : play n chk ms past c = play n chk ms past' c := by
  induction ms generalizing c past past' with
  | nil => rfl
  | cons m ms ih =>
    simp only [PaymentRecon.play]
    split
    · rename_i c' a log _
      rw [h c.world past a, h c.world past' a, ih c' (past ++ [a]) (past' ++ [a])]
    · rfl

/-! ## A few amounts in the sets -/

/-- Which sets hold the amount `a` after the command. -/
def SetCmd.holders (a : Amount) (m : SetKey → Bool) : SetCmd → SetKey → Bool
  | .spop k (some b) => if b = a then Function.update m k false else m
  | .smove src dst b =>
    if b = a ∧ m src then Function.update (Function.update m src false) dst true else m
  | .sadd k as => Function.update m k (m k || as.contains a)
  | .del k => Function.update m k false
  | .sdiffstore dst k l => Function.update m dst (m k && !m l)
  | _ => m

/-- The answer is right, as far as the amounts `as` tell. -/
def SetCmd.answered (as : List Amount) (m : Amount → SetKey → Bool) : SetCmd → Bool
  | .spop k (some b) => as.contains b && m b k
  | .spop _ none => false
  | .exists k b => b && as.any fun a => m a k
  | _ => true

def follow (as : List Amount) (m : Amount → SetKey → Bool) :
    List SetCmd → Option (Amount → SetKey → Bool)
  | [] => some m
  | x :: xs => if x.answered as m then follow as (fun a => x.holders a (m a)) xs else none

/-- The sets that hold each of the amounts `as`. -/
def Holders (as : List Amount) (m : Amount → SetKey → Bool) (s : Sets SetKey Amount) : Prop :=
  ∀ a ∈ as, ∀ k, m a k = true ↔ a ∈ s k

theorem SetCmd.mem_after {a : Amount} {m : SetKey → Bool} (hs : ∀ k, m k = true ↔ a ∈ s k)
    (x : SetCmd) (l : SetKey) : x.holders a m l = true ↔ a ∈ x.after s l := by
  have upd : ∀ {m' : SetKey → Bool} {s' : Sets SetKey Amount} {k b S},
      (∀ k, m' k = true ↔ a ∈ s' k) → (b = true ↔ a ∈ S) →
      (Function.update m' k b l = true ↔ a ∈ Function.update s' k S l) := by
    intro m' s' k b S hs' hb
    by_cases hl : l = k
    · subst hl
      simpa using hb
    · simpa [Function.update_of_ne hl] using hs' l
  cases x with
  | spop k o =>
    cases o with
    | none => exact hs l
    | some b =>
      simp only [SetCmd.holders, SetCmd.after, SetStore.spop]
      split_ifs with hb
      · exact upd hs (by simp [hb])
      · by_cases hl : l = k
        · subst hl
          simp [hs l, Ne.symm hb]
        · simpa [Function.update_of_ne hl] using hs l
  | smove src dst b =>
    simp only [SetCmd.holders, SetCmd.after]
    split_ifs with hb
    · obtain ⟨rfl, hk⟩ := hb
      rw [SetStore.smove, if_pos ((hs src).mp hk)]
      refine upd (fun k => ?_) (by simp)
      by_cases hl : k = src
      · simp [hl]
      · simpa [Function.update_of_ne hl] using hs k
    · by_cases hba : b = a
      · subst hba
        rw [smove_of_notMem fun hm => hb ⟨rfl, (hs src).mpr hm⟩]
        exact hs l
      · have hkeep : ∀ k, a ∈ Function.update s src ((s src).erase b) k ↔ a ∈ s k := by
          intro k
          by_cases hl : k = src
          · subst hl
            simp [Ne.symm hba]
          · rw [Function.update_of_ne hl]
        rw [SetStore.smove]
        split_ifs
        · refine (hs l).trans ?_
          by_cases hl : l = dst
          · subst hl
            simp [hkeep, Ne.symm hba]
          · rw [Function.update_of_ne hl, hkeep]
        · exact hs l
  | sadd k as => exact upd hs (by simp [hs k])
  | «exists» k b => exact hs l
  | del k => exact upd hs (by simp)
  | sdiffstore dst k k' =>
    refine upd hs ?_
    rw [Finset.mem_sdiff, ← hs k, ← hs k']
    simp

/-- **Following a few amounts** tells that the answers are right, and where the amounts end. -/
theorem follow_after {as : List Amount} {m m' : Amount → SetKey → Bool} {xs : List SetCmd}
    (h : follow as m xs = some m') (hs : Holders as m s) :
    Answer s xs ∧ Holders as m' (xs.foldl SetCmd.after s) := by
  induction xs generalizing m s with
  | nil =>
    obtain rfl := Option.some.inj h
    exact ⟨trivial, hs⟩
  | cons x xs ih =>
    simp only [follow] at h
    split_ifs at h with hx
    obtain ⟨hrest, hs'⟩ := ih h fun a ha => x.mem_after (hs a ha)
    refine ⟨⟨?_, hrest⟩, hs'⟩
    cases x with
    | spop k o =>
      cases o with
      | none => exact absurd hx (by simp [SetCmd.answered])
      | some b =>
        simp only [SetCmd.answered, Bool.and_eq_true, List.contains_iff_mem] at hx
        exact (hs b hx.1 k).mp hx.2
    | «exists» k b =>
      simp only [SetCmd.answered, Bool.and_eq_true, List.any_eq_true] at hx
      obtain ⟨hb, a, ha, hk⟩ := hx
      simpa [SetCmd.Answers, hb] using Finset.ne_empty_of_mem ((hs a ha k).mp hk)
    | _ => trivial

/-- The script goes through from the scene `c` where the sets `m` hold the amounts `as`, and what it
leads to passes the test. -/
def tracks (n : ℕ) (chk : Check) (ms : List Move) (c : Scene) (as : List Amount)
    (m : Amount → SetKey → Bool) (test : Scene → (Amount → SetKey → Bool) → Bool) : Bool :=
  match play n chk ms [] c with
  | some (c', _, log) =>
    match follow as m log with
    | some m' => test c' m'
    | none => false
  | none => false

theorem tracks_run (n : ℕ) (chk : Check) (ms : List Move) (c : Scene) (as : List Amount)
    (m : Amount → SetKey → Bool) (test : Scene → (Amount → SetKey → Bool) → Bool)
    (h : tracks n chk ms c as m test = true) (hn : Within n c) (hs : Holders as m s)
    (past : List Label) (hpast : past = [] ∨ chk.Forgets) :
    ∃ c' tr s' m', test c' m' = true ∧ Holders as m' s' ∧ Within n c' ∧
      Lts.Run chk.Steps (c.at past s) tr (c'.at (past ++ tr) s') := by
  unfold tracks at h
  split at h
  · rename_i c' tr log hplay
    split at h
    · rename_i m' hm
      obtain ⟨hans, hs'⟩ := follow_after hm hs
      have hplay' : play n chk ms past c = some (c', tr, log) := by
        rcases hpast with rfl | hforget
        · exact hplay
        · rw [hforget.play ms c past []]
          exact hplay
      obtain ⟨hrun, hn'⟩ := play_run hplay' hn hans
      exact ⟨c', tr, _, m', h, hs', hn', hrun⟩
    · exact absurd h (by simp)
  · exact absurd h (by simp)

/-! ## Scripts with tests -/

/-- The scripts, one after the other; each test is on the configuration its script leads to. -/
def visits (n : ℕ) (chk : Check) :
    List (List Move × (State → Bool)) → Scene → List Label → Sets SetKey Amount → Bool
  | [], _, _, _ => true
  | (ms, test) :: rest, c, past, s =>
    match play n chk ms past c with
    | some (c', tr, log) =>
      decide (Answer s log) && test (c'.at (past ++ tr) (log.foldl SetCmd.after s)) &&
        visits n chk rest c' (past ++ tr) (log.foldl SetCmd.after s)
    | none => false

/-- A run that passes the tests one after the other; the threads from `n` on take no part. -/
def Visits (n : ℕ) (R : State → Label → State → Prop) : State → List (ℕ × (State → Bool)) → Prop
  | _, [] => True
  | c, (k, test) :: rest => ∃ tr c', Lts.Run R c tr c' ∧ tr.length = k ∧ test c' = true ∧
      (∀ q, n ≤ q → c'.thread q = .fresh) ∧ Visits n R c' rest

theorem play_length {chk : Check} {ms : List Move} {c c' : Scene} {tr past : List Label}
    {log : List SetCmd} (h : play n chk ms past c = some (c', tr, log)) : tr.length = ms.length := by
  induction ms generalizing c c' tr log past with
  | nil =>
    obtain ⟨-, rfl, -⟩ := attempt_inj h
    rfl
  | cons m ms ih =>
    simp only [play] at h
    split at h
    · split_ifs at h
      split at h
      · rename_i hms
        obtain ⟨rfl, rfl, -⟩ := attempt_inj h
        simp [ih hms]
      · exact absurd h (by simp)
    · exact absurd h (by simp)

theorem visits_run {n : ℕ} {chk : Check} {xs : List (List Move × (State → Bool))} {c : Scene}
    {past : List Label} (h : visits n chk xs c past s = true) (hn : Within n c) :
    Visits n chk.Steps (c.at past s) (xs.map fun x => (x.1.length, x.2)) := by
  induction xs generalizing c past s with
  | nil => trivial
  | cons x xs ih =>
    simp only [visits] at h
    split at h
    · rename_i c' tr log hplay
      simp only [Bool.and_eq_true, decide_eq_true_eq] at h
      obtain ⟨hrun, hn'⟩ := play_run hplay hn h.1.1
      exact ⟨tr, _, hrun, play_length hplay, h.1.2, hn'.fresh, ih h.2 hn'⟩
    · exact absurd h (by simp)

/-- The script leads from the start in `w` to a configuration that passes the test. -/
def plays (n : ℕ) (chk : Check) (ms : List Move) (w : World) (test : State → Bool) : Bool :=
  visits n chk [(ms, test)] (.init w) [] w.sets

theorem plays_run (n : ℕ) (chk : Check) (ms : List Move) (test : State → Bool)
    (h : plays n chk ms w test = true) (hw : w.Closed) :
    ∃ tr c, Lts.Run chk.Steps (.init w) tr c ∧ test c = true ∧ ∀ q, n ≤ q → c.thread q = .fresh := by
  obtain ⟨tr, c, hr, -, htest, hfresh, -⟩ := visits_run h (Within.init n hw)
  exact ⟨tr, c, hr, htest, hfresh⟩

/-- None of the first `n` threads has operations left. -/
def rests (n : ℕ) (c : State) : Bool :=
  (List.range n).all fun p => match c.thread p with
    | .live (.call _ _) => false
    | _ => true

theorem quiet_of_rests {c : State} (h : rests n c = true) (hf : ∀ q, n ≤ q → c.thread q = .fresh) :
    c.Quiet := by
  intro q hrun
  by_cases hlt : q < n
  · have hq := List.all_eq_true.mp h q (List.mem_range.mpr hlt)
    cases ht : c.thread q with
    | fresh | crashed =>
      rw [ht] at hrun
      exact hrun
    | live x =>
      rw [ht] at hrun hq
      cases x <;> first | exact hrun | exact absurd hq (by simp)
  · rw [hf q (Nat.le_of_not_lt hlt)] at hrun
    exact hrun

/-- A transfer of the amount `a`, as the webhook gets it. -/
def sampleTransfer (a : Amount) : SmsData :=
  ⟨some "tx_1", some a, some 9000000, some "1402.01.01", some "10:00", some "sms"⟩

/-! ## Scripts of single requests -/

namespace Script

/-- An order that is created with the amount `a` of the pool. -/
def create (p : Pid) (a : Amount) : List Move :=
  [.spawn p (.createOrder 1 1500000), .go p (some a)] ++ Move.goes p 4

/-- An order that is created with the amount `a` while Redis is down. -/
def createDown (p : Pid) (a : Amount) : List Move :=
  [.spawn p (.createOrder 1 1500000), .fail p RedisError, .go p (some a)] ++ Move.goes p 3

/-- A confirmation by an administrator. -/
def confirm (p : Pid) (orderId paymentId : Id) : List Move :=
  .spawn p (.confirmPayment orderId paymentId) :: Move.goes p 5

/-- A transfer of the amount `a` that the webhook accepts. -/
def webhook (p : Pid) (a : Amount) : List Move :=
  .spawn p (.receiveTransaction (sampleTransfer a)) :: Move.goes p 3

/-- A relay that publishes one event. -/
def relay (p : Pid) : List Move := .spawn p .processOutboxEvent :: Move.goes p 6

/-- A relay that cannot publish its event because Redis is down. -/
def relayDown (p : Pid) : List Move :=
  .spawn p .processOutboxEvent :: Move.goes p 3 ++ .fail p RedisError :: Move.goes p 2

/-- A turn of a worker that pays one new message. -/
def pay (p : Pid) : List Move := .spawn p (.work "worker") :: Move.goes p 12

end Script

end PaymentRecon
