import PaymentRecon.Lib.Erase
import PaymentRecon.Lib.Sequential
import PaymentRecon.Settle.Recorded

/-!
# Duplicate — one more delivery of a payment message

A delivery that settles nothing only locks rows and rolls back: the run without it is a run, and its
tables are the same.  It settles nothing when the transfer is recorded on an intent, as it is for good
from a first delivery on that paid or found it paid, and when no PENDING intent has the amount.  A
delivery whose first one found no intent settles whatever order has the amount when it comes again.
-/

namespace PaymentRecon

open Interleave Rely Lts Settle

namespace Duplicate

variable {p q : Pid} {w w' : World} {past : List Label} {x : Label} {m : Message}

/-! ## The others do not see the session -/

section Hidden

theorem rollback_txn (hq : q ≠ p) : (w.rollback p).txn q = w.txn q := by
  show Function.update w.txn p _ q = _
  rw [Function.update_of_ne hq]

theorem rollback_setTxn (hq : q ≠ p) (y : Txn) :
    (w.setTxn q y).rollback p = (w.rollback p).setTxn q y := by
  show (⟨_, _, _, _, _, _, _⟩ : World) = ⟨_, _, _, _, _, _, _⟩
  simp only [setTxn_txn, World.rollback]
  rw [Function.update_comm hq]
  rfl

theorem rollback_flush (hq : q ≠ p) (ws : List Write) :
    (w.flush q ws).rollback p = (w.rollback p).flush q ws := by
  rw [World.flush, rollback_setTxn hq, World.flush, rollback_txn hq]

theorem rollback_lock (hq : q ≠ p) (ids : List Id) :
    (w.lock q ids).rollback p = (w.rollback p).lock q ids := by
  rw [World.lock, rollback_setTxn hq, World.lock, rollback_txn hq]

/-- What a third session holds, it held before. -/
theorem mem_rollback_writes {q' : Pid} {y : Write} (h : y ∈ ((w.rollback p).txn q').writes) :
    y ∈ (w.txn q').writes := by
  by_cases hq' : q' = p
  · subst hq'
    exact absurd h (by simp [World.rollback, Txn.empty])
  · rwa [rollback_txn hq'] at h

theorem mem_rollback_locks {q' : Pid} {id : Id} (h : id ∈ ((w.rollback p).txn q').locks) :
    id ∈ (w.txn q').locks := by
  by_cases hq' : q' = p
  · subst hq'
    exact absurd h (by simp [World.rollback, Txn.empty])
  · rwa [rollback_txn hq'] at h

theorem rollback_locked {id : Id} (h : ¬ w.LockedByOther q id) : ¬ (w.rollback p).LockedByOther q id :=
  fun ⟨q', hne, hid⟩ => h ⟨q', hne, mem_rollback_locks hid⟩

theorem rollback_eventLocked {id : Id} (h : (w.rollback p).EventLocked q id) : w.EventLocked q id := by
  obtain ⟨q', hne, ⟨ids, hm, hid⟩ | ⟨u, hm, hid⟩⟩ := h
  · exact ⟨q', hne, Or.inl ⟨ids, mem_rollback_writes hm, hid⟩⟩
  · exact ⟨q', hne, Or.inr ⟨u, mem_rollback_writes hm, hid⟩⟩

/-- A silent session updates no event. -/
theorem eventLocked_rollback {id : Id} (hpay : Silent p w) (h : w.EventLocked q id) :
    (w.rollback p).EventLocked q id := by
  have hother : ∀ {q' y}, y ∈ (w.txn q').writes → y ∈ ((w.rollback p).txn q').writes := by
    intro q' y hy
    have hq' : q' ≠ p := by
      rintro rfl
      rw [show (w.txn q').writes = [] from hpay] at hy
      exact absurd hy List.not_mem_nil
    rwa [rollback_txn hq']
  obtain ⟨q', hne, ⟨ids, hm, hid⟩ | ⟨u, hm, hid⟩⟩ := h
  · exact ⟨q', hne, Or.inl ⟨ids, hother hm, hid⟩⟩
  · exact ⟨q', hne, Or.inr ⟨u, hother hm, hid⟩⟩

theorem rollback_amountBusy {a : Amount} (h : (w.rollback p).AmountBusy q a) : w.AmountBusy q a := by
  rcases h with ⟨q', i, hne, hm, hi⟩ | ⟨q', i, t, hne, hi, ha, hm⟩
  · exact Or.inl ⟨q', i, hne, mem_rollback_writes hm, hi⟩
  · exact Or.inr ⟨q', i, t, hne, hi, ha, mem_rollback_writes hm⟩

theorem rollback_amountTaken (hq : q ≠ p) {a : Amount} :
    (w.rollback p).AmountTaken q a ↔ w.AmountTaken q a := by
  unfold World.AmountTaken
  rw [rollback_txn hq]
  rfl

theorem rollback_smsBusy {t : Id} (h : (w.rollback p).SmsBusy q t) : w.SmsBusy q t := by
  obtain ⟨q', id, hne, hm⟩ := h
  exact ⟨q', id, hne, mem_rollback_writes hm⟩

theorem rollback_smsTaken (hq : q ≠ p) {id t : Id} :
    (w.rollback p).SmsTaken q id t ↔ w.SmsTaken q id t := by
  unfold World.SmsTaken
  rw [rollback_txn hq]
  rfl

theorem rollback_keyBusy {k : ℤ × ℤ × String × String} (h : (w.rollback p).KeyBusy q k) :
    w.KeyBusy q k := by
  obtain ⟨q', r, hne, hm, hk⟩ := h
  exact ⟨q', r, hne, mem_rollback_writes hm, hk⟩

theorem rollback_keyTaken (hq : q ≠ p) {k : ℤ × ℤ × String × String} :
    (w.rollback p).KeyTaken q k ↔ w.KeyTaken q k := by
  unfold World.KeyTaken
  rw [rollback_txn hq]
  rfl

/-- The events that a relay may select. -/
theorem rollback_selects {staleLock : ℤ} {limit : ℕ} {sel : List OutBoxOrderEvent}
    (hpay : Silent p w) (h : Selects w q staleLock limit sel) :
    Selects (w.rollback p) q staleLock limit sel where
  nodup := h.nodup
  claimable e he :=
    ⟨(h.claimable e he).1, (h.claimable e he).2.1, fun hl => (h.claimable e he).2.2 (rollback_eventLocked hl)⟩
  length := h.length
  oldest e he hc hl := h.oldest e he hc fun hl' => hl (eventLocked_rollback hpay hl')

theorem rollback_locks_select {sel : PaymentIntent → Bool} {r : Except Exc (List PaymentIntent)}
    (hq : q ≠ p) (h : w.Locks q sel r w') : (w.rollback p).Locks q sel r (w'.rollback p) := by
  have hsel : (w.rollback p).selected q sel = w.selected q sel := by
    unfold World.selected
    rw [rollback_txn hq]
    rfl
  obtain ⟨hfree, rfl, rfl⟩ := h
  unfold World.Locks
  rw [hsel]
  exact ⟨fun i hi => rollback_locked (hfree i hi), rfl, rollback_lock hq _⟩

/-- **An operation of another session** does the same without the session of `p`. -/
theorem run_hidden {op : Op} {r : Except Exc op.Ret} (hq : q ≠ p) (hpay : Silent p w)
    (h : op.run q w r w') : op.run q (w.rollback p) r (w'.rollback p) := by
  cases op with
  | spop k =>
    rcases h with ⟨a, ha, rfl, rfl⟩ | ⟨h0, rfl, rfl⟩
    · exact Or.inl ⟨a, ha, rfl, rfl⟩
    · exact Or.inr ⟨h0, rfl, rfl⟩
  | insertOrder userId amount a =>
    simp only [Op.run] at h ⊢
    split_ifs at h ⊢
    · obtain ⟨hbusy, ⟨htaken, rfl, rfl⟩ | ⟨htaken, rfl, rfl⟩⟩ := h
      · exact ⟨fun hb => hbusy (rollback_amountBusy hb),
          Or.inl ⟨(rollback_amountTaken hq).mpr htaken, rfl, rfl⟩⟩
      · exact ⟨fun hb => hbusy (rollback_amountBusy hb),
          Or.inr ⟨fun ht => htaken ((rollback_amountTaken hq).mp ht), rfl, rollback_flush hq _⟩⟩
    · obtain ⟨rfl, rfl⟩ := h
      exact ⟨rfl, rfl⟩
  | beginSelect =>
    obtain ⟨rfl, rfl⟩ := h
    refine ⟨rfl, ?_⟩
    rw [rollback_setTxn hq, rollback_txn hq]
    rfl
  | lockPending a =>
    simp only [Op.run] at h ⊢
    split at h
    · obtain ⟨rfl, rfl⟩ := h
      exact ⟨rfl, rfl⟩
    · split at h
      · exact rollback_locks_select hq h
      · obtain ⟨rfl, rfl⟩ := h
        exact ⟨rfl, rfl⟩
  | lockById paymentId orderId =>
    simp only [Op.run] at h ⊢
    split_ifs at h ⊢
    · exact rollback_locks_select hq h
    · obtain ⟨rfl, rfl⟩ := h
      exact ⟨rfl, rfl⟩
  | flushPaid i sms =>
    obtain ⟨hlock, hbusy, h⟩ := h
    refine ⟨rollback_locked hlock, fun t ht hb => hbusy t ht (rollback_smsBusy hb), ?_⟩
    rcases h with ⟨⟨t, ht, hbad⟩, rfl, rfl⟩ | ⟨hfit, rfl, rfl⟩
    · exact Or.inl ⟨⟨t, ht, hbad.imp_left (rollback_smsTaken hq).mpr⟩, rfl, rfl⟩
    · refine Or.inr ⟨fun t ht => ⟨fun htaken => (hfit t ht).1 ((rollback_smsTaken hq).mp htaken),
        (hfit t ht).2⟩, rfl, ?_⟩
      rw [rollback_flush hq, rollback_lock hq]
  | insertSms amount inventory date time payload =>
    simp only [Op.run] at h ⊢
    split_ifs at h ⊢
    · obtain ⟨hbusy, ⟨htaken, rfl, rfl⟩ | ⟨htaken, rfl, rfl⟩⟩ := h
      · exact ⟨fun hb => hbusy (rollback_keyBusy hb),
          Or.inl ⟨(rollback_keyTaken hq).mpr htaken, rfl, rfl⟩⟩
      · exact ⟨fun hb => hbusy (rollback_keyBusy hb),
          Or.inr ⟨fun ht => htaken ((rollback_keyTaken hq).mp ht), rfl, rollback_flush hq _⟩⟩
    · obtain ⟨rfl, rfl⟩ := h
      exact ⟨rfl, rfl⟩
  | insertEvent data =>
    obtain ⟨rfl, rfl⟩ := h
    exact ⟨rfl, rollback_flush hq _⟩
  | claimEvents t staleLock limit =>
    obtain ⟨sel, hsel, rfl, rfl⟩ := h
    exact ⟨sel, rollback_selects hpay hsel, rfl, rfl⟩
  | publishEvents ids =>
    obtain ⟨hfree, rfl, rfl⟩ := h
    exact ⟨fun id hid hl => hfree id hid (rollback_eventLocked hl), rfl, rollback_flush hq _⟩
  | failEvents us =>
    obtain ⟨hfree, rfl, rfl⟩ := h
    exact ⟨fun u hu hl => hfree u hu (rollback_eventLocked hl), rfl, rollback_flush hq _⟩
  | commit =>
    obtain ⟨rfl, rfl⟩ := h
    refine ⟨rfl, ?_⟩
    rw [World.commit, rollback_setTxn hq, World.commit, rollback_txn hq]
    rfl
  | rollback =>
    obtain ⟨rfl, rfl⟩ := h
    exact ⟨rfl, rollback_setTxn hq _⟩
  | outOfFuel => exact h.elim
  | intentBySms t =>
    obtain ⟨rfl, hr⟩ := h
    exact ⟨rfl, hr⟩
  | candidate lo hi =>
    obtain ⟨rfl, hr⟩ := h
    exact ⟨rfl, hr⟩
  | xclaim consumer minIdle id =>
    show if w.group.claimable w.clock minIdle id then r = .ok (w.main.xrange id id) ∧
        w'.rollback p = { w.rollback p with group := w.group.claim consumer w.clock id }
      else r = .ok [] ∧ w'.rollback p = w.rollback p
    simp only [Op.run] at h
    split_ifs at h ⊢
    · obtain ⟨rfl, rfl⟩ := h
      exact ⟨rfl, rfl⟩
    · obtain ⟨rfl, rfl⟩ := h
      exact ⟨rfl, rfl⟩
  | _ =>
    obtain ⟨rfl, rfl⟩ := h
    exact ⟨rfl, rfl⟩

end Hidden

theorem hides : Hides system p (fun w => w.rollback p) (Silent p) where
  exec f q op w r w' hq hpay h := by
    cases f with
    | done => exact run_hidden hq hpay h
    | failed =>
      obtain ⟨rfl, herr⟩ := h
      exact ⟨rfl, herr⟩
    | lost =>
      obtain ⟨hloses, ⟨r₀, hrun⟩, herr⟩ := h
      exact ⟨hloses, ⟨r₀, run_hidden hq hpay hrun⟩, herr⟩
  abort q w hq := rollback_setTxn hq _
  outer x w := by
    cases x
    rfl

/-! ## What the delivery does -/

/-- No PENDING intent has the amount of the message. -/
def Unclaimed (m : Message) (w : World) : Prop :=
  ∀ a n, m.data.get "amount" = .ok a → intParam a = some n → ∀ i ∈ w.db.intents, ¬ i.Holds n

/-- The thread `p` delivers `m`. -/
def Delivers (p : Pid) (m : Message) : StepCond := fun _ _ x _ =>
  ∀ y, x = .spawn p y → y = .handlePayment m

/-- The thread `p` delivers `m`; when it looks for a PENDING intent with the amount, the transfer is
recorded, or there is no such intent. -/
def Redelivers (p : Pid) (m : Message) : StepCond := fun w past x w' =>
  Delivers p m w past x w' ∧ ∀ f a r, x = .run p f (.lockPending a) r → Recorded m w ∨ Unclaimed m w

/-- The transfer `n` is recorded on none of these rows, but on another. -/
def Barred (n : Id) (rows : List PaymentIntent) (w : World) : Prop :=
  ∃ j ∈ w.db.intents, j.smsTransactionId = some n ∧ ∀ i ∈ rows, j.id ≠ i.id

/-- What a delivery does: it reads, locks and gives up, and a settlement that it tries is barred. -/
def Calm (w : World) : Op → Prop
  | .intentBySms _ | .beginSelect | .lockPending _ | .commit | .rollback => True
  | .flushPaid i sms => ∃ n, sms = some n ∧ Barred n [i] w
  | _ => False

def logic (p : Pid) (m : Message) : Rely sig Exc Response World Request Tick where
  machine := system
  cond := fun w past x w' => Redelivers p m w past x w' ∧ Agree w ∧ Consistent w
  inv := fun w _ => Silent p w
  start := fun _ => top
  guard := fun q w _ op => q = p → Calm w op
  final := fun _ _ => top

abbrev Facts := Assertion sig Exc World Request Tick

abbrev Keeps {β : Type} (p : Pid) (m : Message) (K : Facts) (y : App β) (post : Except Exc β → Facts) :
    Prop := (logic p m).Ensures p K y post

theorem keeps_calm (op : Op) (h : ∀ w, Calm w op) : Keeps p m top (await op) fun _ => top :=
  Ensures.skip (fun _ _ _ _ _ _ _ _ => trivial) fun w _ _ _ _ => h w

theorem stable_barred {n : Id} {rows : List PaymentIntent} :
    (logic p m).Stable p fun w _ => Barred n rows w := by
  rintro w past x w' - hw ⟨-, hA, hc⟩ - ⟨j, hj, hsms, hrows⟩
  exact ⟨j, recorded_stays hw hA hc hj hsms, hsms, hrows⟩

/-- A search that answers rows was for an integer. -/
theorem lockPending_param {f : Fault} {a : Json} {rows : List PaymentIntent} {i : PaymentIntent}
    (h : exec f p (.lockPending a) w (.ok rows) w') (hi : i ∈ rows) :
    ∃ n, intParam a = some n ∧ i ∈ w.db.intents ∧ i.Holds n := by
  obtain ⟨-, hrun⟩ := Requests.exec_ok h
  simp only [Op.run] at hrun
  split at hrun
  · obtain rfl := Except.ok.inj hrun.1
    exact absurd hi List.not_mem_nil
  · split at hrun
    · next n hn =>
      obtain rfl := Except.ok.inj hrun.2.1
      obtain ⟨hmem, hsel⟩ := List.mem_filter.mp hi
      simp only [Bool.decide_and, Bool.decide_eq_true, Bool.and_eq_true] at hsel
      exact ⟨n, hn, hmem, by simpa [pendingWith] using hsel.2.1⟩
    · cases hrun.1

/-- The search finds nothing, or what it finds cannot be settled by the transfer. -/
theorem keeps_lockPending {amount t : Json} {n : Id} (hamount : m.data.get "amount" = .ok amount)
    (ht : m.data.get "transaction_id" = .ok t) (hn : intParam t = some n) :
    Keeps p m top (await (.lockPending amount))
      (whenOk fun rows w _ => rows = [] ∨ Barred n rows w) := by
  refine Ensures.perform (stable_whenOk fun rows => ?_) (fun _ _ _ _ _ => trivial) ?_
  · rintro w past x w' hI hw hcond hp (hnil | hbar)
    · exact Or.inl hnil
    · exact Or.inr (stable_barred w past x w' hI hw hcond hp hbar)
  · intro f w past r w' _ _ hx hcond
    cases r with
    | error e => trivial
    | ok rows =>
      obtain ⟨⟨-, hselect⟩, hA, hc⟩ := hcond
      rcases hselect f amount _ rfl with hrec | hnone
      · obtain ⟨t', n', ht', hn', j, hj, hsms⟩ := hrec
        obtain rfl := Except.ok.inj (ht.symm.trans ht')
        obtain rfl := Option.some.inj (hn.symm.trans hn')
        have hw : system.WStep w (.run p f (.lockPending amount) (.ok rows)) w' := hx
        refine Or.inr ⟨j, recorded_stays hw hA hc hj hsms, hsms, fun i hi hid => ?_⟩
        obtain ⟨a, -, hmem, hst, -⟩ := lockPending_param hx hi
        obtain rfl := hc.intent_eq hj hmem hid
        exact absurd (hst.symm.trans (hc.settled.paid _ hj n hsms)) (by decide)
      · refine Or.inl (List.eq_nil_iff_forall_not_mem.mpr fun i hi => ?_)
        obtain ⟨a, ha, hmem, hholds⟩ := lockPending_param hx hi
        exact hnone amount a hamount ha i hmem hholds

/-- A barred settlement does not go through. -/
theorem not_flushed {f : Fault} {i : PaymentIntent} {n : Id} (hbar : Barred n [i] w)
    (hx : exec f p (.flushPaid i (some n)) w (.ok ()) w') : False := by
  obtain ⟨-, -, -, ⟨-, he, -⟩ | ⟨hfit, -, -⟩⟩ := Requests.exec_ok hx
  · cases he
  · obtain ⟨j, hj, hsms, hne⟩ := hbar
    exact (hfit n rfl).1 (Or.inl ⟨j, hj, hne i List.mem_cons_self, hsms⟩)

theorem keeps_flushPaid (i : PaymentIntent) (n : Id) :
    Keeps p m (fun w _ => Barred n [i] w) (await (.flushPaid i (some n))) fun r => match r with
      | .ok _ => fun _ _ => False
      | .error _ => top := by
  refine Ensures.perform ?_ (fun _ _ _ hbar _ => ⟨n, rfl, hbar⟩) ?_
  · intro r
    cases r with
    | ok _ => exact Stable.false
    | error _ => exact Persistent.true.stable
  · intro f w past r w' _ hbar hx _
    cases r with
    | error _ => trivial
    | ok _ => exact not_flushed hbar hx

/-- The delivery settles nothing. -/
theorem keeps_processPendingPayment {amount t : Json} (hamount : m.data.get "amount" = .ok amount)
    (ht : m.data.get "transaction_id" = .ok t) :
    Keeps p m top (processPendingPayment amount t) (whenOk fun res _ _ => res.2 = false) := by
  unfold processPendingPayment
  split_ifs
  · exact fun _ _ _ => trivial
  · refine Ensures.bind (m := whenOk fun _ _ _ => ∃ n, intParam t = some n) ?_ (fun already => ?_)
      fun _ _ _ _ => trivial
    · refine Ensures.perform (stable_whenOk fun _ _ _ _ _ _ _ _ _ h => h) (fun _ _ _ _ _ => trivial) ?_
      intro f w past r w' _ _ hx _
      cases r with
      | error e => trivial
      | ok found =>
        obtain ⟨n, hn, -⟩ := intentBySms_param hx
        exact ⟨n, hn⟩
    cases already with
    | some i => exact fun _ _ _ => rfl
    | none =>
      have hread : Keeps p m (fun w past => (∃ n, intParam t = some n) ∧ top w past) (do
          await .beginSelect
          let rows ← await (.lockPending amount)
          try
            let payment ← scalarOne rows
            await (.flushPaid payment (some t.asInt))
            pure (payment.pay (some t.asInt), true)
          catch e => throw (settlementError amount t e)) (whenOk fun res _ _ => res.2 = false) := by
        refine Ensures.pure ?_
        rintro ⟨n, hn⟩
        rw [intParam_asInt hn]
        refine Ensures.bind (keeps_calm .beginSelect fun _ => trivial) (fun _ => ?_) fun _ _ _ _ => trivial
        refine Ensures.bind (keeps_lockPending hamount ht hn) (fun rows => ?_) fun _ _ _ _ => trivial
        refine Ensures.tryCatch (m := whenOk fun res _ _ => res.2 = false) ?_ (fun _ _ _ h => h)
          fun e _ _ _ => trivial
        match rows with
        | [] => exact fun _ _ _ => trivial
        | _ :: _ :: _ => exact fun _ _ _ => trivial
        | [i] =>
          show Keeps p m _ (await (.flushPaid i (some n)) >>= fun _ => pure (i.pay (some n), true)) _
          refine Ensures.bind ((keeps_flushPaid i n).pre fun w past h => ?_) (fun _ _ _ h => h.elim)
            fun _ _ _ _ => trivial
          exact h.resolve_left (by simp)
      exact hread.pre fun _ _ h => ⟨h, trivial⟩

/-- **The delivery is calm**: it does not come to the release. -/
theorem keeps_handlePayment : Keeps p m top (handlePayment m) fun _ => top := by
  unfold handlePayment
  refine Ensures.tryCatch (m := fun _ => top) ?_ (fun _ _ _ h => h) ?_
  · cases hamount : m.data.get "amount" with
    | error e => exact fun w past h => trivial
    | ok amount =>
      cases ht : m.data.get "transaction_id" with
      | error e => exact fun w past h => trivial
      | ok t =>
        simp only [Prog.ofExcept_ok, Prog.ret_bind]
        refine Ensures.bind (keeps_processPendingPayment hamount ht) ?_ fun _ _ _ _ => trivial
        rintro ⟨i, settled⟩
        refine Ensures.pre (Ensures.pure fun (hsettled : settled = false) => ?_) fun w past h => ⟨h, trivial⟩
        subst hsettled
        exact Ensures.bind (keeps_calm .commit fun _ => trivial) (fun _ _ _ _ => trivial)
          fun _ _ _ _ => trivial
  · intro e
    exact Ensures.bind (keeps_calm .rollback fun _ => trivial) (fun _ _ _ _ => trivial)
      fun _ _ _ _ => trivial

theorem setTxn_rollback (y : Txn) : (w.setTxn p y).rollback p = w.rollback p := by
  unfold World.rollback World.setTxn
  simp only [Function.update_idem]

/-- What an operation of the delivery that goes through does with its session. -/
theorem silent_op {op : Op} {r : Except Exc op.Ret} (h : Silent p w) (ho : Calm w op)
    (hx : op.run p w r w') : Silent p w' ∧ w'.rollback p = w.rollback p := by
  have hlocks : ∀ {sel : PaymentIntent → Bool} {r : Except Exc (List PaymentIntent)},
      w.Locks p sel r w' → Silent p w' ∧ w'.rollback p = w.rollback p := by
    rintro sel r ⟨-, -, rfl⟩
    exact ⟨h.of_writes (by simp [lock_writes]), setTxn_rollback _⟩
  cases op with
  | intentBySms t =>
    obtain ⟨rfl, -⟩ := hx
    exact ⟨h, rfl⟩
  | beginSelect =>
    obtain ⟨-, rfl⟩ := hx
    exact ⟨h.of_writes (by simp), setTxn_rollback _⟩
  | lockPending a =>
    simp only [Op.run] at hx
    split at hx
    · obtain ⟨-, rfl⟩ := hx
      exact ⟨h, rfl⟩
    · split at hx
      · exact hlocks hx
      · obtain ⟨-, rfl⟩ := hx
        exact ⟨h, rfl⟩
  | flushPaid i sms =>
    obtain ⟨n, rfl, hbar⟩ := ho
    cases r with
    | ok _ => exact (not_flushed (f := .done) hbar hx).elim
    | error e =>
      obtain ⟨-, -, ⟨-, -, rfl⟩ | ⟨-, he, -⟩⟩ := hx
      · exact ⟨h, rfl⟩
      · cases he
  | commit =>
    obtain ⟨-, rfl⟩ := hx
    have hnone : w.commit p = w.rollback p := by
      unfold World.commit
      rw [show (w.txn p).writes = [] from h]
      rfl
    rw [hnone]
    exact ⟨by simp [Silent, World.rollback, Txn.empty], setTxn_rollback _⟩
  | rollback =>
    obtain ⟨-, rfl⟩ := hx
    exact ⟨by simp [Silent, World.rollback, Txn.empty], setTxn_rollback _⟩
  | _ => exact ho.elim

/-- **An operation of the delivery** keeps to its session. -/
theorem silent_run {f : Fault} {op : Op} {r : Except Exc op.Ret} (h : Silent p w) (ho : Calm w op)
    (hx : exec f p op w r w') : Silent p w' ∧ w'.rollback p = w.rollback p := by
  cases f with
  | done => exact silent_op h ho hx
  | failed =>
    obtain ⟨rfl, -⟩ := hx
    exact ⟨h, rfl⟩
  | lost =>
    obtain ⟨-, ⟨r₀, hrun⟩, -⟩ := hx
    exact silent_op h ho hrun

theorem sound : (logic p m).Sound where
  prog q y w past w' _ hcond := by
    by_cases hq : q = p
    · subst hq
      obtain rfl := hcond.1.1 y rfl
      exact Ensures.bind (keeps_handlePayment.pre fun _ _ _ => trivial) (fun _ _ _ _ => trivial)
        fun _ _ _ _ => trivial
    · exact (Ensures.ofAll (Prog.all_true y.prog) fun op w past _ _ h => absurd h hq).mono
        fun _ _ _ _ => trivial
  start q := Persistent.true.stable
  begin w past q y h := trivial
  spawn w past q y h _ := h
  run f w past q op r w' h hg hx _ := by
    by_cases hq : q = p
    · subst hq
      exact (silent_run h (hg rfl) hx).1
    · have hw : system.WStep w (.run q f op r) w' := hx
      refine Silent.of_writes h ?_
      rw [wstep_txn hw fun heq => hq (Option.some.inj heq)]
  crash w past q h _ := by
    by_cases hq : q = p
    · subst hq
      show Silent q (w.rollback q)
      simp [Silent, World.rollback, Txn.empty]
    · refine Silent.of_writes h ?_
      show ((w.rollback q).txn p).writes = _
      have hw : system.WStep w (.crash q) (w.rollback q) := rfl
      rw [wstep_txn hw fun heq => hq (Option.some.inj heq)]
  outer w past x h _ := by
    cases x
    exact Silent.of_writes h rfl

/-! ## The run without the delivery -/

/-- The steps of the delivery stay in its session. -/
theorem own_step {c c' : State} (hs : Steps c x c') (hp : x.pid = some p)
    (hg : Allows (logic p m).Guarded c x c') (hI : Silent p c.world) :
    c'.world.rollback p = c.world.rollback p := by
  cases hs with
  | spawn _ => rfl
  | @run q f op k r w' _ hx =>
    obtain rfl := Option.some.inj hp
    exact (silent_run hI (hg.2 _ _ _ _ rfl rfl) hx).2
  | crash _ =>
    obtain rfl := Option.some.inj hp
    exact setTxn_rollback _
  | outer => exact absurd hp (by simp [Act.pid])

theorem init_leave : (Config.init World.empty : State).leave p (fun w => w.rollback p) =
    .init World.empty := by
  have hworld : World.empty.rollback p = World.empty := by
    show World.empty.setTxn p (World.empty.txn p) = World.empty
    unfold World.setTxn
    rw [Function.update_eq_self]
  have hthread : Function.update (fun _ => Thread.fresh : Pid → Thread sig Exc Response) p .fresh =
      fun _ => .fresh := Function.update_eq_self _ _
  show (⟨World.empty.rollback p, Function.update (fun _ => .fresh) p .fresh, []⟩ : State) =
    ⟨World.empty, fun _ => .fresh, []⟩
  rw [hworld, hthread]

/-- **The deliveries of `p` can be left out** of a run whose steps meet the condition. -/
theorem left_out {tr : List Label} {c : State}
    (hr : Run (StepsIf (Redelivers p m)) (.init World.empty) tr c) :
    ∃ c', Run Steps (.init World.empty) (without p tr) c' ∧
      c'.world.db.orders = c.world.db.orders ∧ c'.world.db.intents = c.world.db.intents := by
  have hagreed := agreed (Holds.init Consistent.empty fun _ => rfl) Agree.empty hr
  have hown : Run (restrict Steps fun c x c' => Silent p c.world ∧
      (x.pid = some p → c'.world.rollback p = c.world.rollback p)) (.init World.empty) tr c ∧
      (logic p m).Holds c := by
    refine hagreed.invariant (fun c tr => Run (restrict Steps fun c x c' => Silent p c.world ∧
      (x.pid = some p → c'.world.rollback p = c.world.rollback p)) (.init World.empty) tr c ∧
      (logic p m).Holds c) ⟨.nil, Holds.init rfl fun _ => trivial⟩ ?_
    rintro tr c x c' - ⟨hrun, hH⟩ ⟨hs, hcond⟩
    obtain ⟨hg, hH'⟩ := sound.step hs hcond hH
    exact ⟨.snoc hrun ⟨hs, hH.inv, fun hp => own_step hs hp hg hH.inv⟩, hH'⟩
  have hleft := hides.run hown.1
  rw [init_leave] at hleft
  exact ⟨_, hleft, rfl, rfl⟩

/-- A thread that took no step met the condition. -/
theorem unlabelled_redelivers {tr : List Label} {c c' : State} (hr : Run Steps c tr c')
    (h : ∀ x ∈ tr, x.pid ≠ some p) : Run (StepsIf (Redelivers p m)) c tr c' := by
  refine (hr.labelled h).mono ?_
  rintro c x c' ⟨hs, hp⟩
  refine ⟨hs, ?_, ?_⟩
  · rintro y rfl
    exact absurd rfl hp
  · rintro f a r rfl
    exact absurd rfl hp

/-- Deliveries after the transfer was recorded meet the condition. -/
theorem redelivers_run {before after : List Label} {c c' : State}
    (hr : Run Steps (.init World.empty) before c) (h : Recorded m c.world)
    (hr' : Run (StepsIf (Delivers p m)) c after c') : Run (StepsIf (Redelivers p m)) c after c' := by
  obtain ⟨hH, hA⟩ := Agree.reached hr (Holds.init Consistent.empty fun _ => rfl) Agree.empty
  obtain ⟨-, hrun⟩ := (agreed hH hA hr').along (fun c => Recorded m c.world) h
    fun _ _ _ h hs => h.step hs.1.wstep.1 hs.2.2.1 hs.2.2.2
  refine hrun.mono ?_
  rintro c x c' ⟨⟨hs, hdeliver, -⟩, hrec⟩
  exact ⟨hs, hdeliver, fun _ _ _ _ => Or.inl hrec⟩

/-! ## Deliveries of one message -/

/-- The payment message of a transfer. -/
def transferMessage (a : Amount) : Message := ⟨toLex (1, 0), transactionData 1 "tx_1" a, 0, 0⟩

/-- The request delivers that message. -/
def isTransfer (a : Amount) : Request → Bool
  | .handlePayment ⟨id, .obj [(k₁, .int t), (k₂, .str tr), (k₃, .int b), (k₄, .str ty)], attempts, created⟩ =>
    id = toLex (1, 0) ∧ k₁ = "transaction_id" ∧ t = 1 ∧ k₂ = "trace_id" ∧ tr = "tx_1" ∧ k₃ = "amount" ∧
      b = a ∧ k₄ = "type" ∧ ty = "payment" ∧ attempts = 0 ∧ created = 0
  | _ => false

theorem eq_of_isTransfer {a : Amount} {y : Request} (h : isTransfer a y = true) :
    y = .handlePayment (transferMessage a) := by
  unfold isTransfer at h
  split at h
  · obtain ⟨rfl, rfl, rfl, rfl, rfl, rfl, rfl, rfl, rfl, rfl, rfl⟩ := of_decide_eq_true h
    rfl
  · exact absurd h (by simp)

/-- The thread delivers the message. -/
def spawned (p : Pid) (a : Amount) (past : List Label) : Bool :=
  past.any fun x => match x with
    | .spawn q y => q = p && isTransfer a y
    | _ => false

theorem mem_of_spawned {a : Amount} (h : spawned p a past = true) :
    .spawn p (.handlePayment (transferMessage a)) ∈ past := by
  obtain ⟨x, hx, htest⟩ := List.any_eq_true.mp h
  cases x with
  | spawn q y =>
    obtain ⟨hq, hy⟩ := Bool.and_eq_true_iff.mp htest
    obtain rfl := of_decide_eq_true hq
    exact eq_of_isTransfer hy ▸ hx
  | _ => exact absurd htest (by simp)

/-- One delivery. -/
def deliver (p : Pid) (a : Amount) (k : ℕ) : List Move :=
  .spawn p (.handlePayment (transferMessage a)) :: Move.goes p k

/-- The steps in which `p` delivers the message. -/
def delivering (p : Pid) (a : Amount) : Check where
  test _ _ x := match x with
    | .spawn q y => q ≠ p || isTransfer a y
    | _ => true
  sets w s _ x := by cases x <;> rfl

theorem delivering_steps {a : Amount} {c c' : State} (h : (delivering p a).Steps c x c') :
    StepsIf (Delivers p (transferMessage a)) c x c' := by
  obtain ⟨hs, htest⟩ := h
  refine ⟨hs, ?_⟩
  rintro y rfl
  simp only [delivering, ne_eq, not_true, decide_false, Bool.false_or] at htest
  exact eq_of_isTransfer htest

/-- The delivery of `q` returned True, and `p` was not started. -/
def handledOnce (q p : Pid) (c : State) : Bool :=
  match c.thread q, c.thread p with
  | .live (.ret (.handled true)), .fresh => true
  | _, _ => false

theorem of_handledOnce {c : State} (h : handledOnce q p c = true) :
    c.thread q = .live (.ret (.handled true)) ∧ c.thread p = .fresh := by
  unfold handledOnce at h
  split at h
  · next hq hp => exact ⟨hq, hp⟩
  · exact absurd h (by simp)

/-- The message was paid or found processed: its transfer is recorded, a delivery of it ended without an
error, or the handler did in a turn of a worker. -/
def Concluded (m : Message) (before : List Label) (c : State) : Prop :=
  Recorded m c.world ∨
    (∃ q, .spawn q (.handlePayment m) ∈ before ∧ c.thread q = .live (.ret (.handled true))) ∨
    HandledInTurn m before

theorem Concluded.recorded {before : List Label} {c : State} (h : Concluded m before c)
    (hr : Run Steps (.init World.empty) before c) : Recorded m c.world := by
  rcases h with hrec | ⟨q, hq, hend⟩ | hturn
  · exact hrec
  · exact recorded_of_handled hr hq hend
  · exact recorded_of_turn hr hturn

/-- **A delivery of a message whose transfer is recorded, or whose amount no PENDING intent has, when it
looks for one, can be left out.**  The transfer is recorded, for good, once a delivery paid or found it
processed. -/
theorem duplicate_without_effect {p : Pid} {m : Message} {before after : List Label} {c₁ c : State}
    (hr : Run Steps (.init World.empty) before c₁) (hp : c₁.thread p = .fresh)
    (hr' : (Concluded m before c₁ ∧ Run (StepsIf (Delivers p m)) c₁ after c) ∨
      Run (StepsIf (Redelivers p m)) c₁ after c) :
    (Concluded m before c₁ → Recorded m c.world) ∧
      ∃ c', Run Steps (.init World.empty) (before ++ without p after) c' ∧
        c'.world.db.orders = c.world.db.orders ∧ c'.world.db.intents = c.world.db.intents := by
  have hlater : Run Steps c₁ after c := hr'.elim (fun h => h.2.of_restrict) fun h => h.of_restrict
  refine ⟨fun hdone => (hdone.recorded hr).reached hr hlater, ?_⟩
  have hafter : Run (StepsIf (Redelivers p m)) c₁ after c := by
    rcases hr' with ⟨hdone, hdeliver⟩ | hredeliver
    · exact redelivers_run hr (hdone.recorded hr) hdeliver
    · exact hredeliver
  have hunlabelled : ∀ x ∈ before, x.pid ≠ some p := by
    have hfresh := fresh_unlabelled hr hp
    rwa [run_past hr] at hfresh
  have hbefore := unlabelled_redelivers (m := m) hr hunlabelled
  obtain ⟨c', hleft, htables⟩ := left_out (hbefore.append hafter)
  refine ⟨c', ?_, htables⟩
  rwa [without_append, without_unlabelled hunlabelled] at hleft

/-- A first delivery pays; then another user orders with the amount, and the message comes again. -/
theorem duplicate_without_effect_sample : ∃ (before after : List Label) (c₁ c c' : State),
    .spawn 2 (.handlePayment (transferMessage 1500001)) ∈ before ∧
    .spawn 4 (.handlePayment (transferMessage 1500001)) ∈ after ∧
    (∃ i ∈ c₁.world.db.intents, i.status = .PENDING ∧ i.exactAmount = 1500001) ∧
    Run Steps (.init World.empty) before c₁ ∧ Run Steps c₁ after c ∧
    Recorded (transferMessage 1500001) c.world ∧
    Run Steps (.init World.empty) (before ++ without 4 after) c' ∧
    c'.world.db.orders = c.world.db.orders ∧ c'.world.db.intents = c.world.db.intents := by
  have hvisits : visits 5 (delivering 4 1500001)
      [(Script.createDown 0 1500001 ++ Script.webhook 1 1500001 ++ deliver 2 1500001 6 ++
          Script.createDown 3 1500001,
        fun c => spawned 2 1500001 c.past && handledOnce 2 4 c &&
          c.world.db.intents.any fun i => i.status = .PENDING ∧ i.exactAmount = 1500001),
       (deliver 4 1500001 2, fun c => spawned 4 1500001 c.past)]
      (.init World.empty) [] World.empty.sets = true := by decide +kernel
  obtain ⟨before, c₁, hr, hlen, htest, -, after, c, hr', -, hagain, -⟩ :=
    visits_run hvisits (Within.init 5 World.empty_closed)
  have hpast : c₁.past = before := run_past hr.of_restrict
  simp only [Bool.and_eq_true, List.any_eq_true, decide_eq_true_eq, hpast] at htest
  obtain ⟨⟨hfirst, honce⟩, i, hi, hst, hexact⟩ := htest
  obtain ⟨hend, hthread⟩ := of_handledOnce honce
  have hspawn : .spawn 4 (.handlePayment (transferMessage 1500001)) ∈ after := by
    have hboth : c.past = before ++ after := run_past (hr.of_restrict.append hr'.of_restrict)
    have hmem := hboth ▸ mem_of_spawned hagain
    rcases List.mem_append.mp hmem with hold | hnew
    · exact absurd rfl (fresh_unlabelled hr.of_restrict hthread _ (hpast ▸ hold))
    · exact hnew
  have hdone : Concluded (transferMessage 1500001) before c₁ := Or.inr (Or.inl ⟨2, mem_of_spawned hfirst, hend⟩)
  obtain ⟨hrec, c', hleft, htables⟩ := duplicate_without_effect hr.of_restrict hthread
    (Or.inl ⟨hdone, hr'.mono fun _ _ _ => delivering_steps⟩)
  exact ⟨before, after, c₁, c, c', mem_of_spawned hfirst, hspawn, ⟨i, hi, hst, hexact⟩, hr.of_restrict,
    hr'.of_restrict, hrec hdone, hleft, htables⟩

/-- The first delivery finds no intent and is acknowledged; an order of another user then takes the amount,
and the second delivery settles it. -/
theorem duplicate_delivery_pays : ∃ (m : Message) (tr tr' : List Label) (c c' : State),
    Run Steps (.init World.empty) tr c ∧ Run Steps c tr' c' ∧
    .spawn 1 (.handlePayment m) ∈ tr ∧ .spawn 3 (.handlePayment m) ∈ tr' ∧
    (∀ x ∈ tr', x.pid = some 3) ∧ c'.world.db.intents ≠ c.world.db.intents := by
  have hvisits : visits 4 .none
      [(Script.webhook 0 1500001 ++ deliver 1 1500001 4 ++ Script.createDown 2 1500001,
        fun c => spawned 1 1500001 c.past && c.world.db.intents.all fun i => i.status = .PENDING),
      (deliver 3 1500001 6, fun c => spawned 3 1500001 (c.past.drop 15) &&
        ((c.past.drop 15).all fun x => x.pid = some 3) &&
        c.world.db.intents.any fun i => i.status = .PAID)]
      (.init World.empty) [] World.empty.sets = true := by decide +kernel
  obtain ⟨tr, c, hr, hlen, hbefore, -, tr', c', hr', -, hafter, -⟩ :=
    visits_run hvisits (Within.init 4 World.empty_closed)
  have hpast : c.past = tr := run_past hr.of_restrict
  have hdrop : c'.past.drop 15 = tr' := by
    rw [run_past hr'.of_restrict, hpast]
    exact List.drop_left' hlen
  simp only [Bool.and_eq_true, List.all_eq_true, decide_eq_true_eq, hpast] at hbefore
  simp only [Bool.and_eq_true, List.all_eq_true, List.any_eq_true, decide_eq_true_eq, hdrop] at hafter
  refine ⟨transferMessage 1500001, tr, tr', c, c', hr.of_restrict, hr'.of_restrict,
    mem_of_spawned hbefore.1, mem_of_spawned hafter.1.1, hafter.1.2, fun heq => ?_⟩
  obtain ⟨i, hi, hpaid⟩ := hafter.2
  rw [heq] at hi
  exact absurd (hpaid.symm.trans (hbefore.2 i hi)) (by decide)

end Duplicate

end PaymentRecon
