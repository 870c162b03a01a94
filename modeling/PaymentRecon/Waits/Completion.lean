import PaymentRecon.Lib.Progress
import PaymentRecon.Play
import PaymentRecon.Requests.Outbox
import PaymentRecon.Waits.Fuel
import PaymentRecon.Waits.Orderly

/-!
# Completion — nobody waits forever

`Op.BlockedBy w p q`: the locks and writes of the session `q` are why the operation of `p` has no step.
In every state that the service reaches, whatever failed before, a request that waits does so for one that
can go on, or for one that waits for one that can (`Ordered.short`).  Only relays that update the same
events can wait in a circle (`Ordered.circle`); PostgreSQL ends such a circle with an error of one of
them.  So what was started can be finished, without any other fault (`completes`).
-/

namespace PaymentRecon

open Interleave Rely Relation

/-! ## Who blocks an operation -/

/-- The session `q` flushed, and did not yet commit, an update of the event. -/
def World.Updates (w : World) (q : Pid) (id : Id) : Prop :=
  (∃ ids, Write.publish ids ∈ (w.txn q).writes ∧ id ∈ ids) ∨
    ∃ u, Write.eventError u ∈ (w.txn q).writes ∧ u.id = id

/-- The operation of `p` has to wait for the session `q`. -/
def Op.BlockedBy (w : World) (p q : Pid) : Op → Prop
  | .insertOrder _ amount a => q ≠ p ∧ (inInt4 amount ∧ inInt4 a) ∧
      ((∃ i, Write.insIntent i ∈ (w.txn q).writes ∧ i.Holds a) ∨
        ∃ i t, i ∈ w.db.intents ∧ i.Holds a ∧ Write.payIntent i.id t ∈ (w.txn q).writes)
  | .lockPending a => q ≠ p ∧ ∃ n, intParam a = some n ∧
      ∃ i ∈ w.selected p (pendingWith n), i.id ∈ (w.txn q).locks
  | .lockById paymentId orderId => q ≠ p ∧ (inInt4 paymentId ∧ inInt4 orderId) ∧
      ∃ i ∈ w.selected p (confirmable paymentId orderId), i.id ∈ (w.txn q).locks
  | .flushPaid i sms => q ≠ p ∧ (i.id ∈ (w.txn q).locks ∨
      ∃ t ∈ sms, ∃ id, Write.payIntent id (some t) ∈ (w.txn q).writes)
  | .insertSms amount inventory date time _ => q ≠ p ∧
      (inInt4 amount ∧ inInt4 inventory ∧ date.length ≤ 10 ∧ time.length ≤ 5) ∧
      ∃ r, Write.insSms r ∈ (w.txn q).writes ∧ r.key = (amount, inventory, date, time)
  | .publishEvents ids => q ≠ p ∧ ∃ id ∈ ids, w.Updates q id
  | .failEvents us => q ≠ p ∧ ∃ u ∈ us, w.Updates q u.id
  | _ => False

namespace Waits

variable {p q : Pid} {w w' : World} {op : Op}

theorem locks_or_blocked (sel : PaymentIntent → Bool) :
    (∃ r w', w.Locks p sel r w') ∨ ∃ q, q ≠ p ∧ ∃ i ∈ w.selected p sel, i.id ∈ (w.txn q).locks := by
  by_cases h : ∀ i ∈ w.selected p sel, ¬ w.LockedByOther p i.id
  · exact Or.inl ⟨_, _, h, rfl, rfl⟩
  · simp only [not_forall, not_not] at h
    obtain ⟨i, hi, q, hq, hl⟩ := h
    exact Or.inr ⟨q, hq, i, hi, hl⟩

theorem flushPaid_or_blocked (i : PaymentIntent) (sms : Option Id) :
    (∃ r w', (Op.flushPaid i sms).run p w r w') ∨ ∃ q, (Op.flushPaid i sms).BlockedBy w p q := by
  by_cases hl : w.LockedByOther p i.id
  · obtain ⟨q, hq, hl⟩ := hl
    exact Or.inr ⟨q, hq, Or.inl hl⟩
  by_cases hb : ∀ t ∈ sms, ¬ w.SmsBusy p t
  · refine Or.inl ?_
    by_cases hbad : ∃ t ∈ sms, w.SmsTaken p i.id t ∨ ∀ x ∈ w.db.sms, x.id ≠ t
    · exact ⟨_, _, hl, hb, Or.inl ⟨hbad, rfl, rfl⟩⟩
    · refine ⟨_, _, hl, hb, Or.inr ⟨fun t ht => ?_, rfl, rfl⟩⟩
      have hno : ¬ (w.SmsTaken p i.id t ∨ ∀ x ∈ w.db.sms, x.id ≠ t) := fun h => hbad ⟨t, ht, h⟩
      rw [not_or] at hno
      refine ⟨hno.1, ?_⟩
      have hex := hno.2
      simp only [not_forall, not_not] at hex
      obtain ⟨x, hx, hid⟩ := hex
      exact ⟨x, hx, hid⟩
  · simp only [not_forall, not_not] at hb
    obtain ⟨t, ht, q, id, hq, hw⟩ := hb
    exact Or.inr ⟨q, hq, Or.inr ⟨t, ht, id, hw⟩⟩

/-- **An operation goes through or waits for somebody.** -/
theorem run_or_blocked (hids : (w.db.outbox.map (·.id)).Nodup) (hfuel : op ≠ .outOfFuel) :
    (∃ r w', op.run p w r w') ∨ ∃ q, op.BlockedBy w p q := by
  cases op with
  | spop k =>
    refine Or.inl ?_
    rcases (w.sets k).eq_empty_or_nonempty with h | ⟨a, ha⟩
    · exact ⟨_, _, Or.inr ⟨h, rfl, rfl⟩⟩
    · exact ⟨_, _, Or.inl ⟨a, ha, rfl, rfl⟩⟩
  | xclaim consumer minIdle id =>
    refine Or.inl ?_
    simp only [Op.run]
    split_ifs
    · exact ⟨_, _, rfl, rfl⟩
    · exact ⟨_, _, rfl, rfl⟩
  | candidate lo hi =>
    refine Or.inl ?_
    simp only [Op.run]
    split_ifs
    · by_cases h : ∃ c, lo ≤ c ∧ c ≤ hi ∧ ∀ i ∈ w.db.intents, ¬ i.Holds c
      · obtain ⟨c, hlo, hhi, hfree⟩ := h
        exact ⟨_, _, rfl, Or.inl ⟨c, hlo, hhi, hfree, rfl⟩⟩
      · refine ⟨_, _, rfl, Or.inr ⟨fun c hlo hhi => ?_, rfl⟩⟩
        by_contra hno
        exact h ⟨c, hlo, hhi, fun i hi hh => hno ⟨i, hi, hh⟩⟩
    · exact ⟨_, _, rfl, rfl⟩
  | intentBySms t =>
    refine Or.inl ?_
    cases ht : intParam t with
    | some n => exact ⟨_, _, rfl, by simp only [ht]; rfl⟩
    | none => exact ⟨_, _, rfl, by simp only [ht]; rfl⟩
  | insertOrder userId amount a =>
    by_cases hin : inInt4 amount ∧ inInt4 a
    · by_cases hb : w.AmountBusy p a
      · rcases hb with ⟨q, i, hq, hw, hh⟩ | ⟨q, i, t, hq, hi, hh, hw⟩
        · exact Or.inr ⟨q, hq, hin, Or.inl ⟨i, hw, hh⟩⟩
        · exact Or.inr ⟨q, hq, hin, Or.inr ⟨i, t, hi, hh, hw⟩⟩
      · refine Or.inl ?_
        simp only [Op.run, if_pos hin]
        by_cases ht : w.AmountTaken p a
        · exact ⟨_, _, hb, Or.inl ⟨ht, rfl, rfl⟩⟩
        · exact ⟨_, _, hb, Or.inr ⟨ht, rfl, rfl⟩⟩
    · refine Or.inl ?_
      simp only [Op.run, if_neg hin]
      exact ⟨_, _, rfl, rfl⟩
  | lockPending a =>
    cases ht : intParam a with
    | some n =>
      rcases locks_or_blocked (w := w) (p := p) (pendingWith n) with ⟨r, w', h⟩ | ⟨q, hq, hb⟩
      · refine Or.inl ⟨r, w', ?_⟩
        cases a with
        | null => simp [intParam] at ht
        | _ => simpa only [Op.run, ht] using h
      · exact Or.inr ⟨q, hq, n, ht, hb⟩
    | none =>
      refine Or.inl ?_
      cases a with
      | null => exact ⟨_, _, rfl, rfl⟩
      | _ =>
        simp only [Op.run, ht]
        exact ⟨_, _, rfl, rfl⟩
  | lockById paymentId orderId =>
    by_cases hin : inInt4 paymentId ∧ inInt4 orderId
    · rcases locks_or_blocked (w := w) (p := p) (confirmable paymentId orderId) with
        ⟨r, w', h⟩ | ⟨q, hq, hb⟩
      · refine Or.inl ⟨r, w', ?_⟩
        simpa only [Op.run, if_pos hin] using h
      · exact Or.inr ⟨q, hq, hin, hb⟩
    · refine Or.inl ?_
      simp only [Op.run, if_neg hin]
      exact ⟨_, _, rfl, rfl⟩
  | flushPaid i sms => exact flushPaid_or_blocked i sms
  | insertSms amount inventory date time payload =>
    by_cases hin : inInt4 amount ∧ inInt4 inventory ∧ date.length ≤ 10 ∧ time.length ≤ 5
    · by_cases hb : w.KeyBusy p (amount, inventory, date, time)
      · obtain ⟨q, r, hq, hw, hk⟩ := hb
        exact Or.inr ⟨q, hq, hin, r, hw, hk⟩
      · refine Or.inl ?_
        simp only [Op.run, if_pos hin]
        by_cases ht : w.KeyTaken p (amount, inventory, date, time)
        · exact ⟨_, _, hb, Or.inl ⟨ht, rfl, rfl⟩⟩
        · exact ⟨_, _, hb, Or.inr ⟨ht, rfl, rfl⟩⟩
    · refine Or.inl ?_
      simp only [Op.run, if_neg hin]
      exact ⟨_, _, rfl, rfl⟩
  | claimEvents t s l =>
    obtain ⟨sel, hsel⟩ := Outbox.selects_exists w p s l hids
    exact Or.inl ⟨_, _, sel, hsel, rfl, rfl⟩
  | publishEvents ids =>
    by_cases h : ∀ id ∈ ids, ¬ w.EventLocked p id
    · exact Or.inl ⟨_, _, h, rfl, rfl⟩
    · simp only [not_forall, not_not] at h
      obtain ⟨id, hid, q, hq, hu⟩ := h
      exact Or.inr ⟨q, hq, id, hid, hu⟩
  | failEvents us =>
    by_cases h : ∀ u ∈ us, ¬ w.EventLocked p u.id
    · exact Or.inl ⟨_, _, h, rfl, rfl⟩
    · simp only [not_forall, not_not] at h
      obtain ⟨u, hu, q, hq, hup⟩ := h
      exact Or.inr ⟨q, hq, u, hu, hup⟩
  | outOfFuel => exact absurd rfl hfuel
  | _ => exact Or.inl ⟨_, _, rfl, rfl⟩

theorem locks_blocked {sel : PaymentIntent → Bool} {r : Except Exc (List PaymentIntent)}
    (hq : q ≠ p) {i : PaymentIntent} (hi : i ∈ w.selected p sel) (hl : i.id ∈ (w.txn q).locks)
    (h : w.Locks p sel r w') : False := h.1 i hi ⟨q, hq, hl⟩

/-- An operation that waits has no step. -/
theorem blocked_run {r : Except Exc op.Ret} (hb : op.BlockedBy w p q) (h : op.run p w r w') :
    False := by
  cases op with
  | insertOrder userId amount a =>
    obtain ⟨hq, hin, hb⟩ := hb
    simp only [Op.run, if_pos hin] at h
    refine h.1 ?_
    rcases hb with ⟨i, hw, hh⟩ | ⟨i, t, hi, hh, hw⟩
    · exact Or.inl ⟨q, i, hq, hw, hh⟩
    · exact Or.inr ⟨q, i, t, hq, hi, hh, hw⟩
  | lockPending a =>
    obtain ⟨hq, n, hn, i, hi, hl⟩ := hb
    cases a with
    | null => simp [intParam] at hn
    | _ =>
      simp only [Op.run, hn] at h
      exact locks_blocked hq hi hl h
  | lockById paymentId orderId =>
    obtain ⟨hq, hin, i, hi, hl⟩ := hb
    simp only [Op.run, if_pos hin] at h
    exact locks_blocked hq hi hl h
  | flushPaid i sms =>
    obtain ⟨hq, hl | ⟨t, ht, id, hw⟩⟩ := hb
    · exact h.1 ⟨q, hq, hl⟩
    · exact h.2.1 t ht ⟨q, id, hq, hw⟩
  | insertSms amount inventory date time payload =>
    obtain ⟨hq, hin, r₀, hw, hk⟩ := hb
    simp only [Op.run, if_pos hin] at h
    exact h.1 ⟨q, r₀, hq, hw, hk⟩
  | publishEvents ids =>
    obtain ⟨hq, id, hid, hu⟩ := hb
    exact h.1 id hid ⟨q, hq, hu⟩
  | failEvents us =>
    obtain ⟨hq, u, hu, hup⟩ := hb
    exact h.1 u hu ⟨q, hq, hup⟩
  | _ => exact hb.elim

/-! ## Who waits for whom -/

variable {c c' : State} {a : Label} {tr : List Label} {w₀ : World}

/-- The operation that `p` performs next. -/
def Next (c : State) (p : Pid) (op : Op) : Prop := ∃ k, c.thread p = .live (.call op k)

/-- The next operation of `p` goes through. -/
def CanGo (c : State) (p : Pid) : Prop := ∃ op r c', Steps c (.run p .done op r) c'

def WaitsFor (c : State) (p q : Pid) : Prop := ∃ op, Next c p op ∧ op.BlockedBy c.world p q

/-- The statements of `process_outbox_updates`. -/
def Reports : Op → Prop
  | .publishEvents _ | .failEvents _ => True
  | _ => False

theorem Next.running (h : Next c p op) : (c.thread p).Running := by
  obtain ⟨k, hk⟩ := h
  rw [hk]
  trivial

theorem Next.of_running (h : (c.thread p).Running) : ∃ op, Next c p op := by
  cases ht : c.thread p with
  | live x =>
    cases x with
    | call op k => exact ⟨op, k, ht⟩
    | ret _ | raise _ => rw [ht] at h; exact h.elim
  | fresh | crashed => rw [ht] at h; exact h.elim

theorem Next.eq {op' : Op} (h : Next c p op) (h' : Next c p op') : op = op' := by
  obtain ⟨k, hk⟩ := h
  obtain ⟨k', hk'⟩ := h'
  rw [hk] at hk'
  cases hk'
  rfl

theorem Next.goes {r : Except Exc op.Ret} (h : Next c p op) (hx : op.run p c.world r w') :
    CanGo c p := by
  obtain ⟨k, hk⟩ := h
  exact ⟨op, r, _, .run hk hx⟩

/-- Nobody goes on while he waits. -/
theorem WaitsFor.stuck (h : WaitsFor c p q) : ¬ CanGo c p := by
  obtain ⟨op, hop, hb⟩ := h
  rintro ⟨op', r, c', hs⟩
  cases hs with
  | run hk hx =>
    obtain rfl := hop.eq ⟨_, hk⟩
    exact blocked_run hb hx

/-- What is known of every state that the service reaches. -/
structure Ordered (c : State) : Prop where
  holds : logic.Holds c
  crashed : ∀ p, c.thread p = .crashed → Bare p c.world
  outbox : OutboxOk c.world
  ids : EventIds c.world

theorem Ordered.init (hclosed : w₀.Closed) (hc : Consistent w₀) (hO : OutboxOk w₀)
    (hids : (w₀.db.outbox.map (·.id)).Nodup) : Ordered (.init w₀) :=
  ⟨.init hc fun p => .of_closed hclosed p, fun _ h => by simp [Config.init] at h, hO,
    .of_closed hclosed hids⟩

theorem Ordered.step (h : Ordered c) (hs : Steps c a c') : Ordered c' := by
  have hw := hs.wstep.1
  refine ⟨(sound.step hs trivial h.holds).2, fun p hp => ?_, h.outbox.step hw,
    h.ids.step h.outbox hw⟩
  cases hs with
  | @spawn q _ hq =>
    by_cases heq : p = q
    · subst heq
      simp [Config.next] at hp
    · exact h.crashed p (by simpa [Config.next, heq] using hp)
  | @run q f op k r w' hq hx =>
    by_cases heq : p = q
    · subst heq
      simp [Config.next] at hp
    · have hold := h.crashed p (by simpa [Config.next, heq] using hp)
      exact hold.congr (wstep_txn hw (by simpa [Act.pid] using Ne.symm heq))
  | @crash q op k hq =>
    by_cases heq : p = q
    · subst heq
      exact .over (SessionIs.setTxn (w := c.world) (x := Txn.empty) rfl)
    · have hold := h.crashed p (by simpa [Config.next, heq] using hp)
      exact hold.congr (wstep_txn hw (by simpa [Act.pid] using Ne.symm heq))
  | @outer x =>
    cases x
    exact (h.crashed p hp).congr rfl

theorem Ordered.run (h : Ordered c) (hr : Lts.Run Steps c tr c') : Ordered c' :=
  hr.inv Ordered h fun _ _ _ hc hs => hc.step hs

theorem Ordered.orderly (h : Ordered c) (hop : Next c p op) : Orderly p c.world op := by
  obtain ⟨k, hk⟩ := hop
  obtain ⟨K, hK, -, J, -, hg, -⟩ := h.holds.live p _ hk
  exact hg _ _ h.holds.inv hK

/-- A session that is not in the middle of its request holds nothing. -/
theorem Ordered.resting (h : Ordered c) (hp : ¬ (c.thread p).Running) : Bare p c.world := by
  by_cases hc : c.thread p = .crashed
  · exact h.crashed p hc
  · rcases h.holds.resting hp hc with hb | ⟨r, hb⟩
    · exact hb
    · exact hb

/-- A session that holds something is in the middle of its request. -/
theorem Ordered.busy (h : Ordered c) (hb : ¬ Bare p c.world) :
    ∃ op, Next c p op ∧ Orderly p c.world op := by
  have hrun : (c.thread p).Running := by
    by_contra hno
    exact hb (h.resting hno)
  obtain ⟨op, hop⟩ := Next.of_running hrun
  exact ⟨op, hop, h.orderly hop⟩

/-- **The next operation goes through or waits for somebody.** -/
theorem Ordered.goes_or_waits (h : Ordered c) (hop : Next c p op) (hfuel : op ≠ .outOfFuel) :
    CanGo c p ∨ ∃ q, WaitsFor c p q := by
  rcases run_or_blocked h.ids.committed hfuel with ⟨r, w', hx⟩ | ⟨q, hb⟩
  · exact Or.inl (hop.goes hx)
  · exact Or.inr ⟨q, op, hop, hb⟩

/-- **Who has stored or settled something can go on**: only a relay, which marked events as published,
may have to wait once more. -/
theorem Ordered.writer_goes (h : Ordered c) {x : Write} (hx : x ∈ (c.world.txn p).writes)
    (hne : ∀ ids, x ≠ .publish ids) : CanGo c p := by
  obtain ⟨op, hop, hord⟩ := h.busy fun hb => by
    rw [hb.writes] at hx
    simp at hx
  have hnil : (c.world.txn p).writes ≠ [] := List.ne_nil_of_mem hx
  have hfuel : op ≠ .outOfFuel := by
    rintro rfl
    exact hnil (show Bare p c.world from hord).writes
  rcases run_or_blocked h.ids.committed hfuel with ⟨r, w', hrun⟩ | ⟨q, hb⟩
  · exact hop.goes hrun
  · cases op with
    | insertOrder _ _ _ | lockPending _ | lockById _ _ | insertSms _ _ _ _ _ | publishEvents _ =>
      exact absurd (show Bare p c.world from hord).writes hnil
    | flushPaid i sms => exact absurd hord.2 hnil
    | failEvents us =>
      obtain ⟨ids, rfl⟩ := hord.2 x hx
      exact absurd rfl (hne ids)
    | _ => exact hb.elim

/-- **Who has locked a row can go on, or waits for somebody who can.** -/
theorem Ordered.locker_goes (h : Ordered c) {id : Id} (hl : id ∈ (c.world.txn p).locks) :
    CanGo c p ∨ ∃ q, WaitsFor c p q ∧ CanGo c q := by
  obtain ⟨op, hop, hord⟩ := h.busy fun hb => by
    rw [hb.locks] at hl
    simp at hl
  have hnil : (c.world.txn p).locks ≠ [] := List.ne_nil_of_mem hl
  have hfuel : op ≠ .outOfFuel := by
    rintro rfl
    exact hnil (show Bare p c.world from hord).locks
  rcases run_or_blocked h.ids.committed hfuel with ⟨r, w', hrun⟩ | ⟨q, hb⟩
  · exact Or.inl (hop.goes hrun)
  · cases op with
    | insertOrder _ _ _ | lockPending _ | lockById _ _ | insertSms _ _ _ _ _ | publishEvents _ =>
      exact absurd (show Bare p c.world from hord).locks hnil
    | flushPaid i sms =>
      refine Or.inr ⟨q, ⟨_, hop, hb⟩, ?_⟩
      -- the row is its own, so it waits for the SMS transaction
      obtain ⟨hq, hlock | ⟨t, ht, id', hw⟩⟩ := hb
      · exact absurd (h.holds.inv.locks.excl q p i.id hlock hord.1) hq
      · exact h.writer_goes hw fun ids => by simp
    | failEvents us => exact absurd hord.1 hnil
    | _ => exact hb.elim

/-- Waiting for somebody who settles, stores or records something. -/
theorem WaitsFor.writer (h : Ordered c) (hop : Next c p op) (hb : op.BlockedBy c.world p q) :
    CanGo c q ∨ (∃ id, id ∈ (c.world.txn q).locks) ∨ Reports op := by
  cases op with
  | insertOrder userId amount a =>
    obtain ⟨-, -, ⟨i, hw, -⟩ | ⟨i, t, -, -, hw⟩⟩ := hb
    · exact Or.inl (h.writer_goes hw fun ids => by simp)
    · exact Or.inl (h.writer_goes hw fun ids => by simp)
  | lockPending a =>
    obtain ⟨-, n, -, i, -, hl⟩ := hb
    exact Or.inr (Or.inl ⟨_, hl⟩)
  | lockById paymentId orderId =>
    obtain ⟨-, -, i, -, hl⟩ := hb
    exact Or.inr (Or.inl ⟨_, hl⟩)
  | flushPaid i sms =>
    obtain ⟨-, hl | ⟨t, -, id, hw⟩⟩ := hb
    · exact Or.inr (Or.inl ⟨_, hl⟩)
    · exact Or.inl (h.writer_goes hw fun ids => by simp)
  | insertSms amount inventory date time payload =>
    obtain ⟨-, -, r, hw, -⟩ := hb
    exact Or.inl (h.writer_goes hw fun ids => by simp)
  | publishEvents _ | failEvents _ => exact Or.inr (Or.inr trivial)
  | _ => exact hb.elim

/-- A session that somebody waits for holds something. -/
theorem BlockedBy.holds (hb : op.BlockedBy w p q) : ¬ Bare q w := by
  rintro ⟨hl, hw⟩
  cases op with
  | insertOrder userId amount a =>
    obtain ⟨-, -, ⟨i, hi, -⟩ | ⟨i, t, -, -, hi⟩⟩ := hb <;> simp [hw] at hi
  | lockPending a =>
    obtain ⟨-, n, -, i, -, hi⟩ := hb
    simp [hl] at hi
  | lockById paymentId orderId =>
    obtain ⟨-, -, i, -, hi⟩ := hb
    simp [hl] at hi
  | flushPaid i sms =>
    obtain ⟨-, hi | ⟨t, -, id, hi⟩⟩ := hb
    · simp [hl] at hi
    · simp [hw] at hi
  | insertSms amount inventory date time payload =>
    obtain ⟨-, -, r, hr, -⟩ := hb
    simp [hw] at hr
  | publishEvents ids =>
    obtain ⟨-, id, -, ⟨ids, hi, -⟩ | ⟨u, hi, -⟩⟩ := hb <;> simp [hw] at hi
  | failEvents us =>
    obtain ⟨-, u, -, ⟨ids, hi, -⟩ | ⟨u, hi, -⟩⟩ := hb <;> simp [hw] at hi
  | _ => exact hb.elim

/-- **Only relays wait in a circle.** -/
theorem Ordered.circle (h : Ordered c) (hp : TransGen (WaitsFor c) p p) :
    ∃ us, Next c p (.failEvents us) := by
  obtain ⟨q, ⟨op, hop, hb⟩, hqp⟩ := TransGen.head'_iff.mp hp
  obtain ⟨r, -, op', -, hb'⟩ := TransGen.tail'_iff.mp hp
  -- somebody waits for `p`, so its session holds something
  have hholds := BlockedBy.holds hb'
  -- and `q` is in the circle, so it cannot go on either
  have hstuck : ¬ CanGo c q := by
    rcases hqp.cases_head with rfl | ⟨q', hq', -⟩
    · exact WaitsFor.stuck ⟨op, hop, hb⟩
    · exact hq'.stuck
  have hord := h.orderly hop
  cases op with
  | insertOrder _ _ _ | lockPending _ | lockById _ _ | insertSms _ _ _ _ _ | publishEvents _ =>
    exact absurd hord hholds
  | flushPaid i sms =>
    obtain ⟨hq, hlock | ⟨t, ht, id', hw⟩⟩ := hb
    · exact absurd (h.holds.inv.locks.excl q p i.id hlock hord.1) hq
    · exact absurd (h.writer_goes hw fun ids => by simp) hstuck
  | failEvents us => exact ⟨us, hop⟩
  | _ => exact hb.elim

/-- A request other than a relay at its updates waits for two others at most. -/
theorem Ordered.short (h : Ordered c) (hop : Next c p op) (hfuel : op ≠ .outOfFuel)
    (hrep : ¬ Reports op) :
    CanGo c p ∨ ∃ q, WaitsFor c p q ∧ (CanGo c q ∨ ∃ r, WaitsFor c q r ∧ CanGo c r) := by
  rcases h.goes_or_waits hop hfuel with hgo | ⟨q, op', hop', hb⟩
  · exact Or.inl hgo
  · obtain rfl := hop.eq hop'
    refine Or.inr ⟨q, ⟨op, hop, hb⟩, ?_⟩
    rcases WaitsFor.writer h hop hb with hgo | ⟨id, hl⟩ | hr
    · exact Or.inl hgo
    · exact h.locker_goes hl
    · exact absurd hr hrep

/-- **Nobody waits forever, but for relays.**  Whatever failed before, a request that waits does so for
one that can go on, or for one that waits for one that can; only relays can wait in a circle. -/
theorem waits_end (hclosed : w₀.Closed) (hc : Consistent w₀) (hO : OutboxOk w₀)
    (hids : (w₀.db.outbox.map (·.id)).Nodup) (hr : Lts.Run Steps (.init w₀) tr c) :
    (∀ p op, Next c p op → op ≠ .outOfFuel → ¬ Reports op →
      CanGo c p ∨ ∃ q, WaitsFor c p q ∧ (CanGo c q ∨ ∃ r, WaitsFor c q r ∧ CanGo c r)) ∧
    ∀ p, TransGen (WaitsFor c) p p → ∃ op, Next c p op ∧ Reports op := by
  have h := (Ordered.init hclosed hc hO hids).run hr
  refine ⟨fun p op hop hfuel hrep => h.short hop hfuel hrep, fun p hp => ?_⟩
  obtain ⟨us, hus⟩ := h.circle hp
  exact ⟨_, hus, trivial⟩

/-- The relay `p` is about to update an event that the session `q` marked as published. -/
def meets (c : State) (p q : Pid) : Bool :=
  match c.thread p with
  | .live (.call (.failEvents us) _) => q ≠ p && us.any fun u =>
    (c.world.txn q).writes.any fun x => match x with
      | .publish ids => u.id ∈ ids
      | _ => false
  | _ => false

theorem meets_waits (h : meets c p q = true) : WaitsFor c p q := by
  unfold meets at h
  split at h
  · rename_i us k hk
    simp only [Bool.and_eq_true, decide_eq_true_eq, List.any_eq_true] at h
    obtain ⟨hq, u, hu, x, hx, hmem⟩ := h
    cases x with
    | publish ids => exact ⟨_, ⟨k, hk⟩, hq, u, hu, Or.inl ⟨ids, hx, of_decide_eq_true hmem⟩⟩
    | _ => simp at hmem
  · simp at h

/-- Two relays with the same two events: each publishes one and fails to publish the other. -/
def deadlock : List Move :=
  Script.webhook 0 1500001 ++ Script.webhook 1 1500002 ++
    .spawn 2 .processOutboxEvent :: Move.goes 2 2 ++ .wait 300001 ::
      .spawn 3 .processOutboxEvent :: Move.goes 3 2 ++
        Move.goes 2 3 ++ [.fail 2 RedisError, .go 2 none] ++
        Move.goes 3 1 ++ [.fail 3 RedisError] ++ Move.goes 3 3

theorem deadlock_run : ∃ (tr : List Label) (c : State), Lts.Run Steps (.init World.empty) tr c ∧
    WaitsFor c 2 3 ∧ WaitsFor c 3 2 := by
  have hplay : plays 4 (.label fun _ => true) deadlock World.empty
      (fun c => meets c 2 3 && meets c 3 2) = true := by
    decide +kernel
  obtain ⟨tr, c, hr, htest, -⟩ := plays_run _ _ _ _ hplay World.empty_closed
  have htest := (Bool.and_eq_true _ _).mp htest
  exact ⟨tr, c, hr.of_restrict, meets_waits htest.1, meets_waits htest.2⟩

/-- The two relays wait for each other. -/
theorem waits_end_sample : ∃ (tr : List Label) (c : State), Lts.Run Steps (.init World.empty) tr c ∧
    TransGen (WaitsFor c) 2 2 ∧ ∃ op, Next c 2 op ∧ Reports op := by
  obtain ⟨tr, c, hr, h23, h32⟩ := deadlock_run
  have hcircle : TransGen (WaitsFor c) 2 2 := .tail (.single h23) h32
  exact ⟨tr, c, hr, hcircle,
    (waits_end World.empty_closed .empty OutboxOk.empty List.nodup_nil hr).2 2 hcircle⟩

/-! ## Completion -/

/-- The step goes through, or ends a circle of waits with an error of one who waits in it. -/
def Resolves (c : State) (a : Label) (_ : State) : Prop :=
  ∃ (p : Pid) (op : Op) (r : Except Exc op.Ret), a = .run p .done op r ∨
    a = .run p .failed op r ∧ r = .error DBAPIError ∧ TransGen (WaitsFor c) p p

/-- Nothing is left to do, but for startups whose loop is out of fuel. -/
def Over (c : State) : Prop := ∀ p, (c.thread p).Running → Next c p .outOfFuel

/-- These startups had no more fuel than there are intents. -/
theorem Over.spent (h : Over c) {tr : List Label} (hr : Lts.Run Steps (.init w₀) tr c) (p : Pid)
    (hp : (c.thread p).Running) : ∃ fuel, .spawn p (.lifespan fuel) ∈ tr ∧ fuel ≤ c.world.db.intents.length := by
  obtain ⟨k, hlive⟩ := h p hp
  exact spent_of_outOfFuel hr hlive

/-- **Where something is left to do, somebody can go on**, or a circle of waits can be ended. -/
theorem Ordered.progress {n : ℕ} (h : Ordered c) (hn : ∀ p, n ≤ p → ¬ (c.thread p).Running)
    (hover : ¬ Over c) : ∃ p f op r c', Steps c (.run p f op r) c' ∧
      Resolves c (.run p f op r) c' ∧ Ordered c' := by
  by_cases hgo : ∃ p, CanGo c p
  · obtain ⟨p, op, r, c', hs⟩ := hgo
    exact ⟨p, .done, op, r, c', hs, ⟨p, op, r, Or.inl rfl⟩, h.step hs⟩
  · -- otherwise everybody waits, in a circle somewhere
    let s : Set Pid := {p | ∃ op, Next c p op ∧ op ≠ .outOfFuel}
    have hfin : s.Finite := by
      refine (Set.finite_lt_nat n).subset ?_
      rintro p ⟨op, hop, -⟩
      by_contra hp
      exact hn p (not_lt.mp hp) hop.running
    have hne : s.Nonempty := by
      simp only [Over, not_forall] at hover
      obtain ⟨p, hrun, hfuel⟩ := hover
      obtain ⟨op, hop⟩ := Next.of_running hrun
      exact ⟨p, op, hop, fun heq => hfuel (heq ▸ hop)⟩
    have hwaits : ∀ p ∈ s, ∃ q ∈ s, WaitsFor c p q := by
      rintro p ⟨op, hop, hfuel⟩
      rcases h.goes_or_waits hop hfuel with hg | ⟨q, op₁, hop₁, hb⟩
      · exact absurd ⟨p, hg⟩ hgo
      · obtain ⟨op', hop', hord⟩ := h.busy (BlockedBy.holds hb)
        refine ⟨q, ⟨op', hop', ?_⟩, op₁, hop₁, hb⟩
        rintro rfl
        exact BlockedBy.holds hb hord
    obtain ⟨p, -, hcircle⟩ := exists_circle hfin hne hwaits
    obtain ⟨us, k, hk⟩ := h.circle hcircle
    have hs : Steps c (.run p .failed (.failEvents us) (.error DBAPIError)) _ :=
      .run hk ⟨rfl, DBAPIError, Or.inl rfl, rfl⟩
    exact ⟨p, .failed, _, _, _, hs, ⟨p, _, _, Or.inr ⟨rfl, rfl, hcircle⟩⟩, h.step hs⟩

/-- From an ordered state all requests can come to their ends. -/
theorem Ordered.finish {n : ℕ} (h : Ordered c) (hn : ∀ p, n ≤ p → c.thread p = .fresh) :
    ∃ tr' c', Lts.Run (Lts.restrict Steps Resolves) c tr' c' ∧ Ordered c' ∧ Over c' :=
  complete (fun _ h hn hover => h.progress hn hover) h fun p hp hrun => by
    rw [hn p hp] at hrun
    exact hrun

/-- When nothing is left to do, every session is closed. -/
theorem Ordered.closed (h : Ordered c) (hover : Over c) (p : Pid) : Bare p c.world := by
  by_cases hrun : (c.thread p).Running
  · exact h.orderly (hover p hrun)
  · exact h.resting hrun

/-- No request is started on the way. -/
theorem resolved_spawn {tr' : List Label} (hr : Lts.Run (Lts.restrict Steps Resolves) c tr' c')
    {y : Request} : .spawn p y ∉ tr' := by
  refine hr.invariant (fun _ tr => .spawn p y ∉ tr) List.not_mem_nil ?_
  rintro tr c a c' - h ⟨-, q, op, r, ha⟩ hmem
  rcases List.mem_append.mp hmem with hmem | hmem
  · exact h hmem
  · obtain rfl := List.mem_singleton.mp hmem
    rcases ha with ha | ⟨ha, -⟩ <;> cases ha

/-- **What was started can be finished.**  Whatever failed before, from every state that the service
reaches it can go on until every request has come to its end and every session is closed; nothing fails
on the way, but for relays that wait in a circle.  The loop of a startup, which has no bound in the source,
comes to its end with any fuel above the number of intents. -/
theorem completes (hclosed : w₀.Closed) (hc : Consistent w₀) (hO : OutboxOk w₀)
    (hids : (w₀.db.outbox.map (·.id)).Nodup) (hr : Lts.Run Steps (.init w₀) tr c) :
    ∃ tr' c', Lts.Run (Lts.restrict Steps Resolves) c tr' c' ∧
      (∀ p, (c'.thread p).Running → ∃ fuel, .spawn p (.lifespan fuel) ∈ tr ∧
        fuel ≤ c'.world.db.intents.length) ∧
      Over c' ∧ ∀ p, (c'.world.txn p).locks = [] ∧ (c'.world.txn p).writes = [] := by
  have h := (Ordered.init hclosed hc hO hids).run hr
  obtain ⟨n, hn⟩ := run_started hr
  obtain ⟨tr', c', hr', h', hover⟩ := h.finish hn
  refine ⟨tr', c', hr', fun p hp => ?_, hover,
    fun p => ⟨(h'.closed hover p).locks, (h'.closed hover p).writes⟩⟩
  obtain ⟨fuel, hspawn, hle⟩ := hover.spent (hr.append hr'.of_restrict) p hp
  exact ⟨fuel, (List.mem_append.mp hspawn).resolve_right (resolved_spawn hr'), hle⟩

/-- The two relays that wait for each other come to their ends. -/
theorem completes_sample : ∃ (tr tr' : List Label) (c c' : State),
    Lts.Run Steps (.init World.empty) tr c ∧ WaitsFor c 2 3 ∧ WaitsFor c 3 2 ∧
      Lts.Run (Lts.restrict Steps Resolves) c tr' c' ∧ Over c' := by
  obtain ⟨tr, c, hr, h23, h32⟩ := deadlock_run
  obtain ⟨tr', c', hr', -, hover, -⟩ :=
    completes World.empty_closed .empty OutboxOk.empty List.nodup_nil hr
  exact ⟨tr, tr', c, c', hr, h23, h32, hr', hover⟩

end Waits

end PaymentRecon
