import PaymentRecon.Tables.Consistent
import PaymentRecon.Tables.Effects

/-!
# Growth — what no step takes away

SMS transactions, entries of the main stream and the ids and payloads of outbox events stay for ever;
a row that a session holds the lock of is not changed by the others.
-/

namespace PaymentRecon

open Interleave Streams

variable {p : Pid} {w w' : World} {a : Label}

/-- A step of any thread is a step of some session, and of another one than `p` when the thread is
not `p`. -/
theorem wstep_tableStep (h : system.WStep w a w') :
    ∃ q, TableStep q w w' ∧ (a.pid ≠ some p → q ≠ p) := by
  cases a with
  | spawn q r =>
    obtain rfl : w' = w := h
    exact ⟨p + 1, .refl _ _, fun _ => Nat.succ_ne_self p⟩
  | run q f op r => exact ⟨q, exec_tableStep h, fun hq => by simpa [Act.pid] using hq⟩
  | crash q =>
    obtain rfl : w' = w.rollback q := h
    exact ⟨q, .rollback rfl (SessionIs.setTxn rfl), fun hq => by simpa [Act.pid] using hq⟩
  | outer x =>
    obtain rfl : w' = w.tick x := h
    cases x
    exact ⟨p + 1, .same rfl rfl, fun _ => Nat.succ_ne_self p⟩

/-- A step of any thread keeps the tables consistent. -/
theorem Consistent.wstep (h : Consistent w) (hw : system.WStep w a w') : Consistent w' := by
  obtain ⟨q, hq, -⟩ := wstep_tableStep (p := 0) hw
  exact h.tableStep hq

theorem TableStep.others (h : TableStep p w w') {q : Pid} (hq : q ≠ p) : w'.txn q = w.txn q := by
  cases h with
  | aside _ _ _ _ _ _ session => exact session.others q hq
  | lock _ _ _ session => exact session.others q hq
  | store _ _ _ _ _ _ _ _ _ _ _ session => exact session.others q hq
  | settle _ _ _ _ _ _ _ session => exact session.others q hq
  | record _ _ _ _ _ _ _ _ session => exact session.others q hq
  | commit _ session => exact session.others q hq
  | rollback _ session => exact session.others q hq

/-- The session of `p` is left alone by the other threads. -/
theorem wstep_txn (h : system.WStep w a w') (hp : a.pid ≠ some p) : w'.txn p = w.txn p := by
  obtain ⟨q, hq, hne⟩ := wstep_tableStep (p := p) h
  exact hq.others (hne hp).symm

theorem TableStep.nextSms_le (h : TableStep p w w') : w.db.nextSms ≤ w'.db.nextSms := by
  cases h with
  | aside _ _ _ _ hnext _ _ => exact hnext
  | lock _ _ db _ => exact (congrArg Db.nextSms db).ge
  | store _ _ _ _ _ _ _ _ _ _ hnext _ => exact hnext.ge
  | settle _ _ _ _ _ _ db _ => exact (congrArg Db.nextSms db).ge
  | record _ _ _ _ _ _ _ hnext _ =>
    rw [hnext]
    exact (Int.lt_succ w.db.nextSms).le
  | commit db _ =>
    rw [db, (Db.commit_next _ _).2.2.1]
  | rollback db _ => exact (congrArg Db.nextSms db).ge

theorem TableStep.sms_mono (h : TableStep p w w') {r : SMSTransaction} (hr : r ∈ w.db.sms) :
    r ∈ w'.db.sms := by
  cases h with
  | aside _ _ sms _ _ _ _ => exact sms ▸ hr
  | lock _ _ db _ => exact db ▸ hr
  | store _ _ _ _ _ _ _ _ sms _ _ _ => exact sms ▸ hr
  | settle _ _ _ _ _ _ db _ => exact db ▸ hr
  | record _ _ _ _ _ sms _ _ _ => exact sms ▸ hr
  | commit db _ =>
    rw [db, Db.commit_sms]
    exact List.mem_append_left _ hr
  | rollback db _ => exact db ▸ hr

/-- The intents after a step: as before, or after the commit of the session. -/
theorem TableStep.intents (h : TableStep p w w') : w'.db.intents = w.db.intents ∨
    w'.db.intents = (w.db.commit (w.txn p).writes).intents := by
  cases h with
  | aside _ intents _ _ _ _ _ => exact Or.inl intents
  | lock _ _ db _ => exact Or.inl (by rw [db])
  | store _ _ _ _ _ _ _ intents _ _ _ _ => exact Or.inl intents
  | settle _ _ _ _ _ _ db _ => exact Or.inl (by rw [db])
  | record _ _ _ _ intents _ _ _ _ => exact Or.inl intents
  | commit db _ => exact Or.inr (by rw [db])
  | rollback db _ => exact Or.inl (by rw [db])

/-- The intents change when a session commits, and it is over then. -/
theorem TableStep.settles (h : TableStep p w w') : w'.db.intents = w.db.intents ∨
    w'.db = w.db.commit (w.txn p).writes ∧ SessionIs p w w' [] [] := by
  cases h with
  | aside _ intents _ _ _ _ _ => exact Or.inl intents
  | lock _ _ db _ => exact Or.inl (by rw [db])
  | store _ _ _ _ _ _ _ intents _ _ _ _ => exact Or.inl intents
  | settle _ _ _ _ _ _ db _ => exact Or.inl (by rw [db])
  | record _ _ _ _ intents _ _ _ _ => exact Or.inl intents
  | commit db session => exact Or.inr ⟨db, session⟩
  | rollback db _ => exact Or.inl (by rw [db])

/-- An intent keeps its id and its exact amount. -/
theorem TableStep.intent_mono (h : TableStep p w w') {i : PaymentIntent}
    (hi : i ∈ w.db.intents) :
    ∃ j ∈ w'.db.intents, j.id = i.id ∧ j.exactAmount = i.exactAmount := by
  rcases h.intents with heq | heq
  · exact ⟨i, heq ▸ hi, rfl, rfl⟩
  · obtain ⟨j, hj, he⟩ := Db.commit_keeps (w.txn p).writes hi
    exact ⟨j, heq ▸ hj, he.id, he.exact⟩

/-- The session `p` holds the lock of the committed row `i`. -/
def World.Held (w : World) (p : Pid) (i : PaymentIntent) : Prop :=
  i ∈ w.db.intents ∧ i.id ∈ (w.txn p).locks

/-- **A locked row is left alone** by the other sessions. -/
theorem TableStep.held {q : Pid} (h : TableStep q w w') (hc : LocksOk w) (hq : q ≠ p)
    {i : PaymentIntent} (hi : w.Held p i) : w'.Held p i := by
  refine ⟨?_, by rw [h.others (Ne.symm hq)]; exact hi.2⟩
  rcases h.intents with heq | heq
  · exact heq ▸ hi.1
  · rw [heq]
    refine Db.commit_unpaid hi.1 fun sms hm => hq ?_
    exact hc.excl q p i.id (hc.paid q _ _ hm) hi.2

theorem wstep_held (h : system.WStep w a w') (hc : LocksOk w) (hp : a.pid ≠ some p)
    {i : PaymentIntent} (hi : w.Held p i) : w'.Held p i := by
  obtain ⟨q, hq, hne⟩ := wstep_tableStep (p := p) h
  exact hq.held hc (hne hp) hi

/-- What the rows that a locking SELECT answers are known to be. -/
def World.HeldRows (w : World) (p : Pid) (sel : PaymentIntent → Bool)
    (rows : List PaymentIntent) : Prop :=
  ∀ i ∈ rows, w.Held p i ∧ sel i = true

theorem wstep_heldRows (h : system.WStep w a w') (hc : LocksOk w) (hp : a.pid ≠ some p)
    {sel : PaymentIntent → Bool} {rows : List PaymentIntent} (hr : w.HeldRows p sel rows) :
    w'.HeldRows p sel rows :=
  fun i hi => ⟨wstep_held h hc hp (hr i hi).1, (hr i hi).2⟩

theorem locks_heldRows {sel : PaymentIntent → Bool} {r : Except Exc (List PaymentIntent)}
    (h : w.Locks p sel r w') : ∃ rows, r = .ok rows ∧ w'.HeldRows p sel rows := by
  obtain ⟨-, rfl, rfl⟩ := h
  refine ⟨_, rfl, ?_⟩
  intro i hi
  have hmem := List.mem_filter.mp hi
  simp only [Bool.decide_and, Bool.decide_eq_true, Bool.and_eq_true, decide_eq_true_eq] at hmem
  refine ⟨⟨hmem.1, ?_⟩, hmem.2.2.1⟩
  rw [lock_locks, if_pos rfl]
  exact List.mem_append_right _ (List.mem_map_of_mem hi)

theorem intParam_asInt {j : Json} {n : ℤ} (h : intParam j = some n) : j.asInt = n := by
  unfold intParam at h
  split at h
  · split_ifs at h
    exact Option.some.inj h
  · exact absurd h (by simp)

theorem exec_lockPending {f : Fault} {j : Json} {rows : List PaymentIntent}
    (h : exec f p (.lockPending j) w (.ok rows) w') : w'.HeldRows p (pendingWith j.asInt) rows := by
  rcases exec_cases h with hrun | ⟨-, e, -, he⟩ | ⟨hl, -⟩
  · simp only [Op.run] at hrun
    split at hrun
    · obtain ⟨hrows, -⟩ := hrun
      obtain rfl : rows = [] := by simpa using hrows
      exact fun i hi => by simp at hi
    · split at hrun
      · rename_i n hn
        obtain rfl := intParam_asInt hn
        obtain ⟨rows', hrows, hheld⟩ := locks_heldRows hrun
        obtain rfl : rows = rows' := by simpa using hrows
        exact hheld
      · exact absurd hrun.1 (by simp)
  · exact absurd he (by simp)
  · simp [Op.Loses, Op.OnRedis] at hl

theorem exec_lockById {f : Fault} {paymentId orderId : Id} {rows : List PaymentIntent}
    (h : exec f p (.lockById paymentId orderId) w (.ok rows) w') :
    w'.HeldRows p (confirmable paymentId orderId) rows := by
  rcases exec_cases h with hrun | ⟨-, e, -, he⟩ | ⟨hl, -⟩
  · simp only [Op.run] at hrun
    split_ifs at hrun
    · obtain ⟨rows', hrows, hheld⟩ := locks_heldRows hrun
      obtain rfl : rows = rows' := by simpa using hrows
      exact hheld
    · exact absurd hrun.1 (by simp)
  · exact absurd he (by simp)
  · simp [Op.Loses, Op.OnRedis] at hl

/-- A flushed write was flushed before, or the step flushes it. -/
theorem wstep_writes (h : system.WStep w a w') {q : Pid} {x : Write}
    (hx : x ∈ (w'.txn q).writes) : x ∈ (w.txn q).writes ∨
      ∃ f op r r₀, a = .run q f op r ∧ x ∈ op.flushed w r₀ := by
  cases a with
  | spawn p r =>
    obtain rfl : w' = w := h
    exact Or.inl hx
  | run p f op r =>
    rcases exec_effect h with ⟨r₀, heff⟩ | rfl
    · by_cases hq : q = p
      · subst hq
        rw [heff.writes] at hx
        have hmem : x ∈ (w.txn q).writes ++ op.flushed w r₀ := by
          cases op <;> first | exact hx | simp [Op.writesAfter] at hx
        exact (List.mem_append.mp hmem).imp_right fun hx => ⟨f, op, r, r₀, rfl, hx⟩
      · rw [heff.others q hq] at hx
        exact Or.inl hx
    · exact Or.inl hx
  | crash p =>
    obtain rfl : w' = w.rollback p := h
    rw [rollback_txn] at hx
    split_ifs at hx
    · simp [Txn.empty] at hx
    · exact Or.inl hx
  | outer x =>
    obtain rfl : w' = w.tick x := h
    cases x
    exact Or.inl hx

theorem wstep_payIntent (h : system.WStep w a w') {q : Pid} {id : Id} {t : Option Id}
    (hx : Write.payIntent id t ∈ (w'.txn q).writes) : Write.payIntent id t ∈ (w.txn q).writes ∨
      ∃ f i r, a = .run q f (Op.flushPaid i t) r ∧ i.id = id := by
  rcases wstep_writes h hx with hx | ⟨f, op, r, r₀, rfl, hx⟩
  · exact Or.inl hx
  · cases op with
    | flushPaid i s =>
      cases r₀ with
      | ok u =>
        obtain ⟨rfl, rfl⟩ : id = i.id ∧ t = s := by simpa [Op.flushed] using hx
        exact Or.inr ⟨f, i, r, rfl, rfl⟩
      | error e => simp [Op.flushed] at hx
    | insertOrder _ _ _ | insertSms _ _ _ _ _ | insertEvent _ => cases r₀ <;> simp [Op.flushed] at hx
    | _ => simp [Op.flushed] at hx

/-- Entries of the main stream stay. -/
theorem wstep_main (h : system.WStep w a w') {e : StreamId × Fields}
    (he : e ∈ w.main.entries) : e ∈ w'.main.entries := by
  cases a with
  | spawn q r =>
    obtain rfl : w' = w := h
    exact he
  | run q f op r =>
    rcases exec_effect h with ⟨r₀, heff⟩ | rfl
    · rw [heff.main]
      cases op with
      | xadd f => exact Stream.mem_xadd.mpr (Or.inl he)
      | moveDead f x => exact Stream.mem_xadd.mpr (Or.inl he)
      | _ => exact he
    · exact he
  | crash q =>
    obtain rfl : w' = w.rollback q := h
    exact he
  | outer x =>
    obtain rfl : w' = w.tick x := h
    cases x
    exact he

/-- An outbox event after a step: an event from before, one that was claimed, or what a commit made
of an event. -/
theorem wstep_event (h : system.WStep w a w') {e' : OutBoxOrderEvent} (he : e' ∈ w'.db.outbox) :
    e' ∈ w.db.outbox ∨
      (∃ e ∈ w.db.outbox, ∃ t, e' = e.claim t ∧
        ∃ e₀ ∈ w.db.outbox, e₀.id = e.id ∧ (e₀.status = .PENDING ∨ e₀.status = .PROCESSING)) ∨
      ∃ q f r e, a = .run q f Op.commit r ∧ w' = w.commit q ∧
        (e ∈ w.db.outbox ∨ Write.insEvent e ∈ (w.txn q).writes) ∧
        EventEvolves (w.txn q).writes e e' := by
  cases a with
  | spawn q r =>
    obtain rfl : w' = w := h
    exact Or.inl he
  | run q f op r =>
    cases op with
    | commit =>
      have hcommit : w' = w.commit q → ∃ q' f' r' e, Act.run q f Op.commit r =
          (Act.run q' f' Op.commit r' : Label) ∧ w' = w.commit q' ∧
          (e ∈ w.db.outbox ∨ Write.insEvent e ∈ (w.txn q').writes) ∧
          EventEvolves (w.txn q').writes e e' := by
        rintro rfl
        obtain ⟨e, hmem, hev⟩ := Db.mem_commit_outbox (w.txn q).writes he
        exact ⟨q, f, r, e, rfl, rfl, hmem, hev⟩
      rcases exec_cases h with ⟨-, hw⟩ | ⟨rfl, -⟩ | ⟨-, r₀, ⟨-, hw⟩, -⟩
      · exact Or.inr (Or.inr (hcommit hw))
      · exact Or.inl he
      · exact Or.inr (Or.inr (hcommit hw))
    | claimEvents t s l =>
      rcases exec_effect h with ⟨r₀, heff⟩ | rfl
      · obtain ⟨sel, hsel, heq⟩ := heff.outbox
        rw [heq] at he
        obtain ⟨e, hmem, rfl⟩ := List.mem_map.mp he
        split_ifs with hid
        · obtain ⟨e₀, he₀, hid₀⟩ := List.mem_map.mp hid
          obtain ⟨hmem₀, hclaim, -⟩ := hsel.claimable e₀ he₀
          exact Or.inr (Or.inl ⟨e, hmem, t, rfl, e₀, hmem₀, hid₀, hclaim.imp_right And.left⟩)
        · exact Or.inl hmem
      · exact Or.inl he
    | _ =>
      rcases exec_effect h with ⟨r₀, heff⟩ | rfl
      · exact Or.inl (heff.outbox ▸ he)
      · exact Or.inl he
  | crash q =>
    obtain rfl : w' = w.rollback q := h
    exact Or.inl he
  | outer x =>
    obtain rfl : w' = w.tick x := h
    cases x
    exact Or.inl he

/-- An intent after a step: an intent from before, or what a commit made of an intent. -/
theorem wstep_intent (h : system.WStep w a w') {j : PaymentIntent} (hj : j ∈ w'.db.intents) :
    j ∈ w.db.intents ∨ ∃ q f r i, a = .run q f Op.commit r ∧ f ≠ .failed ∧
      (i ∈ w.db.intents ∨ Write.insIntent i ∈ (w.txn q).writes) ∧
      Evolves (w.txn q).writes i j := by
  cases a with
  | spawn q r =>
    obtain rfl : w' = w := h
    exact Or.inl hj
  | run q f op r =>
    rcases exec_effect h with ⟨r₀, heff⟩ | rfl
    · have hintents := heff.intents
      cases op with
      | commit =>
        by_cases hf : f = .failed
        · subst hf
          obtain ⟨rfl, -⟩ := h
          exact Or.inl hj
        · obtain rfl : w' = w.commit q := hintents
          obtain ⟨i, hi, he⟩ := Db.mem_commit (w.txn q).writes hj
          exact Or.inr ⟨q, f, r, i, rfl, hf, hi, he⟩
      | _ => exact Or.inl (hintents ▸ hj)
    · exact Or.inl hj
  | crash q =>
    obtain rfl : w' = w.rollback q := h
    exact Or.inl hj
  | outer x =>
    obtain rfl : w' = w.tick x := h
    cases x
    exact Or.inl hj

/-- Only a commit changes the intents. -/
theorem exec_intents {f : Fault} {op : Op} {r : Except Exc op.Ret} (h : exec f p op w r w')
    (hop : op ≠ .commit) : w'.db.intents = w.db.intents := by
  rcases exec_effect h with ⟨r₀, heff⟩ | rfl
  · have hintents := heff.intents
    cases op with
    | commit => exact absurd rfl hop
    | _ => exact hintents
  · rfl

/-- The id and the payload of an outbox event come from before the step. -/
theorem wstep_outbox_from (h : system.WStep w a w') {e' : OutBoxOrderEvent}
    (he : e' ∈ w'.db.outbox) : ∃ e, e.id = e'.id ∧ e.data = e'.data ∧
      (e ∈ w.db.outbox ∨ ∃ q, Write.insEvent e ∈ (w.txn q).writes ∧ w' = w.commit q) := by
  rcases wstep_event h he with hmem | ⟨e, hmem, t, rfl, -⟩ | ⟨q, f, r, e, -, hw, hmem, hev⟩
  · exact ⟨e', rfl, rfl, Or.inl hmem⟩
  · exact ⟨e, rfl, rfl, Or.inl hmem⟩
  · exact ⟨e, hev.id.symm, hev.data.symm, hmem.imp_right fun hm => ⟨q, hm, hw⟩⟩

/-- Outbox events stay, with their id and their payload. -/
theorem wstep_outbox (h : system.WStep w a w') {e : OutBoxOrderEvent} (he : e ∈ w.db.outbox) :
    ∃ e' ∈ w'.db.outbox, e'.id = e.id ∧ e'.data = e.data := by
  have same : w'.db.outbox = w.db.outbox → ∃ e' ∈ w'.db.outbox, e'.id = e.id ∧ e'.data = e.data :=
    fun heq => ⟨e, heq ▸ he, rfl, rfl⟩
  cases a with
  | spawn q r =>
    obtain rfl : w' = w := h
    exact same rfl
  | run q f op r =>
    rcases exec_effect h with ⟨r₀, heff⟩ | rfl
    · cases op with
      | commit =>
        obtain ⟨e', he', hev⟩ := Db.commit_outbox_keeps (w.txn q).writes (Or.inl he)
        exact ⟨e', heff.outbox ▸ he', hev.id, hev.data⟩
      | claimEvents t s l =>
        obtain ⟨sel, -, heq⟩ := heff.outbox
        rw [heq]
        refine ⟨_, List.mem_map.mpr ⟨e, he, rfl⟩, ?_, ?_⟩ <;> split_ifs <;> rfl
      | _ => exact same heff.outbox
    · exact same rfl
  | crash q =>
    obtain rfl : w' = w.rollback q := h
    exact same rfl
  | outer x =>
    obtain rfl : w' = w.tick x := h
    cases x
    exact same rfl

/-! ## Dead letters -/

/-- The dead letter with the lower id of `x` has the fields `g`, now and later. -/
def World.Serves (w : World) (x : IdArg) (g : Fields) : Prop :=
  (∀ e ∈ w.dead.entries, e.1 = x.lo → e.2 = g) ∧ x.lo ≤ w.dead.last

theorem wstep_dead (h : system.WStep w a w') : w.dead.last ≤ w'.dead.last ∧
    ∀ e ∈ w'.dead.entries, e ∈ w.dead.entries ∨ w.dead.last < e.1 := by
  have same : w'.dead = w.dead → w.dead.last ≤ w'.dead.last ∧
      ∀ e ∈ w'.dead.entries, e ∈ w.dead.entries ∨ w.dead.last < e.1 := by
    intro heq
    rw [heq]
    exact ⟨le_rfl, fun e he => Or.inl he⟩
  cases a with
  | spawn q r =>
    obtain rfl : w' = w := h
    exact same rfl
  | run q f op r =>
    rcases exec_effect h with ⟨r₀, heff⟩ | rfl
    · cases op with
      | xaddDead f =>
        rw [heff.dead]
        refine ⟨(lt_nextId _ _).le, ?_⟩
        intro e he
        rcases Stream.mem_xadd.mp he with he | rfl
        · exact Or.inl he
        · exact Or.inr (lt_nextId _ _)
      | moveDead f x =>
        rw [heff.dead]
        exact ⟨le_rfl, fun e he => Or.inl (Stream.mem_xdel.mp he).1⟩
      | _ => exact same heff.dead
    · exact same rfl
  | crash q =>
    obtain rfl : w' = w.rollback q := h
    exact same rfl
  | outer x =>
    obtain rfl : w' = w.tick x := h
    cases x
    exact same rfl

theorem wstep_serves (h : system.WStep w a w') {x : IdArg} {g : Fields} (hs : w.Serves x g) :
    w'.Serves x g := by
  obtain ⟨hle, hmem⟩ := wstep_dead h
  refine ⟨?_, hs.2.trans hle⟩
  intro e he hlo
  rcases hmem e he with he | hlt
  · exact hs.1 e he hlo
  · exact absurd hlt (not_lt_of_ge (hlo ▸ hs.2))

/-- An entry with the lower id of a range is the first of the range. -/
theorem xrange_serves {x : IdArg} {e : StreamId × Fields} {rest : List (StreamId × Fields)}
    (h : w.dead.xrange x.lo x.hi = e :: rest) : w.Serves x e.2 := by
  have hsorted : ((w.dead.xrange x.lo x.hi).map (·.1)).Pairwise (· < ·) :=
    w.dead.sorted.sublist (List.Sublist.map _ List.filter_sublist)
  have he : e ∈ w.dead.xrange x.lo x.hi := h ▸ List.mem_cons_self
  obtain ⟨hmem, hlo, hhi⟩ := Stream.mem_xrange.mp he
  refine ⟨?_, hlo.trans (w.dead.le_last e hmem)⟩
  intro e' he' hid
  have hr : e' ∈ e :: rest := by
    rw [← h]
    exact Stream.mem_xrange.mpr ⟨he', hid.ge, hid ▸ hlo.trans hhi⟩
  rcases List.mem_cons.mp hr with rfl | hr
  · rfl
  · rw [h, List.map_cons, List.pairwise_cons] at hsorted
    have hlt := hsorted.1 e'.1 (List.mem_map_of_mem hr)
    exact absurd hlt (not_lt_of_ge (hid ▸ hlo))

end PaymentRecon
