import PaymentRecon.Model.Ordinary
import PaymentRecon.Tables.Events

/-!
# Retries — an event that may still be relayed has attempts left

A report of a relay puts an event back to PENDING below the limit of attempts only, and nothing else
writes `retry_count`.  So events that start at 0 never wait with their attempts used up.
-/

namespace PaymentRecon

open Interleave Rely

namespace Retries

variable {p : Pid} {w w' : World} {a : Label}

/-- A report that puts the event back only below the limit. -/
def Sober (u : EventUpdate) : Prop := u.status = .FAILED ∨ u.retryCount < MAX_OUTBOX_RETRIES

/-- Every report of a relay is `Sober`. -/
def Lawful : Op → Prop
  | .failEvents us => ∀ u ∈ us, Sober u
  | _ => True

/-! ## The relay -/

theorem retryUpdate_sober {id : Id} {n : ℤ} {failed pending : String} :
    Sober (retryUpdate id n failed pending) := by
  unfold retryUpdate
  split_ifs with h
  · exact Or.inl rfl
  · exact Or.inr (not_le.mp h)

/-- What a relay reports on one event. -/
def Reports (r : Except Exc EventUpdate) : Prop :=
  ∀ u, r = .ok u → u.status = .PUBLISHED ∨ Sober u

theorem reports_ok {u : EventUpdate} (h : u.status = .PUBLISHED ∨ Sober u) : Reports (.ok u) :=
  fun _ hu => Except.ok.inj hu ▸ h

theorem reports_error {e : Exc} : Reports (.error e) := fun _ hu => absurd hu (by simp)

/-- The `try` around an XADD. -/
theorem all_reported {x : App Streams.StreamId} {u : EventUpdate} {v : Exc → EventUpdate}
    (hx : x.All Lawful fun _ => True) (hu : u.status = .PUBLISHED ∨ Sober u)
    (hv : ∀ e, Sober (v e)) :
    (Prog.tryCatch (do let _ ← x; pure u)
      fun e => if e.kind = .redisError then pure (v e) else throw e).All Lawful Reports := by
  have hbody : (do let _ ← x; pure u : App EventUpdate).All Lawful Reports :=
    Prog.All.bind hx (fun _ _ => reports_ok hu) fun _ _ => reports_error
  refine Prog.All.tryCatch hbody (fun _ h => h) fun e _ => ?_
  split_ifs
  · exact reports_ok (Or.inr (hv e))
  · exact reports_error

theorem all_processSingleOutboxEvent (e : ClaimedEvent) :
    (processSingleOutboxEvent e).All Lawful Reports := by
  unfold processSingleOutboxEvent
  split
  · refine all_reported ?_ (Or.inr (Or.inl rfl)) fun _ => retryUpdate_sober
    exact all_seq (all_await trivial) fun _ => all_await trivial
  · refine all_reported ?_ (Or.inl rfl) fun _ => retryUpdate_sober
    exact all_seq (all_await trivial) fun _ => all_await trivial

/-- What a relay reports on its events. -/
def ReportsAll (r : Except Exc (List EventUpdate)) : Prop :=
  ∀ us, r = .ok us → ∀ u ∈ us, u.status = .PUBLISHED ∨ Sober u

theorem all_processEvents (es : List ClaimedEvent) : (processEvents es).All Lawful ReportsAll := by
  induction es with
  | nil =>
    rintro us hus u hu
    cases hus
    exact absurd hu List.not_mem_nil
  | cons e es ih =>
    refine Prog.All.bind (all_processSingleOutboxEvent e) ?_ fun _ _ _ h => absurd h (by simp)
    intro u hu
    refine Prog.All.bind ih ?_ fun _ _ _ h => absurd h (by simp)
    rintro us hus us' hus' v hv
    cases hus'
    rcases List.mem_cons.mp hv with rfl | hv
    · exact hu _ rfl
    · exact hus _ rfl v hv

theorem all_processOutboxEvent : processOutboxEvent.All Lawful fun _ => True := by
  unfold processOutboxEvent
  refine all_seq (all_seq (all_await trivial) fun _ => all_await trivial) fun es => ?_
  split_ifs
  · trivial
  · refine Prog.All.bind (all_processEvents es) ?_ fun _ _ => trivial
    intro us hus
    refine all_seq (all_processOutboxUpdates (fun _ => trivial) (fun us' h u hu => ?_) trivial trivial)
      fun _ => trivial
    exact (hus us rfl u (h u hu).1).resolve_left (h u hu).2

/-! ## The invariant -/

/-- An event that a relay may take has attempts left. -/
def Below (e : OutBoxOrderEvent) : Prop :=
  e.status = .PENDING ∨ e.status = .PROCESSING → e.retryCount.getD 0 < MAX_OUTBOX_RETRIES

/-- What a session is about to write. -/
def Writes : Write → Prop
  | .insEvent e => Below e
  | .eventError u => Sober u
  | _ => True

structure Bounded (w : World) : Prop where
  outbox : OutboxOk w
  ids : EventIds w
  rows : ∀ e ∈ w.db.outbox, Below e
  writes : ∀ p, ∀ x ∈ (w.txn p).writes, Writes x

/-- Every operation is `Lawful`. -/
def LawfulStep (a : Label) : Prop := ∀ p f op r, a = .run p f op r → Lawful op

theorem flushed_writes {op : Op} {r : Except Exc op.Ret} (h : Lawful op) :
    ∀ x ∈ op.flushed w r, Writes x := by
  intro x hx
  cases op with
  | failEvents us =>
    obtain ⟨u, hu, rfl⟩ : ∃ u ∈ us, Write.eventError u = x := by simpa [Op.flushed] using hx
    exact h u hu
  | publishEvents ids =>
    obtain rfl : x = .publish ids := by simpa [Op.flushed] using hx
    trivial
  | insertEvent d =>
    cases r with
    | ok e =>
      obtain rfl : x = .insEvent (w.newEvent d) := by simpa [Op.flushed] using hx
      exact fun _ => show (0 : ℤ) < 5 by decide
    | error e => simp [Op.flushed] at hx
  | insertOrder _ _ _ | insertSms _ _ _ _ _ | flushPaid _ _ =>
    cases r with
    | ok o =>
      simp only [Op.flushed, List.mem_cons, List.not_mem_nil, or_false] at hx
      rcases hx with rfl | rfl <;> trivial
    | error e => simp [Op.flushed] at hx
  | _ => simp [Op.flushed] at hx

theorem below_evolves {ws : List Write} {e e' : OutBoxOrderEvent} (h : EventEvolves ws e e')
    (hws : ∀ x ∈ ws, Writes x) (he : Below e) : Below e' := by
  rcases h.status with rfl | ⟨hst, -⟩ | ⟨u, hu, -, hst, hn⟩
  · exact he
  · rintro (h | h) <;> rw [hst] at h <;> exact absurd h (by simp)
  · intro hopen
    rw [hn]
    rcases hws _ hu with hfail | hlt
    · rw [hst, hfail] at hopen
      exact absurd hopen (by simp)
    · exact hlt

/-- **Step lemma**. -/
theorem Bounded.step (h : Bounded w) (hw : system.WStep w a w') (ha : LawfulStep a) :
    Bounded w' := by
  refine ⟨h.outbox.step hw, h.ids.step h.outbox hw, fun e' he' => ?_, fun p x hx => ?_⟩
  · rcases event_from h.ids h.outbox hw he' with ⟨e, he, hstep⟩ | ⟨q, e, hins, hev⟩
    · cases hstep with
      | stay => exact h.rows _ he
      | claimed _ _ hclaim =>
        have hopen : e.status = .PENDING ∨ e.status = .PROCESSING := hclaim.imp_right And.left
        exact fun _ => h.rows e he hopen
      | updated _ _ _ _ hev => exact below_evolves hev (h.writes _) (h.rows _ he)
    · exact below_evolves hev (h.writes q) (h.writes q _ hins)
  · rcases wstep_writes hw hx with hold | ⟨f, op, r, r₀, rfl, hnew⟩
    · exact h.writes p x hold
    · exact flushed_writes (ha p f op r rfl) x hnew

/-! ## All requests -/

def logic : Rely sig Exc Response World Request Tick where
  machine := system
  cond := fun _ _ _ _ => True
  inv := fun w _ => Bounded w
  start := fun _ => top
  guard := fun _ _ _ op => Lawful op
  final := fun _ _ => top

abbrev Keeps {β : Type} (p : Pid) (x : App β) : Prop := logic.Ensures p top x fun _ => top

theorem keeps_all {β : Type} {x : App β} {A : Op → Prop} {R : Except Exc β → Prop}
    (hx : x.All A R) (hA : ∀ op, A op → Lawful op) : Keeps p x :=
  (Ensures.ofAll hx fun op _ _ h _ => hA op h).mono fun _ _ _ _ => trivial

theorem keeps_prog (q : Request) : Keeps p q.prog := by
  have collects : ∀ op, Collects op → Lawful op := fun op h => by cases op <;> trivial
  have stocks : ∀ op, Stocks op → Lawful op := fun op h => by cases op <;> trivial
  cases q with
  | createOrder userId amount => exact keeps_all (all_createOrder userId amount) stocks
  | confirmPayment orderId paymentId => exact keeps_all (all_confirmPayment orderId paymentId) collects
  | handlePayment m => exact keeps_all (all_seq (all_handlePayment m) fun _ => trivial) collects
  | receiveTransaction s =>
    refine keeps_all (all_receiveTransaction s) fun op h => ?_
    cases op <;> trivial
  | processOutboxEvent => exact keeps_all all_processOutboxEvent fun _ h => h
  | work workerId =>
    refine ensures_turn (fun op h => keeps_all (all_await (A := Lawful) ?_) fun _ h => h)
      (fun m => keeps_all (all_handlePayment m) collects) workerId
    cases op <;> trivial
  | replayDlq y =>
    refine keeps_all (all_replayDlqDashboard y) fun op h => ?_
    cases op <;> trivial
  | lifespan fuel => exact keeps_all (all_lifespan fuel) stocks

theorem sound : logic.Sound where
  prog _ q _ _ _ _ _ := (keeps_prog q).pre fun _ _ _ => trivial
  start _ := Persistent.true.stable
  begin _ _ _ _ h := h
  spawn _ _ _ _ h _ := h
  run f w past p op r w' h hg hx _ := by
    refine Bounded.step h (a := .run p f op r) hx ?_
    rintro p' f' op' r' heq
    cases heq
    exact hg
  crash w past p h _ := Bounded.step (a := .crash p) h rfl fun _ _ _ _ heq => by simp at heq
  outer w past x h _ := Bounded.step (a := .outer x) h rfl fun _ _ _ _ heq => by simp at heq

/-- **Attempts are left** in every state that the service reaches. -/
theorem below_run {w₀ : World} (hclosed : w₀.Closed) (hO : OutboxOk w₀)
    (hids : (w₀.db.outbox.map (·.id)).Nodup) (hnew : ∀ e ∈ w₀.db.outbox, Below e)
    {tr : List Label} {c : State} (hr : Lts.Run Steps (.init w₀) tr c) :
    ∀ e ∈ c.world.db.outbox, Below e := by
  have h₀ : Bounded w₀ := by
    refine ⟨hO, .of_closed hclosed hids, hnew, fun p x hx => ?_⟩
    rw [hclosed p] at hx
    exact absurd hx List.not_mem_nil
  have hH := (sound.derive (P := fun _ _ _ => True) (J := fun _ => True)
    (hr.mono fun _ _ _ h => ⟨h, trivial, trivial⟩) (Holds.init h₀ fun _ => trivial) trivial
    fun _ _ _ _ _ _ _ _ => trivial).1
  exact hH.inv.rows

end Retries

end PaymentRecon
