import PaymentRecon.Consume.Lifecycle
import PaymentRecon.Requests.Create

/-!
# Batch — what one call of `_process_batch` does to its messages

Every message has an outcome of its own (`outcome`).  A batch gives it to each of its messages as long
as all of them can be processed: the lookups of `amount`, `trace_id` and `type` stand outside the `try`
of `_process_message`, so that a message they fail on ends the batch.
-/

namespace PaymentRecon

open Interleave Streams Requests

namespace Batch

variable {p : Pid} {w w₁ w₂ w' : World} {cs : Calls} {worker : Worker} {m : Message}
  {ms ms' : List Message} {verdict : Message → Except Exc (Option Bool)}

/-! ## The messages of a batch -/

/-- The messages of some entries, as they are decoded at the time `now`. -/
def decoded (now : ℕ) (attempts : Fields → ℤ) (es : List (StreamId × Fields)) : List Message :=
  es.map fun e => ⟨e.1, e.2.loads, attempts e.2, e.2.createdAt.getD now⟩

/-- What is claimed of a pending entry. -/
def claimedMessages (w : World) (x : Pending) : List Message :=
  if 6000 ≤ w.clock - x.deliveredAt then
    decoded w.clock (fun _ => x.timesDelivered) (w.main.xrange x.id x.id)
  else []

/-- What `claim_stale_message` decodes. -/
def staleMessages (w : World) : List Message := (w.group.pel.take 10).flatMap (claimedMessages w)

/-- What `read_messages` decodes. -/
def freshMessages (w : World) : List Message :=
  decoded w.clock (fun fields => fields.attempts.getD 0) (w.group.unread w.main 10)

def messages (w : World) : List Message := staleMessages w ++ freshMessages w

/-! ## Outcomes -/

inductive Outcome
  | acknowledged
  | deadLettered
  | pending
  deriving DecidableEq

/-- From every world the program comes to an end while Redis is up. -/
def Ends {β : Type} (x : App β) : Prop :=
  ∀ p, Reaches system p (fun _ => True) (fun c => c.op.OnRedis → c.fault = .done) x

/-- A handler that comes to an end, leaves the streams alone, and whose answer to a message depends on
nothing else. -/
structure Answers (handler : Handler) (m : Message) (r : Except Exc (Option Bool)) : Prop where
  ends : Ends (handler m)
  apart : (handler m).All Lifecycle.Apart fun _ => True
  answer : ∀ p w cs r' w', Executes p (handler m) w cs r' w' → RedisUp cs → r' = r

def Determined (worker : Worker) (verdict : Message → Except Exc (Option Bool)) : Prop :=
  ∀ handler m, worker.getHandler m.data = .ok (some handler) → Answers handler m (verdict m)

/-- `_process_message` takes the answer of the handler for a success. -/
def accepted : Except Exc (Option Bool) → Bool
  | .ok result => result.getD true
  | .error e => e.kind = .ignoreAndAckMessage

/-- The message has a handler, and the handler succeeds. -/
def succeeds (worker : Worker) (verdict : Message → Except Exc (Option Bool)) (m : Message) : Bool :=
  match worker.getHandler m.data with
  | .ok (some _) => accepted (verdict m)
  | _ => false

/-- What becomes of a message, whatever else is in the batch. -/
def outcome (worker : Worker) (verdict : Message → Except Exc (Option Bool)) (m : Message) : Outcome :=
  match m.data.get "amount" with
  | .ok amount =>
    if amount.truthy = false then .deadLettered
    else if succeeds worker verdict m then .acknowledged
    else if worker.maxRetries ≤ m.attempts then .deadLettered
    else .pending
  | .error _ => if worker.maxRetries ≤ m.attempts then .deadLettered else .pending

/-- The message is a dictionary, and its `type` can be looked up unless the amount is missing. -/
def Processable (worker : Worker) (m : Message) : Prop :=
  ∃ amount, m.data.get "amount" = .ok amount ∧
    (amount.truthy = true → ∃ handler, worker.getHandler m.data = .ok handler)

/-- The fields that `_move_to_dead_letter` writes at the time `now`. -/
def letter (now : ℕ) (m : Message) : Fields :=
  { Fields.none with
    data := some m.data, originalId := some m.id, attempts := some m.attempts, failedAt := some now }

/-- The dead letters with this original id. -/
def lettersOf (w : World) (id : StreamId) : List Fields :=
  (w.dead.entries.filter fun e => e.2.originalId = some id).map (·.2)

/-- The entry waits for an acknowledgement. -/
def Waiting (w : World) (id : StreamId) : Prop := ∃ x ∈ w.group.pel, x.id = id

/-- From `w` to `w'` the message got this outcome. -/
def Settled (w w' : World) (m : Message) : Outcome → Prop
  | .acknowledged => ¬ Waiting w' m.id ∧ lettersOf w' m.id = lettersOf w m.id
  | .deadLettered => ¬ Waiting w' m.id ∧ lettersOf w' m.id = lettersOf w m.id ++ [letter w.clock m]
  | .pending => Waiting w' m.id ∧ lettersOf w' m.id = lettersOf w m.id

/-! ## Executions with Redis up -/

theorem redisUp_append {cs' : Calls} : RedisUp (cs ++ cs') ↔ RedisUp cs ∧ RedisUp cs' :=
  List.forall_mem_append

/-- An operation that never fails while Redis is up. -/
def Firm : Op → Prop
  | .now | .note _ => True
  | op => op.OnRedis

/-- One operation while Redis is up. -/
theorem runs_firm {β : Type} {op : Op} {g : op.Ret → App β} {r : Except Exc β} (hop : Firm op)
    (h : Executes p (await op >>= g) w cs r w') (hup : RedisUp cs) :
    ∃ x w₁ cs₁, op.run p w (.ok x) w₁ ∧ Executes p (g x) w₁ cs₁ r w' ∧ RedisUp cs₁ := by
  rcases runs_await.mp h with ⟨x, w₁, cs₁, hx, hrest, rfl⟩ | ⟨f, e, hx, rfl, -⟩
  · exact ⟨x, w₁, cs₁, hx, hrest, fun c hc => hup c (List.mem_cons_of_mem _ hc)⟩
  · exfalso
    by_cases hr : op.OnRedis
    · exact (exec_redis_error hx hr).2.1 (hup _ List.mem_cons_self hr)
    · have hnever : ∀ e, ¬ op.Fails e := fun e he => by
        cases op <;> first
          | exact he
          | exact hr hop
      rcases exec_cases hx with hx | ⟨-, e', he', -⟩ | ⟨-, -, -, e', he', -⟩
      · cases op <;> first
          | exact hr hop
          | cases hx.1
      · exact hnever e' he'
      · exact hnever e' he'

theorem ends_firm (op : Op) (hop : Firm op) : Ends (await op) := by
  intro p
  refine .perform fun w _ => ?_
  have hrun : ∃ x w', op.run p w (.ok x) w' := by
    cases op with
    | spop k =>
      by_cases hk : w.sets k = ∅
      · exact ⟨none, w, Or.inr ⟨hk, rfl, rfl⟩⟩
      · obtain ⟨a, ha⟩ := Finset.nonempty_iff_ne_empty.mpr hk
        exact ⟨some a, _, Or.inl ⟨a, ha, rfl, rfl⟩⟩
    | xclaim consumer minIdle id =>
      by_cases hc : w.group.claimable w.clock minIdle id
      · exact ⟨_, _, (if_pos hc).mpr ⟨rfl, rfl⟩⟩
      · exact ⟨_, _, (if_neg hc).mpr ⟨rfl, rfl⟩⟩
    | smove | sadd | scard | «exists» | del | sdiffstore | xadd | xaddDead | xreadgroup | xpending
    | xack | xrangeDead | moveDead | now | note => exact ⟨_, _, rfl, rfl⟩
    | _ => exact hop.elim
  obtain ⟨x, w', hx⟩ := hrun
  exact ⟨.done, .ok x, w', hx, fun _ => rfl, trivial⟩

/-- A program made of operations that leave the streams alone does so. -/
theorem runs_apart {β : Type} {x : App β} {r : Except Exc β} {R : Except Exc β → Prop}
    (h : Executes p x w cs r w') (hx : x.All Lifecycle.Apart R) :
    w'.clock = w.clock ∧ w'.main = w.main ∧ w'.dead = w.dead ∧ w'.group = w.group := by
  induction h with
  | ret => exact ⟨rfl, rfl, rfl, rfl⟩
  | raise => exact ⟨rfl, rfl, rfl, rfl⟩
  | @call op k w w₁ w' f a cs r hop _ ih =>
    have hstep : w₁.clock = w.clock ∧ w₁.main = w.main ∧ w₁.dead = w.dead ∧ w₁.group = w.group := by
      rcases exec_effect hop with ⟨r₀, heff⟩ | rfl
      · obtain ⟨hclock, hmain, hdead, hgroup, -⟩ := heff
        have hop := hx.1
        refine ⟨hclock, ?_, ?_, ?_⟩
        · rw [hmain]
          cases op <;> first | exact hop.elim | rfl
        · rw [hdead]
          cases op <;> first | exact hop.elim | rfl
        · rw [hgroup]
          cases op <;> first | exact hop.elim | rfl
      · exact ⟨rfl, rfl, rfl, rfl⟩
    obtain ⟨h₁, h₂, h₃, h₄⟩ := ih (hx.2 a)
    exact ⟨h₁.trans hstep.1, h₂.trans hstep.2.1, h₃.trans hstep.2.2.1, h₄.trans hstep.2.2.2⟩

/-! ## The loop -/

/-- The messages that leave the pending list. -/
def leaving (worker : Worker) (verdict : Message → Except Exc (Option Bool)) (ms : List Message) :
    List StreamId :=
  (ms.filter fun m => outcome worker verdict m ≠ .pending).map (·.id)

/-- The copies that go to the dead-letter stream. -/
def lettersFor (now : ℕ) (worker : Worker) (verdict : Message → Except Exc (Option Bool))
    (ms : List Message) : List Fields :=
  (ms.filter fun m => outcome worker verdict m = .deadLettered).map (letter now)

/-- What the loop over `ms` changes: the pending list and the dead-letter stream. -/
structure Settles (worker : Worker) (verdict : Message → Except Exc (Option Bool))
    (ms : List Message) (w w' : World) : Prop where
  clock : w'.clock = w.clock
  main : w'.main = w.main
  cursor : w'.group.cursor = w.group.cursor
  pel : w'.group.pel = w.group.pel.filter fun x => x.id ∉ leaving worker verdict ms
  dead : w'.dead.entries.map (·.2) =
    w.dead.entries.map (·.2) ++ lettersFor w.clock worker verdict ms

namespace Settles

theorem nil (hclock : w'.clock = w.clock) (hmain : w'.main = w.main) (hdead : w'.dead = w.dead)
    (hgroup : w'.group = w.group) : Settles worker verdict [] w w' :=
  ⟨hclock, hmain, by rw [hgroup], by simp [hgroup, leaving], by simp [hdead, lettersFor]⟩

theorem append (h : Settles worker verdict ms w w₁) (h' : Settles worker verdict ms' w₁ w') :
    Settles worker verdict (ms ++ ms') w w' := by
  refine ⟨h'.clock.trans h.clock, h'.main.trans h.main, h'.cursor.trans h.cursor, ?_, ?_⟩
  · have hboth : leaving worker verdict (ms ++ ms') =
        leaving worker verdict ms ++ leaving worker verdict ms' := by simp [leaving]
    rw [h'.pel, h.pel, List.filter_filter, hboth]
    exact List.filter_congr fun x _ => by simp [Bool.and_comm]
  · rw [h'.dead, h.dead, h.clock, List.append_assoc]
    simp [lettersFor]

/-- One message that stays pending. -/
theorem of_pending (ho : outcome worker verdict m = .pending) (hclock : w'.clock = w.clock)
    (hmain : w'.main = w.main) (hdead : w'.dead = w.dead) (hgroup : w'.group = w.group) :
    Settles worker verdict [m] w w' :=
  ⟨hclock, hmain, by rw [hgroup], by simp [hgroup, leaving, ho], by simp [hdead, lettersFor, ho]⟩

/-- One message that is acknowledged. -/
theorem of_acknowledged (ho : outcome worker verdict m = .acknowledged) (hclock : w'.clock = w.clock)
    (hmain : w'.main = w.main) (hdead : w'.dead = w.dead) (hgroup : w'.group = w.group.xack m.id) :
    Settles worker verdict [m] w w' := by
  refine ⟨hclock, hmain, by rw [hgroup]; rfl, ?_, by simp [hdead, lettersFor, ho]⟩
  rw [hgroup]
  simp [Group.xack, leaving, ho]

/-- One message that is copied and acknowledged. -/
theorem of_deadLettered (ho : outcome worker verdict m = .deadLettered) (hclock : w'.clock = w.clock)
    (hmain : w'.main = w.main) (hdead : w'.dead = w.dead.xadd w.clock (letter w.clock m))
    (hgroup : w'.group = w.group.xack m.id) : Settles worker verdict [m] w w' := by
  refine ⟨hclock, hmain, by rw [hgroup]; rfl, ?_, ?_⟩
  · rw [hgroup]
    simp [Group.xack, leaving, ho]
  · rw [hdead]
    simp [Stream.xadd, lettersFor, ho]

end Settles

theorem runs_acknowledge {id : StreamId} {r : Except Exc Unit}
    (h : Executes p (acknowledge id) w cs r w') (hup : RedisUp cs) :
    r = .ok () ∧ w' = { w with group := w.group.xack id } := by
  obtain ⟨n, w₁, cs₁, hx, hrest, -⟩ := runs_firm (show Firm (.xack id) from trivial) h hup
  obtain ⟨-, rfl, rfl⟩ := runs_ret.mp hrest
  exact ⟨rfl, hx.2⟩

theorem runs_moveToDeadLetter {r : Except Exc Unit} (h : Executes p (moveToDeadLetter m) w cs r w')
    (hup : RedisUp cs) :
    r = .ok () ∧ w' = { w with dead := w.dead.xadd w.clock (letter w.clock m) } := by
  obtain ⟨now, w₁, cs₁, hnow, hrest, hup₁⟩ := runs_firm (show Firm .now from trivial) h hup
  obtain ⟨hnow, rfl⟩ := hnow
  obtain rfl := Except.ok.inj hnow
  obtain ⟨x, w₂, cs₂, hadd, hend, -⟩ :=
    runs_firm (show Firm (.xaddDead (letter w₁.clock m)) from trivial) hrest hup₁
  obtain rfl := hadd.2
  obtain ⟨-, rfl, rfl⟩ := runs_ret.mp hend
  exact ⟨rfl, rfl⟩

/-- The copy and the acknowledgement. -/
theorem runs_deadLetter {r : Except Exc Unit} (ho : outcome worker verdict m = .deadLettered)
    (h : Executes p (do moveToDeadLetter m; acknowledge m.id) w cs r w') (hup : RedisUp cs) :
    r = .ok () ∧ Settles worker verdict [m] w w' := by
  rcases runs_bind.mp h with ⟨_, w₁, cs₁, cs₂, hmove, hack, rfl⟩ | ⟨e, hmove, -⟩
  · obtain ⟨hup₁, hup₂⟩ := redisUp_append.mp hup
    obtain rfl := (runs_moveToDeadLetter hmove hup₁).2
    obtain ⟨rfl, rfl⟩ := runs_acknowledge hack hup₂
    exact ⟨rfl, .of_deadLettered ho rfl rfl rfl rfl⟩
  · exact absurd (runs_moveToDeadLetter hmove hup).1 (by simp)

/-- A failed message is copied once its attempts are used up, and else stays pending. -/
theorem runs_handleFailure {r : Except Exc Unit} {t : Json} (htrace : m.data.get "trace_id" = .ok t)
    (ho : outcome worker verdict m =
      if worker.maxRetries ≤ m.attempts then .deadLettered else .pending)
    (h : Executes p (worker.handleFailure m) w cs r w') (hup : RedisUp cs) :
    r = .ok () ∧ Settles worker verdict [m] w w' := by
  unfold Worker.handleFailure at h
  rw [htrace, Prog.ofExcept_ok, Prog.ret_bind] at h
  split_ifs at h with hmax
  · rw [if_pos hmax] at ho
    rcases runs_tryCatch.mp h with ⟨_, hbody, rfl⟩ | ⟨e, w₁, cs₁, cs₂, hbody, -, rfl⟩
    · exact ⟨rfl, (runs_deadLetter ho hbody hup).2⟩
    · exact absurd (runs_deadLetter ho hbody (redisUp_append.mp hup).1).1 (by simp)
  · rw [if_neg hmax] at ho
    obtain ⟨-, rfl, rfl⟩ := runs_ret.mp h
    exact ⟨rfl, .of_pending ho rfl rfl rfl rfl⟩

/-- What `_process_message` answers, and that it leaves the streams alone. -/
theorem runs_processMessage {r : Except Exc Bool} {t : Json} (hdet : Determined worker verdict)
    (htrace : m.data.get "trace_id" = .ok t) (h : Executes p (worker.processMessage m) w cs r w')
    (hup : RedisUp cs) :
    (w'.clock = w.clock ∧ w'.main = w.main ∧ w'.dead = w.dead ∧ w'.group = w.group) ∧
      ((∃ handler, worker.getHandler m.data = .ok handler) → r = .ok (succeeds worker verdict m)) ∧
      ((¬ ∃ handler, worker.getHandler m.data = .ok handler) → ∃ e, r = .error e) := by
  unfold Worker.processMessage at h
  rw [htrace, Prog.ofExcept_ok, Prog.ret_bind] at h
  obtain ⟨_, w₁, cs₁, hnote, hrest, hup₁⟩ :=
    runs_firm (show Firm (.note (.started m.id)) from trivial) h hup
  obtain rfl := hnote.2
  cases hd : worker.getHandler m.data with
  | error e =>
    rw [hd, Prog.ofExcept_error, Prog.raise_bind] at hrest
    obtain ⟨-, rfl, rfl⟩ := runs_raise.mp hrest
    exact ⟨⟨rfl, rfl, rfl, rfl⟩, fun h => absurd h (by simp), fun _ => ⟨e, rfl⟩⟩
  | ok handler =>
    rw [hd, Prog.ofExcept_ok, Prog.ret_bind] at hrest
    have hfound : ∃ h, Except.ok handler = (.ok h : Except Exc (Option Handler)) := ⟨handler, rfl⟩
    cases handler with
    | none =>
      obtain ⟨-, rfl, rfl⟩ := runs_ret.mp hrest
      exact ⟨⟨rfl, rfl, rfl, rfl⟩, fun _ => by simp [succeeds, hd], fun h => absurd hfound h⟩
    | some handler =>
      obtain ⟨-, hall, hverdict⟩ := hdet handler m hd
      -- the handler never raises past `_process_message`
      have hresult : ∀ cs₂ w₂ a, Executes p (handlerResult handler m) w₁ cs₂ a w₂ → RedisUp cs₂ →
          a = .ok (accepted (verdict m)) ∧ w₂.clock = w₁.clock ∧ w₂.main = w₁.main ∧
            w₂.dead = w₁.dead ∧ w₂.group = w₁.group := by
        intro cs₂ w₂ a hrun hup₂
        rcases runs_tryCatch.mp hrun with ⟨b, hbody, rfl⟩ | ⟨e, w₃, cs₃, cs₄, hbody, hcatch, rfl⟩
        · rcases runs_bind.mp hbody with ⟨x, w₃, cs₃, cs₄, hx, hret, rfl⟩ | ⟨e, -, he⟩
          · obtain ⟨rfl, hb, rfl⟩ := runs_ret.mp hret
            rw [List.append_nil] at hup₂
            exact ⟨by rw [hb, ← hverdict p _ _ _ _ hx hup₂]; rfl, runs_apart hx hall⟩
          · cases he
        · obtain ⟨rfl, rfl, rfl⟩ := runs_ret.mp hcatch
          rw [List.append_nil] at hup₂
          rcases runs_bind.mp hbody with ⟨x, w₃, cs₄, cs₅, hx, hret, rfl⟩ | ⟨e', hx, he⟩
          · obtain ⟨-, he, -⟩ := runs_ret.mp hret
            cases he
          · cases he
            exact ⟨by rw [← hverdict p _ _ _ _ hx hup₂]; rfl, runs_apart hx hall⟩
      rcases runs_bind.mp hrest with ⟨ok, w₂, cs₂, cs₃, hrun, hrest, rfl⟩ | ⟨e, hrun, rfl⟩
      · obtain ⟨hup₂, hup₃⟩ := redisUp_append.mp hup₁
        obtain ⟨hok, hsame⟩ := hresult _ _ _ hrun hup₂
        obtain rfl := Except.ok.inj hok
        obtain ⟨_, w₃, cs₄, hhandled, hend, -⟩ :=
          runs_firm (show Firm (.note (.handled m.id (accepted (verdict m)))) from trivial) hrest hup₃
        obtain rfl := hhandled.2
        obtain ⟨-, rfl, rfl⟩ := runs_ret.mp hend
        exact ⟨hsame, fun _ => by simp [succeeds, hd], fun h => absurd hfound h⟩
      · exact absurd (hresult _ _ _ hrun hup₁).1 (by simp)

theorem get_obj {key : String} {d x : Json} (key' : String) (h : d.get key = .ok x) :
    ∃ y, d.get key' = .ok y := by
  cases d <;> first
    | exact ⟨_, rfl⟩
    | cases h

/-- One message: it gets its outcome, or the exception leaves everything as it was. -/
theorem runs_processOne {r : Except Exc Unit} (hdet : Determined worker verdict)
    (h : Executes p (worker.processOne m) w cs r w') (hup : RedisUp cs) :
    (Processable worker m ∧ r = .ok () ∧ Settles worker verdict [m] w w') ∨
      (¬ Processable worker m ∧ (∃ e, r = .error e) ∧ Settles worker verdict [] w w') := by
  unfold Worker.processOne at h
  cases hamount : m.data.get "amount" with
  | error e =>
    rw [hamount, Prog.ofExcept_error, Prog.raise_bind] at h
    obtain ⟨-, rfl, rfl⟩ := runs_raise.mp h
    refine Or.inr ⟨?_, ⟨e, rfl⟩, .nil rfl rfl rfl rfl⟩
    rintro ⟨amount, ha, -⟩
    exact absurd (hamount.symm.trans ha) (by simp)
  | ok amount =>
    rw [hamount, Prog.ofExcept_ok, Prog.ret_bind] at h
    split_ifs at h with hfalsy
    · -- no amount: the message goes to the dead-letter stream
      have ho : outcome worker verdict m = .deadLettered := by simp [outcome, hamount, hfalsy]
      obtain ⟨rfl, hs⟩ := runs_deadLetter ho h hup
      exact Or.inl ⟨⟨amount, hamount, fun ht => absurd (hfalsy.symm.trans ht) (by simp)⟩, rfl, hs⟩
    · have ho : outcome worker verdict m = if succeeds worker verdict m then .acknowledged
          else if worker.maxRetries ≤ m.attempts then .deadLettered else .pending := by
        simp [outcome, hamount, hfalsy]
      obtain ⟨t, htrace⟩ := get_obj "trace_id" hamount
      have hproc : Processable worker m ↔ ∃ handler, worker.getHandler m.data = .ok handler := by
        refine ⟨?_, fun hh => ⟨amount, hamount, fun _ => hh⟩⟩
        rintro ⟨a, ha, hh⟩
        obtain rfl := Except.ok.inj (hamount.symm.trans ha)
        exact hh (by simpa using hfalsy)
      rcases runs_bind.mp h with ⟨ok, w₁, cs₁, cs₂, hrun, hrest, rfl⟩ | ⟨e, hrun, rfl⟩
      · obtain ⟨hup₁, hup₂⟩ := redisUp_append.mp hup
        obtain ⟨⟨hclock, hmain, hdead, hgroup⟩, hfound, hnot⟩ :=
          runs_processMessage hdet htrace hrun hup₁
        by_cases hh : ∃ handler, worker.getHandler m.data = .ok handler
        · obtain rfl := Except.ok.inj (hfound hh)
          have hstill : Settles worker verdict [] (w : World) w₁ := .nil hclock hmain hdead hgroup
          have hend : r = .ok () ∧ Settles worker verdict [m] w₁ w' := by
            by_cases hs : succeeds worker verdict m = true
            · rw [if_pos hs] at hrest
              obtain ⟨rfl, rfl⟩ := runs_acknowledge hrest hup₂
              exact ⟨rfl, .of_acknowledged (by rw [ho, if_pos hs]) rfl rfl rfl rfl⟩
            · rw [if_neg hs] at hrest
              exact runs_handleFailure htrace (by rw [ho, if_neg hs]) hrest hup₂
          exact Or.inl ⟨hproc.mpr hh, hend.1, hstill.append hend.2⟩
        · obtain ⟨e, he⟩ := hnot hh
          cases he
      · obtain ⟨⟨hclock, hmain, hdead, hgroup⟩, hfound, -⟩ := runs_processMessage hdet htrace hrun hup
        refine Or.inr ⟨fun hp => ?_, ⟨e, rfl⟩, .nil hclock hmain hdead hgroup⟩
        exact absurd (hfound (hproc.mp hp)) (by simp)

/-- The loop over the messages: it comes to its end when all of them can be processed. -/
theorem runs_loop {r : Except Exc Unit} (hdet : Determined worker verdict)
    (h : Executes p (Prog.forEach worker.processOne ms) w cs r w') (hup : RedisUp cs) :
    ((∀ m ∈ ms, Processable worker m) ∧ r = .ok () ∧ Settles worker verdict ms w w') ∨
      (¬ ∀ m ∈ ms, Processable worker m) ∧ ∃ e, r = .error e := by
  induction ms generalizing w cs with
  | nil =>
    obtain ⟨-, rfl, rfl⟩ := runs_ret.mp h
    exact Or.inl ⟨by simp, rfl, .nil rfl rfl rfl rfl⟩
  | cons m ms ih =>
    rcases runs_bind.mp h with ⟨_, w₁, cs₁, cs₂, hone, hrest, rfl⟩ | ⟨e, hone, rfl⟩
    · obtain ⟨hup₁, hup₂⟩ := redisUp_append.mp hup
      rcases runs_processOne hdet hone hup₁ with ⟨hm, -, hs⟩ | ⟨-, ⟨e, he⟩, -⟩
      · rcases ih hrest hup₂ with ⟨hms, rfl, hs'⟩ | ⟨hms, he⟩
        · exact Or.inl ⟨List.forall_mem_cons.mpr ⟨hm, hms⟩, rfl, hs.append hs'⟩
        · exact Or.inr ⟨fun hall => hms (List.forall_mem_cons.mp hall).2, he⟩
      · cases he
    · rcases runs_processOne hdet hone hup with ⟨-, he, -⟩ | ⟨hm, -, -⟩
      · cases he
      · exact Or.inr ⟨fun hall => hm (hall m List.mem_cons_self), e, rfl⟩

/-! ## Fetching the messages -/

theorem runs_decodeAll {attempts : Fields → ℤ} {es : List (StreamId × Fields)}
    {r : Except Exc (List Message)} (h : Executes p (decodeAll attempts es) w cs r w')
    (hup : RedisUp cs) : r = .ok (decoded w.clock attempts es) ∧ w' = w := by
  induction es generalizing cs r w' with
  | nil =>
    obtain ⟨-, rfl, rfl⟩ := runs_ret.mp h
    exact ⟨rfl, rfl⟩
  | cons e es ih =>
    have hone : ∀ cs₁ w₁ a, Executes p (decode attempts e) w cs₁ a w₁ → RedisUp cs₁ →
        a = .ok ⟨e.1, e.2.loads, attempts e.2, e.2.createdAt.getD w.clock⟩ ∧ w₁ = w := by
      intro cs₁ w₁ a hrun hup₁
      obtain ⟨now, w₂, cs₂, ⟨hnow, rfl⟩, hend, -⟩ := runs_firm (show Firm .now from trivial) hrun hup₁
      obtain rfl := Except.ok.inj hnow
      obtain ⟨-, rfl, rfl⟩ := runs_ret.mp hend
      exact ⟨rfl, rfl⟩
    rcases runs_bind.mp h with ⟨m, w₁, cs₁, cs₂, hrun, hrest, rfl⟩ | ⟨x, hrun, rfl⟩
    · obtain ⟨hup₁, hup₂⟩ := redisUp_append.mp hup
      obtain ⟨hm, rfl⟩ := hone _ _ _ hrun hup₁
      obtain rfl := Except.ok.inj hm
      rcases runs_bind.mp hrest with ⟨ms, w₂, cs₃, cs₄, hms, hend, rfl⟩ | ⟨x, hms, rfl⟩
      · obtain ⟨hup₃, -⟩ := redisUp_append.mp hup₂
        obtain ⟨hms, rfl⟩ := ih hms hup₃
        obtain rfl := Except.ok.inj hms
        obtain ⟨-, rfl, rfl⟩ := runs_ret.mp hend
        exact ⟨rfl, rfl⟩
      · exact absurd (ih hms hup₂).1 (by simp)
    · exact absurd (hone _ _ _ hrun hup).1 (by simp)

/-- `read_messages` delivers the fresh messages. -/
theorem runs_readMessages {consumer : String} {r : Except Exc (List Message)}
    (h : Executes p (readMessages consumer 10) w cs r w') (hup : RedisUp cs) :
    r = .ok (freshMessages w) ∧
      w' = { w with group := w.group.deliver consumer w.clock (w.group.unread w.main 10) } := by
  obtain ⟨es, w₁, cs₁, ⟨hes, rfl⟩, hrest, hup₁⟩ :=
    runs_firm (show Firm (.xreadgroup consumer 10) from trivial) h hup
  obtain rfl := Except.ok.inj hes
  exact runs_decodeAll hrest hup₁

/-- Only the deliveries of pending entries changed. -/
structure Redelivered (w w' : World) : Prop where
  clock : w'.clock = w.clock
  main : w'.main = w.main
  dead : w'.dead = w.dead
  cursor : w'.group.cursor = w.group.cursor
  pel : w'.group.pel.map (·.id) = w.group.pel.map (·.id)

theorem Redelivered.trans (h : Redelivered w w₁) (h' : Redelivered w₁ w') : Redelivered w w' :=
  ⟨h'.clock.trans h.clock, h'.main.trans h.main, h'.dead.trans h.dead, h'.cursor.trans h.cursor,
    h'.pel.trans h.pel⟩

theorem runs_claimEntries {consumer : String} {xs : List Pending} {r : Except Exc (List Message)}
    (hnd : (xs.map (·.id)).Nodup) (hin : ∀ x ∈ xs, x ∈ w.group.pel)
    (h : Executes p (claimEntries consumer 6000
      (xs.map fun x => (x.id, w.clock - x.deliveredAt, x.timesDelivered))) w cs r w')
    (hup : RedisUp cs) : r = .ok (xs.flatMap (claimedMessages w)) ∧ Redelivered w w' := by
  induction xs generalizing w cs r w' with
  | nil =>
    obtain ⟨-, rfl, rfl⟩ := runs_ret.mp h
    exact ⟨rfl, rfl, rfl, rfl, rfl, rfl⟩
  | cons x xs ih =>
    rw [List.map_cons, List.nodup_cons] at hnd
    rw [List.forall_mem_cons] at hin
    rw [List.map_cons, claimEntries] at h
    split_ifs at h with hidle
    · obtain ⟨es, w₁, cs₁, hclaim, hrest, hup₁⟩ :=
        runs_firm (show Firm (.xclaim consumer 6000 x.id) from trivial) h hup
      have hable : w.group.claimable w.clock 6000 x.id := ⟨x, hin.1, rfl, by omega⟩
      simp only [Op.run, if_pos hable] at hclaim
      obtain ⟨hes, rfl⟩ := hclaim
      obtain rfl := Except.ok.inj hes
      -- the other entries keep their deliveries
      have hin' : ∀ y ∈ xs, y ∈ (w.group.claim consumer w.clock x.id).pel := by
        intro y hy
        refine List.mem_map.mpr ⟨y, hin.2 y hy, if_neg fun hid => hnd.1 ?_⟩
        exact List.mem_map.mpr ⟨y, hy, hid⟩
      have hdone : Redelivered w { w with group := w.group.claim consumer w.clock x.id } :=
        ⟨rfl, rfl, rfl, rfl, Group.map_id_claim⟩
      have hlater : ∀ cs' r' w'', _ → _ → _ := fun cs' r' w'' =>
        @ih { w with group := w.group.claim consumer w.clock x.id } w'' cs' r' hnd.2 hin'
      rcases runs_bind.mp hrest with ⟨ms, w₂, cs₂, cs₃, hdec, hrest₂, rfl⟩ | ⟨e, hdec, rfl⟩
      · obtain ⟨hup₂, hup₃⟩ := redisUp_append.mp hup₁
        obtain ⟨hms, rfl⟩ := runs_decodeAll hdec hup₂
        obtain rfl := Except.ok.inj hms
        rcases runs_bind.mp hrest₂ with ⟨ms', w₃, cs₄, cs₅, hmore, hend, rfl⟩ | ⟨e, hmore, rfl⟩
        · obtain ⟨hms', hred⟩ := hlater _ _ _ hmore (redisUp_append.mp hup₃).1
          obtain rfl := Except.ok.inj hms'
          obtain ⟨-, rfl, rfl⟩ := runs_ret.mp hend
          refine ⟨?_, hdone.trans hred⟩
          rw [List.flatMap_cons, claimedMessages, if_pos hidle]
          rfl
        · exact absurd (hlater _ _ _ hmore hup₃).1 (by simp)
      · exact absurd (runs_decodeAll hdec hup₁).1 (by simp)
    · rw [List.flatMap_cons, claimedMessages, if_neg hidle, List.nil_append]
      exact ih hnd.2 hin.2 h hup

theorem runs_claimStaleMessage {consumer : String} {r : Except Exc (List Message)}
    (hv : w.group.Valid) (h : Executes p (claimStaleMessage consumer 6000 10) w cs r w')
    (hup : RedisUp cs) : r = .ok (staleMessages w) ∧ Redelivered w w' := by
  obtain ⟨xs, w₁, cs₁, ⟨hxs, rfl⟩, hrest, hup₁⟩ := runs_firm (show Firm (.xpending 10) from trivial) h hup
  obtain rfl := Except.ok.inj hxs
  refine runs_claimEntries ?_ (fun x hx => List.mem_of_mem_take hx) hrest hup₁
  exact hv.nodup.sublist ((List.take_sublist _ _).map _)

/-! ## The ids of a batch -/

/-- An id is claimed once at most. -/
theorem ids_claimedMessages (x : Pending) : ((claimedMessages w x).map (·.id)).Sublist [x.id] := by
  unfold claimedMessages
  split_ifs
  · simp only [decoded, List.map_map, Function.comp_def]
    by_cases hin : ∃ e ∈ w.main.entries, e.1 = x.id
    · obtain ⟨e, he, hid⟩ := hin
      rw [← hid, Stream.xrange_self, Stream.filter_id he]
      exact List.Sublist.refl _
    · rw [Stream.xrange_self, List.filter_eq_nil_iff.mpr fun e he => by simpa using fun hid => hin ⟨e, he, hid⟩]
      exact List.nil_sublist _
  · exact List.nil_sublist _

theorem ids_staleMessages : ((staleMessages w).map (·.id)).Sublist (w.group.pel.map (·.id)) := by
  have hflat : ∀ xs : List Pending,
      ((xs.flatMap (claimedMessages w)).map (·.id)).Sublist (xs.map (·.id)) := by
    intro xs
    induction xs with
    | nil => exact List.Sublist.refl _
    | cons x xs ih =>
      rw [List.flatMap_cons, List.map_append, List.map_cons]
      exact (ids_claimedMessages x).append ih
  exact (hflat _).trans ((List.take_sublist _ _).map _)

theorem ids_freshMessages : (freshMessages w).map (·.id) = (w.group.unread w.main 10).map (·.1) := by
  simp [freshMessages, decoded, Function.comp_def]

theorem cursor_lt_fresh (hm : m ∈ freshMessages w) : w.group.cursor < m.id := by
  have hid : m.id ∈ (freshMessages w).map (·.id) := List.mem_map_of_mem hm
  rw [ids_freshMessages] at hid
  obtain ⟨e, he, heq⟩ := List.mem_map.mp hid
  exact heq ▸ Group.lt_of_mem_unread he

theorem stale_le_cursor (hv : w.group.Valid) (hm : m ∈ staleMessages w) : m.id ≤ w.group.cursor := by
  obtain ⟨x, hx, heq⟩ := List.mem_map.mp (ids_staleMessages.subset (List.mem_map_of_mem hm))
  exact heq ▸ hv.behind x hx

theorem ids_nodup (hv : w.group.Valid) : ((messages w).map (·.id)).Nodup := by
  rw [messages, List.map_append]
  refine (hv.nodup.sublist ids_staleMessages).append ?_ fun i hi hi' => ?_
  · rw [ids_freshMessages]
    refine List.Pairwise.imp (fun h => h.ne) (w.main.sorted.sublist ?_)
    exact ((List.take_sublist _ _).trans List.filter_sublist).map _
  · obtain ⟨m, hm, rfl⟩ := List.mem_map.mp hi
    obtain ⟨m', hm', heq⟩ := List.mem_map.mp hi'
    exact absurd (stale_le_cursor hv hm) (not_le_of_gt (heq ▸ cursor_lt_fresh hm'))

theorem mem_leaving (hnd : (ms.map (·.id)).Nodup) (hm : m ∈ ms) :
    m.id ∈ leaving worker verdict ms ↔ outcome worker verdict m ≠ .pending := by
  constructor
  · intro h
    obtain ⟨m', hm', hid⟩ := List.mem_map.mp h
    obtain ⟨hin, ho⟩ := List.mem_filter.mp hm'
    obtain rfl := List.inj_on_of_nodup_map hnd hin hm hid
    simpa using ho
  · exact fun h => List.mem_map_of_mem (List.mem_filter.mpr ⟨hm, by simpa using h⟩)

/-- The copies of one message among those of the batch. -/
theorem lettersFor_of (hnd : (ms.map (·.id)).Nodup) (hm : m ∈ ms) (now : ℕ) :
    (lettersFor now worker verdict ms).filter (fun f => f.originalId = some m.id) =
      if outcome worker verdict m = .deadLettered then [letter now m] else [] := by
  have hsel : ((fun f : Fields => decide (f.originalId = some m.id)) ∘ letter now) =
      fun x => decide (x.id = m.id) := by
    funext x
    simp [letter]
  rw [lettersFor, List.filter_map, hsel, List.filter_filter]
  have hboth : (ms.filter fun x => decide (x.id = m.id) && decide (outcome worker verdict x = .deadLettered)) =
      (ms.filter fun x => decide (x.id = m.id)).filter
        fun x => outcome worker verdict x = .deadLettered := by
    rw [List.filter_filter]
    exact List.filter_congr fun x _ => Bool.and_comm _ _
  rw [hboth, filter_key hnd hm]
  split_ifs with ho <;> simp [ho]

/-! ## The whole batch -/

theorem Redelivered.waiting (h : Redelivered w w') {id : StreamId} : Waiting w' id ↔ Waiting w id := by
  have hids : ∀ v : World, Waiting v id ↔ id ∈ v.group.pel.map (·.id) := fun v => by simp [Waiting]
  rw [hids, hids, h.pel]

theorem Settles.waiting (h : Settles worker verdict ms w w') {id : StreamId} :
    Waiting w' id ↔ Waiting w id ∧ id ∉ leaving worker verdict ms := by
  unfold Waiting
  rw [h.pel]
  constructor
  · rintro ⟨x, hx, rfl⟩
    obtain ⟨hx, hleft⟩ := List.mem_filter.mp hx
    exact ⟨⟨x, hx, rfl⟩, by simpa using hleft⟩
  · rintro ⟨⟨x, hx, rfl⟩, hleft⟩
    exact ⟨x, List.mem_filter.mpr ⟨hx, by simpa using hleft⟩, rfl⟩

/-- What a batch that comes to its end changes. -/
structure Finished (worker : Worker) (verdict : Message → Except Exc (Option Bool)) (w w' : World) :
    Prop where
  waiting : ∀ m ∈ messages w, Waiting w' m.id ↔ m.id ∉ leaving worker verdict (messages w)
  dead : w'.dead.entries.map (·.2) =
    w.dead.entries.map (·.2) ++ lettersFor w.clock worker verdict (messages w)

/-- The four parts of a batch, one after the other. -/
theorem Finished.of_parts {consumer : String} {w₃ : World} (hv : w.group.Valid)
    (hred : Redelivered w w₁) (hstale : Settles worker verdict (staleMessages w) w₁ w₂)
    (hread : w₃ = { w₂ with group := w₂.group.deliver consumer w₂.clock (w₂.group.unread w₂.main 10) })
    (hunread : w₂.group.unread w₂.main 10 = w.group.unread w.main 10)
    (hfresh : Settles worker verdict (freshMessages w) w₃ w') : Finished worker verdict w w' := by
  have hsplit : leaving worker verdict (messages w) = leaving worker verdict (staleMessages w) ++
      leaving worker verdict (freshMessages w) := by simp [leaving, messages]
  have hleaves : ∀ ms id, id ∈ leaving worker verdict ms → ∃ m ∈ ms, m.id = id := by
    intro ms id h
    obtain ⟨m, hm, hid⟩ := List.mem_map.mp h
    exact ⟨m, (List.mem_filter.mp hm).1, hid⟩
  have hafter : ∀ id, Waiting w₃ id ↔ Waiting w₂ id ∨ id ∈ (freshMessages w).map (·.id) := by
    intro id
    rw [hread, ids_freshMessages, ← hunread]
    constructor
    · rintro ⟨x, hx, rfl⟩
      rcases List.mem_append.mp hx with hx | hx
      · exact Or.inl ⟨x, hx, rfl⟩
      · obtain ⟨e, he, rfl⟩ := List.mem_map.mp hx
        exact Or.inr (List.mem_map_of_mem he)
    · rintro (⟨x, hx, rfl⟩ | h)
      · exact ⟨x, List.mem_append_left _ hx, rfl⟩
      · obtain ⟨e, he, rfl⟩ := List.mem_map.mp h
        exact ⟨_, List.mem_append_right _ (List.mem_map_of_mem he), rfl⟩
  constructor
  · intro m hm
    rw [hfresh.waiting, hafter, hstale.waiting, hred.waiting, hsplit, List.mem_append, not_or]
    rcases List.mem_append.mp hm with hm | hm
    · -- a stale message was pending, and is not read again
      have hwait : Waiting w m.id := by
        obtain ⟨x, hx, hid⟩ := List.mem_map.mp (ids_staleMessages.subset (List.mem_map_of_mem hm))
        exact ⟨x, hx, hid⟩
      have hold : m.id ∉ (freshMessages w).map (·.id) := by
        intro h
        obtain ⟨m', hm', hid⟩ := List.mem_map.mp h
        exact absurd (stale_le_cursor hv hm) (not_le_of_gt (hid ▸ cursor_lt_fresh hm'))
      simp only [hwait, hold, true_and, or_false]
    · -- a fresh message is no stale one
      have hnew : m.id ∉ leaving worker verdict (staleMessages w) := by
        intro h
        obtain ⟨m', hm', hid⟩ := hleaves _ _ h
        exact absurd (stale_le_cursor hv hm') (not_le_of_gt (hid ▸ cursor_lt_fresh hm))
      have hmem : m.id ∈ (freshMessages w).map (·.id) := List.mem_map_of_mem hm
      simp only [hnew, hmem, or_true, true_and, not_false_eq_true]
  · have hclock : w₃.clock = w.clock := by rw [hread]; exact hstale.clock.trans hred.clock
    have hdead : w₃.dead = w₂.dead := by rw [hread]
    rw [hfresh.dead, hdead, hstale.dead, hred.dead, hclock, hred.clock, List.append_assoc]
    simp [lettersFor, messages]

theorem runs_processBatch {r : Except Exc Unit} (hv : w.group.Valid) (hdet : Determined worker verdict)
    (h : Executes p worker.processBatch w cs r w') (hup : RedisUp cs) :
    ((∀ m ∈ messages w, Processable worker m) ∧ r = .ok () ∧ Finished worker verdict w w') ∨
      (¬ ∀ m ∈ messages w, Processable worker m) ∧ ∃ e, r = .error e := by
  rcases runs_bind.mp h with ⟨stale, w₁, cs₁, cs₂, hclaim, hrest, rfl⟩ | ⟨e, hclaim, rfl⟩
  · obtain ⟨hup₁, hup₂⟩ := redisUp_append.mp hup
    obtain ⟨hms, hred⟩ := runs_claimStaleMessage hv hclaim hup₁
    obtain rfl := Except.ok.inj hms
    rcases runs_bind.mp hrest with ⟨_, w₂, cs₃, cs₄, hloop, hrest₂, rfl⟩ | ⟨e, hloop, rfl⟩
    · obtain ⟨hup₃, hup₄⟩ := redisUp_append.mp hup₂
      rcases runs_loop hdet hloop hup₃ with ⟨hstale, -, hset⟩ | ⟨-, e, he⟩
      · -- the worker reads on from where the group stood
        have hunread : w₂.group.unread w₂.main 10 = w.group.unread w.main 10 := by
          rw [Group.unread, hset.cursor, hred.cursor, hset.main, hred.main]
          rfl
        have hfresh : freshMessages w₂ = freshMessages w := by
          rw [freshMessages, hunread, hset.clock, hred.clock]
          rfl
        rcases runs_bind.mp hrest₂ with ⟨ms, w₃, cs₅, cs₆, hread, hloop', rfl⟩ | ⟨e, hread, rfl⟩
        · obtain ⟨hup₅, hup₆⟩ := redisUp_append.mp hup₄
          obtain ⟨hms, hw₃⟩ := runs_readMessages hread hup₅
          obtain rfl := Except.ok.inj hms
          rw [hfresh] at hloop'
          rcases runs_loop hdet hloop' hup₆ with ⟨hall, rfl, hset'⟩ | ⟨hbad, he⟩
          · exact Or.inl ⟨List.forall_mem_append.mpr ⟨hstale, hall⟩, rfl,
              .of_parts hv hred hset hw₃ hunread hset'⟩
          · exact Or.inr ⟨fun hall => hbad (List.forall_mem_append.mp hall).2, he⟩
        · exact absurd (runs_readMessages hread hup₄).1 (by simp)
      · cases he
    · rcases runs_loop hdet hloop hup₂ with ⟨-, he, -⟩ | ⟨hbad, -⟩
      · cases he
      · exact Or.inr ⟨fun hall => hbad (List.forall_mem_append.mp hall).1, e, rfl⟩
  · exact absurd (runs_claimStaleMessage hv hclaim hup).1 (by simp)

/-- The consumer group of a running service is valid. -/
theorem valid_run {tr : List Label} {c : State} (hr : Lts.Run Steps (.init World.empty) tr c) :
    c.world.group.Valid := by
  refine hr.inv (fun c => c.world.group.Valid) .init fun c a c' hv hs => ?_
  have hw := hs.wstep.1
  cases a with
  | spawn q x => exact (show c'.world = c.world from hw) ▸ hv
  | crash q => exact (show c'.world = c.world.rollback q from hw) ▸ hv
  | outer x =>
    cases x
    exact (show c'.world = _ from hw) ▸ hv
  | run q f op r =>
    rcases exec_effect hw with ⟨r₀, heff⟩ | heq
    · rw [heff.group]
      cases op with
      | xreadgroup consumer count => exact hv.deliver
      | xack id => exact hv.xack
      | xclaim consumer minIdle id =>
        simp only [Op.groupAfter]
        split_ifs
        · exact hv.claim
        · exact hv
      | _ => exact hv
    · exact heq ▸ hv

/-- Every message of the batch has got its own outcome, and the batch went on to its end. -/
structure Isolated (worker : Worker) (verdict : Message → Except Exc (Option Bool)) (w : World)
    (r : Except Exc Unit) (w' : World) : Prop where
  returns : r = .ok ()
  settled : ∀ m ∈ messages w, Settled w w' m (outcome worker verdict m)

theorem Finished.settled (hv : w.group.Valid) (h : Finished worker verdict w w') (hm : m ∈ messages w) :
    Settled w w' m (outcome worker verdict m) := by
  have hwait := h.waiting m hm
  rw [mem_leaving (ids_nodup hv) hm, not_not] at hwait
  have hletters : lettersOf w' m.id = lettersOf w m.id ++
      if outcome worker verdict m = .deadLettered then [letter w.clock m] else [] := by
    have hof : ∀ v : World, lettersOf v m.id =
        (v.dead.entries.map (·.2)).filter fun f => f.originalId = some m.id := fun v => by
      rw [lettersOf, List.filter_map]
      rfl
    rw [hof, hof, h.dead, List.filter_append, lettersFor_of (ids_nodup hv) hm]
  cases ho : outcome worker verdict m with
  | acknowledged =>
    rw [ho] at hwait hletters
    exact ⟨by simpa using hwait, by simpa using hletters⟩
  | deadLettered =>
    rw [ho] at hwait hletters
    exact ⟨by simpa using hwait, by simpa using hletters⟩
  | pending =>
    rw [ho] at hwait hletters
    exact ⟨by simpa using hwait, by simpa using hletters⟩

theorem ends_decodeAll (attempts : Fields → ℤ) (es : List (StreamId × Fields)) :
    Ends (decodeAll attempts es) := by
  intro p
  induction es with
  | nil => exact .ret []
  | cons e es ih =>
    refine .bind (.bind (ends_firm .now trivial p) fun _ => .ret _) fun m => ?_
    exact .bind ih fun ms => .ret _

theorem ends_claimEntries (consumer : String) (xs : List (StreamId × ℕ × ℕ)) :
    Ends (claimEntries consumer 6000 xs) := by
  intro p
  induction xs with
  | nil => exact .ret []
  | cons x xs ih =>
    obtain ⟨id, idle, n⟩ := x
    rw [claimEntries]
    split_ifs
    · refine .bind (ends_firm (.xclaim consumer 6000 id) trivial p) fun es => ?_
      exact .bind (ends_decodeAll _ es p) fun ms => .bind ih fun ms' => .ret _
    · exact ih

theorem ends_acknowledge (id : StreamId) : Ends (acknowledge id) :=
  fun p => .bind (ends_firm (.xack id) trivial p) fun _ => .ret ()

theorem ends_deadLetter (m : Message) : Ends (do moveToDeadLetter m; acknowledge m.id) := by
  intro p
  refine .bind (.bind (ends_firm .now trivial p) fun _ => ?_) fun _ => ends_acknowledge m.id p
  exact .bind (ends_firm (.xaddDead _) trivial p) fun _ => .ret ()

theorem ends_processOne (hdet : Determined worker verdict) (m : Message) :
    Ends (worker.processOne m) := by
  intro p
  refine .bind (.ofExcept _) fun amount => ?_
  split_ifs
  · exact ends_deadLetter m p
  · refine .bind ?_ fun ok => ?_
    · refine .bind (.ofExcept _) fun _ => .bind (ends_firm (.note _) trivial p) fun _ => ?_
      cases hd : worker.getHandler m.data with
      | error e => exact .raise e
      | ok handler =>
        rw [Prog.ofExcept_ok, Prog.ret_bind]
        cases handler with
        | none => exact .ret false
        | some handler =>
          refine .bind (.tryCatch (.bind ((hdet handler m hd).ends p) fun _ => .ret _)
            fun _ => .ret _) fun ok => ?_
          exact .bind (ends_firm (.note _) trivial p) fun _ => .ret ok
    · split_ifs
      · exact ends_acknowledge m.id p
      · refine .bind (.ofExcept _) fun _ => ?_
        split_ifs
        · exact .tryCatch (ends_deadLetter m p) fun _ => .ret ()
        · exact .ret ()

/-- A batch comes to an end. -/
theorem ends_processBatch (hdet : Determined worker verdict) : Ends worker.processBatch := by
  intro p
  refine .bind (.bind (ends_firm (.xpending 10) trivial p) fun xs => ends_claimEntries _ xs p)
    fun stale => ?_
  refine .bind (.forEach (fun m => ends_processOne hdet m p) stale) fun _ => ?_
  refine .bind (.bind (ends_firm (.xreadgroup worker.workerId 10) trivial p) fun es =>
    ends_decodeAll _ es p) fun ms => ?_
  exact .forEach (fun m => ends_processOne hdet m p) ms

/-- **The messages of a batch are isolated exactly when all of them can be processed**: when each is a
dictionary whose `type` can be looked up, or that has no amount.  The batch always comes to an end. -/
theorem batch_isolated (hv : w.group.Valid) (hdet : Determined worker verdict) :
    (∃ cs r w', Executes p worker.processBatch w cs r w' ∧ RedisUp cs) ∧
      ∀ cs r w', Executes p worker.processBatch w cs r w' → RedisUp cs →
        (Isolated worker verdict w r w' ↔ ∀ m ∈ messages w, Processable worker m) := by
  obtain ⟨cs, r, w', hrun, hup, -⟩ := ends_processBatch hdet p w trivial
  refine ⟨⟨cs, r, w', hrun, hup⟩, fun cs r w' h hup => ?_⟩
  rcases runs_processBatch hv hdet h hup with ⟨hall, hr, hfin⟩ | ⟨hbad, e, he⟩
  · exact iff_of_true ⟨hr, fun m hm => hfin.settled hv hm⟩ hall
  · refine iff_of_false (fun hi => ?_) hbad
    exact absurd (he.symm.trans hi.returns) (by simp)

/-- A worker whose only handler accepts everything. -/
def accepting : Worker := ⟨"worker-1", 3, [("payment", fun _ => pure (some true))], none⟩

/-- What `enqueue` writes for a payment, and what the replay of a list leaves. -/
def paymentFields : Fields :=
  { Fields.none with
    data := some (transactionData 1 "tx_1" 1500001), createdAt := some 1, attempts := some 0 }

def listFields : Fields :=
  { Fields.none with data := some (.arr []), createdAt := some 1, attempts := some 0 }

/-- A stream with these entries, none of them read. -/
def streamed (fs : List Fields) : World :=
  { World.empty with main := fs.foldl (fun s f => s.xadd 1 f) Stream.empty }

/-- A payment that is too dear, and one without an amount. -/
def dearFields : Fields :=
  { paymentFields with data := some (transactionData 2 "tx_2" 1500002) }

def amountlessFields : Fields :=
  { paymentFields with data := some (.obj [("type", .str "payment")]) }

/-- The first of three entries was read by another worker, six seconds ago. -/
def mixed : World :=
  let w := streamed [paymentFields, dearFields, amountlessFields]
  { w with clock := 6001, group := Group.init.deliver "worker-2" 1 (Group.init.unread w.main 1) }

/-- A payment that is not too dear. -/
def affordable (m : Message) : Bool :=
  match m.data.get "amount" with
  | .ok (.int n) => n ≤ 1500001
  | _ => false

/-- A worker whose only handler takes what is affordable. -/
def choosy : Worker := ⟨"worker-1", 3, [("payment", fun m => pure (some (affordable m)))], none⟩

theorem choosy_determined : Determined choosy fun m => .ok (some (affordable m)) := by
  intro handler m h
  have hhandler : handler = fun m => pure (some (affordable m)) := Worker.getHandler_single rfl rfl h
  subst hhandler
  refine ⟨fun _ => .ret _, trivial, fun p w cs r w' hrun _ => ?_⟩
  exact (runs_ret.mp hrun).2.1

theorem mixed_valid : mixed.group.Valid := Group.Valid.init.deliver

/-- A claimed payment is acknowledged, a fresh one left pending, and a fresh message without an amount
goes to the dead letters. -/
theorem batch_isolated_sample : ∃ (cs : Calls) (r : Except Exc Unit) (w' : World),
    Executes 0 choosy.processBatch mixed cs r w' ∧
      (messages mixed).map (outcome choosy fun m => .ok (some (affordable m))) =
        [.acknowledged, .pending, .deadLettered] ∧
      Isolated choosy (fun m => .ok (some (affordable m))) mixed r w' := by
  obtain ⟨⟨cs, r, w', hrun, hup⟩, hiff⟩ :=
    batch_isolated (p := 0) (w := mixed) mixed_valid choosy_determined
  have hms : messages mixed =
      [⟨toLex (1, 0), transactionData 1 "tx_1" 1500001, 1, 1⟩,
        ⟨toLex (1, 1), transactionData 2 "tx_2" 1500002, 0, 1⟩,
        ⟨toLex (1, 2), .obj [("type", .str "payment")], 0, 1⟩] := rfl
  refine ⟨cs, r, w', hrun, by rw [hms]; rfl, (hiff cs r w' hrun hup).mpr ?_⟩
  rw [hms]
  refine List.forall_mem_cons.mpr ⟨⟨.int 1500001, rfl, fun _ => ⟨_, rfl⟩⟩, ?_⟩
  refine List.forall_mem_cons.mpr ⟨⟨.int 1500002, rfl, fun _ => ⟨_, rfl⟩⟩, ?_⟩
  exact List.forall_mem_singleton.mpr ⟨.null, rfl, fun _ => ⟨_, rfl⟩⟩

/-- A payload that is a list keeps the payment behind it from being processed. -/
theorem batch_stopped : ∃ (cs : Calls) (r : Except Exc Unit) (w' : World) (m : Message),
    Executes 0 accepting.processBatch (streamed [listFields, paymentFields]) cs r w' ∧ RedisUp cs ∧
      m ∈ messages (streamed [listFields, paymentFields]) ∧
      outcome accepting (fun _ => .ok (some true)) m = .acknowledged ∧
      ¬ Settled (streamed [listFields, paymentFields]) w' m .acknowledged := by
  let w := streamed [listFields, paymentFields]
  let es : List (StreamId × Fields) := [(toLex (1, 0), listFields), (toLex (1, 1), paymentFields)]
  let m : Message := ⟨toLex (1, 1), transactionData 1 "tx_1" 1500001, 0, 1⟩
  have hrun : Executes 0 accepting.processBatch w
      [⟨.done, .xpending 10, .ok []⟩, ⟨.done, .xreadgroup "worker-1" 10, .ok es⟩,
        ⟨.done, .now, .ok 0⟩, ⟨.done, .now, .ok 0⟩]
      (.error ⟨.attributeError, "object has no attribute 'get'"⟩)
      { w with group := w.group.deliver "worker-1" 0 es } := by
    refine Runs.call ⟨rfl, rfl⟩ ?_
    refine Runs.call ⟨rfl, rfl⟩ ?_
    refine Runs.call ⟨rfl, rfl⟩ ?_
    exact Runs.call ⟨rfl, rfl⟩ .raise
  refine ⟨_, _, _, m, hrun, by simp [RedisUp], ?_, rfl, fun h => h.1 ?_⟩
  · have hms : messages w = [⟨toLex (1, 0), .arr [], 0, 1⟩, m] := rfl
    rw [hms]
    simp
  · exact ⟨⟨toLex (1, 1), "worker-1", 0, 1⟩, by simp [w, es, Group.deliver], rfl⟩

end Batch

end PaymentRecon
