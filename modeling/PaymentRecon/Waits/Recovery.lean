import PaymentRecon.Consume.Drain
import PaymentRecon.Pipeline.Recoverable
import PaymentRecon.Relay.Drain
import PaymentRecon.Relay.Published
import PaymentRecon.Waits.Completion

/-!
# Recovery — whatever failed, the pipeline can be emptied

When all requests have come to their ends, relays and turns of a worker are started one after the other.
Nobody is in their way, so each runs to its end without an error; the outbox runs dry, and then the stream.
-/

namespace PaymentRecon

open Interleave Lts Streams Requests

namespace Waits

variable {p q : Pid} {w w' : World} {c c' : State} {tr tr' : List Label} {cs : Calls} {n d : ℕ}

/-! ## Requests, one after the other -/

/-- A step of the recovery: the time passes, a relay or a turn of a worker is started, an operation goes
through, or a circle of waits is ended. -/
def Heals (c : State) (a : Label) (c' : State) : Prop :=
  Resolves c a c' ∨ (∃ x, a = .outer x) ∨
    ∃ p, a = .spawn p .processOutboxEvent ∨ ∃ id, a = .spawn p (.work id)

/-- Such a step, and nothing fails: no circle of waits is ended. -/
def Smooth (_ : State) (a : Label) (_ : State) : Prop :=
  (∃ p op r, a = .run p .done op r) ∨ (∃ x, a = .outer x) ∨
    ∃ p, a = .spawn p .processOutboxEvent ∨ ∃ id, a = .spawn p (.work id)

theorem Smooth.heals {a : Label} (h : Smooth c a c') : Heals c a c' := by
  rcases h with ⟨p, op, r, ha⟩ | h
  · exact Or.inl ⟨p, op, r, Or.inl ha⟩
  · exact Or.inr h

theorem Heals.byStream {a : Label} (h : Heals c a c') : Allows Pipeline.ByStream c a c' := by
  rcases h with ⟨p, op, r, rfl | ⟨rfl, -⟩⟩ | ⟨x, rfl⟩ | ⟨p, rfl | ⟨id, rfl⟩⟩ <;> trivial

/-- The service was reached, and nothing runs but startups whose loop is out of fuel. -/
structure Idle (c : State) : Prop where
  reached : ∃ tr, Run (StepsIf Pipeline.ByStream) (.init World.empty) tr c
  finished : Over c

theorem Idle.ordered (h : Idle c) : Ordered c := by
  obtain ⟨tr, hr⟩ := h.reached
  exact (Ordered.init World.empty_closed .empty OutboxOk.empty List.nodup_nil).run hr.of_restrict

theorem Idle.bare (h : Idle c) (p : Pid) : Bare p c.world := h.ordered.closed h.finished p

theorem Idle.fresh (h : Idle c) : ∃ p, c.thread p = .fresh := by
  obtain ⟨tr, hr⟩ := h.reached
  obtain ⟨n, hn⟩ := run_started hr.of_restrict
  exact ⟨n, hn n le_rfl⟩

/-- What a run of the recovery leads to is reached as well. -/
theorem Idle.after (h : Idle c) (hr : Run (restrict Steps Smooth) c tr' c') (hover : Over c') : Idle c' := by
  obtain ⟨tr, hreach⟩ := h.reached
  exact ⟨⟨_, hreach.append (hr.mono fun _ _ _ hs => ⟨hs.1, hs.2.heals.byStream⟩)⟩, hover⟩

/-- The time passes. -/
theorem Idle.wait (h : Idle c) (d : ℕ) : ∃ tr' c', Run (restrict Steps Smooth) c tr' c' ∧ Idle c' ∧
    c'.world = c.world.tick (.tick d) := by
  have hs : Steps c (.outer (.tick d)) _ := .outer
  have hr : Run (restrict Steps Smooth) c _ _ := .single ⟨hs, Or.inr (Or.inl ⟨_, rfl⟩)⟩
  exact ⟨_, _, hr, h.after hr h.finished, rfl⟩

/-- A relay or a turn of a worker. -/
def Tends : Request → Prop
  | .processOutboxEvent | .work _ => True
  | _ => False

theorem Tends.smooth {x : Request} (h : Tends x) : Smooth c (.spawn p x) c' := by
  cases x with
  | processOutboxEvent => exact Or.inr (Or.inr ⟨p, Or.inl rfl⟩)
  | work id => exact Or.inr (Or.inr ⟨p, Or.inr ⟨id, rfl⟩⟩)
  | _ => exact h.elim

/-- **One request**, started some time later, that runs to its end without an error. -/
theorem Idle.serve (h : Idle c) (hp : c.thread p = .fresh) {x : Request} (hx : Tends x)
    {r : Except Exc Response} (hrun : Executes p x.prog (c.world.tick (.tick d)) cs r w')
    (hup : ∀ k ∈ cs, k.fault = .done) :
    ∃ tr' c', Run (restrict Steps Smooth) c tr' c' ∧ Idle c' ∧ c'.world = w' := by
  have htick : Steps c (.outer (.tick d)) (c.next (.outer (.tick d)) (c.world.tick (.tick d)) c.thread) :=
    .outer
  have hspawn := Step.spawn (M := system) (c := c.next (.outer (.tick d)) (c.world.tick (.tick d)) c.thread)
    (q := x) hp
  have hsteps := hrun.steps c.thread (c.past ++ [.outer (.tick d)] ++ [.spawn p x])
  have hlabels := hsteps.labelled (Q := fun a => ∃ op r, a = .run p .done op r) fun a ha => by
    obtain ⟨k, hk, rfl⟩ := List.mem_map.mp ha
    exact ⟨k.op, k.answer, by rw [Call.act, hup k hk]⟩
  have hsmooth : Run (restrict Steps Smooth) _ _ _ := hlabels.mono fun _ a _ hs => by
    obtain ⟨op, r, ha⟩ := hs.2
    exact ⟨hs.1, Or.inl ⟨p, op, r, ha⟩⟩
  have hall := Run.cons ⟨htick, Or.inr (Or.inl ⟨_, rfl⟩)⟩ (Run.cons ⟨hspawn, hx.smooth⟩ hsmooth)
  refine ⟨_, _, hall, h.after hall fun q hq => ?_, rfl⟩
  by_cases hqp : q = p
  · subst hqp
    rw [show (Config.thread _) q = _ from Function.update_self ..] at hq
    cases r <;> exact hq.elim
  · have hsame := Function.update_of_ne hqp (.live (.ofExcept r)) c.thread
    rw [show (Config.thread _) q = _ from hsame] at hq
    obtain ⟨k, hk⟩ := h.finished q hq
    exact ⟨k, hsame.trans hk⟩

/-! ## Relays -/

/-- After a while the locks of earlier relays are stale. -/
theorem Idle.ready (h : Idle c) : ∃ d, Outbox.Ready (c.world.tick (.tick d)) := by
  obtain ⟨tr, hr⟩ := h.reached
  have hbelow := Retries.below_run World.empty_closed OutboxOk.empty List.nodup_nil (by simp [World.empty,
    Db.empty]) hr.of_restrict
  have hacc := Relay.accounted_run World.empty_closed OutboxOk.empty List.nodup_nil (by simp [World.empty,
    Db.empty]) hr.of_restrict
  let d := 300001 + (c.world.db.outbox.map fun e => e.lockedAt.getD 0).sum
  refine ⟨d, h.ordered.ids.committed, fun p => (h.bare p).writes, fun e he hu => ?_, hbelow⟩
  rcases hu with hp | hp
  · exact Or.inl hp
  · obtain ⟨t, ht⟩ := (hacc.recorded e he).locked hp
    refine Or.inr ⟨hp, t, ht, ?_⟩
    have hle : e.lockedAt.getD 0 ≤ (c.world.db.outbox.map fun e => e.lockedAt.getD 0).sum :=
      List.le_sum_of_mem (List.mem_map_of_mem he)
    rw [ht, Option.getD_some] at hle
    show (t : ℤ) < ((c.world.clock + d : ℕ) : ℤ) - lockTimeout
    unfold lockTimeout
    omega

/-- Relays, one after the other. -/
theorem Idle.relays (h : Idle c) (hready : Outbox.Ready c.world) (n : ℕ) :
    ∃ tr' c', Run (restrict Steps Smooth) c tr' c' ∧ Idle c' ∧
      Drain.Rounds Outbox.RerunUp n c.world c'.world := by
  induction n generalizing c with
  | zero => exact ⟨[], c, .nil, h, .nil _⟩
  | succ n ih =>
    obtain ⟨p, hp⟩ := h.fresh
    obtain ⟨cs, r, w₁, hrun, hup⟩ := (hready.tick 0).runs p
    have hround : Outbox.RerunUp c.world w₁ := ⟨p, 0, cs, r, hrun, hup⟩
    obtain ⟨tr₁, c₁, hr₁, h₁, rfl⟩ := h.serve hp (x := .processOutboxEvent) trivial hrun hup
    obtain ⟨tr₂, c₂, hr₂, h₂, hrounds⟩ := ih h₁ (Outbox.rerun_ready hready hround.rerun).1
    exact ⟨_, c₂, hr₁.append hr₂, h₂, .cons hround hrounds⟩

/-- **The outbox is emptied**: when earlier locks are stale, relays run until there is one for every event
that is left. -/
theorem Idle.empties_outbox (h : Idle c) : ∃ tr' c' d n, Run (restrict Steps Smooth) c tr' c' ∧ Idle c' ∧
    Outbox.Ready (c.world.tick (.tick d)) ∧
    Drain.Rounds Outbox.RerunUp n (c.world.tick (.tick d)) c'.world ∧
    (Outbox.unsentRows c.world).length ≤ 100 * n := by
  obtain ⟨d, hready⟩ := h.ready
  obtain ⟨tr₁, c₁, hr₁, h₁, hworld⟩ := h.wait d
  obtain ⟨tr₂, c₂, hr₂, h₂, hrounds⟩ :=
    h₁.relays (hworld ▸ hready) (Outbox.unsentRows c.world).length
  exact ⟨_, c₂, d, _, hr₁.append hr₂, h₂, hready, hworld ▸ hrounds, by omega⟩

/-! ## Turns of a worker -/

/-- An operation of a turn. -/
def Serves (op : Op) : Prop := Consumes op ∨ Collects op

theorem all_processOne (workerId : String) (m : Message) :
    ((paymentWorker workerId).processOne m).All Serves fun _ => True := by
  have hleft : ∀ {β : Type} {x : App β}, x.All Disposes (fun _ => True) → x.All Serves fun _ => True :=
    fun hx => hx.mono (fun _ h => Or.inl h.consumes) fun _ h => h
  unfold Worker.processOne Worker.processMessage
  refine all_seq (all_ofExcept _) fun amount => ?_
  split_ifs
  · exact hleft (all_seq (all_moveToDeadLetter m) fun _ => all_acknowledge m.id)
  · refine all_seq (all_seq (all_ofExcept _) fun _ => all_seq (all_await (Or.inl trivial)) fun _ => ?_)
      fun ok => ?_
    · cases hd : (paymentWorker workerId).getHandler m.data with
      | error e => trivial
      | ok handler =>
        cases handler with
        | none => trivial
        | some handler =>
          obtain rfl := paymentWorker_getHandler hd
          have hhandler : (dependenciesHandler m).All Serves fun _ => True :=
            (all_dependenciesHandler m).mono (fun _ => Or.inr) fun _ h => h
          have hresult : (handlerResult dependenciesHandler m).All Serves fun _ => True :=
            all_try (all_seq hhandler fun _ => trivial) fun _ => trivial
          have hrest : (handlerResult dependenciesHandler m >>= fun ok =>
              await (.note (.handled m.id ok)) >>= fun _ => pure ok).All Serves fun _ => True :=
            all_seq hresult fun _ => all_seq (all_await (Or.inl trivial)) fun _ => trivial
          exact hrest
    · split_ifs
      · exact hleft (all_acknowledge m.id)
      · exact hleft (all_handleFailure _ m)

theorem all_turn (workerId : String) : (paymentWorker workerId).turn.All Serves fun _ => True := by
  have hfetch : ∀ {β : Type} {x : App β}, x.All Fetches (fun _ => True) → x.All Serves fun _ => True :=
    fun hx => hx.mono (fun _ h => Or.inl h.consumes) fun _ h => h
  have hloop : ∀ ms, (Prog.forEach (paymentWorker workerId).processOne ms).All Serves fun _ => True :=
    fun ms => Prog.All.forEach (fun m _ => all_processOne workerId m) trivial
  unfold Worker.turn Worker.processBatch
  refine all_try (all_seq ?_ fun _ => trivial) fun _ => trivial
  refine all_seq (hfetch (all_claimStaleMessage _ _ _)) fun stale => all_seq (hloop stale) fun _ => ?_
  exact all_seq (hfetch (all_readMessages _ _)) fun messages => hloop messages

/-- A write that settles something. -/
def Settling : Write → Prop
  | .payIntent _ _ | .payOrder _ => True
  | _ => False

/-- Such writes leave the outbox alone. -/
theorem commit_outbox {db : Db} {ws : List Write} (h : ∀ x ∈ ws, Settling x) :
    (db.commit ws).outbox = db.outbox := by
  induction ws using List.reverseRecOn with
  | nil => rfl
  | append_singleton ws x ih =>
    rw [Db.commit_append, ← ih fun y hy => h y (List.mem_append_left _ hy)]
    have hx := h x (by simp)
    cases x <;> first | exact hx.elim | rfl

/-- The world while a worker takes a turn: nobody else has a session open, and the own one settles. -/
structure Undisturbed (p : Pid) (outbox : List OutBoxOrderEvent) (w : World) : Prop where
  others : ∀ q, q ≠ p → Bare q w
  writes : ∀ x ∈ (w.txn p).writes, Settling x
  outbox : w.db.outbox = outbox

theorem Undisturbed.run {outbox : List OutBoxOrderEvent} {op : Op} {r : Except Exc op.Ret}
    (h : Undisturbed p outbox w) (hop : Serves op) (hx : op.run p w r w') : Undisturbed p outbox w' := by
  have heff := run_effect hx
  refine ⟨fun q hq => (h.others q hq).congr (heff.others q hq), fun x hmem => ?_, ?_⟩
  · rw [heff.writes] at hmem
    have hflushed : ∀ x ∈ op.flushed w r, Settling x := by
      intro x hx
      cases op with
      | flushPaid i sms =>
        cases r with
        | ok _ => rcases List.mem_pair.mp hx with rfl | rfl <;> trivial
        | error _ => exact absurd hx List.not_mem_nil
      | insertOrder _ _ _ | insertSms _ _ _ _ _ | insertEvent _ | publishEvents _ | failEvents _ =>
        exact (hop.elim id id).elim
      | _ => exact absurd hx List.not_mem_nil
    have hall : x ∈ (w.txn p).writes ++ op.flushed w r := by
      cases op <;> first | exact hmem | exact absurd hmem List.not_mem_nil
    exact (List.mem_append.mp hall).elim (h.writes x) (hflushed x)
  · rw [← h.outbox]
    have hafter := heff.outbox
    cases op with
    | commit => exact hafter.trans (commit_outbox h.writes)
    | claimEvents _ _ _ => exact (hop.elim id id).elim
    | _ => exact hafter

/-- **A turn** of a worker whom nobody disturbs comes to its end without an error. -/
theorem Idle.turn (h : Idle c) (id : String) (p : Pid) (d : ℕ) : ∃ cs r w',
    Executes p (paymentWorker id).turn (c.world.tick (.tick d)) cs r w' ∧ (∀ k ∈ cs, k.fault = .done) ∧
      w'.db.outbox = c.world.db.outbox := by
  have hall : Reaches system p (Undisturbed p c.world.db.outbox) (fun k => k.fault = .done)
      (paymentWorker id).turn := by
    refine .all (all_turn id) fun op hop w hw => ?_
    have hids : (w.db.outbox.map (·.id)).Nodup := hw.outbox ▸ h.ordered.ids.committed
    have hfuel : op ≠ .outOfFuel := by
      rintro rfl
      exact hop.elim (fun h => h) fun h => h
    rcases run_or_blocked (p := p) hids hfuel with ⟨r, w', hx⟩ | ⟨q, hb⟩
    · exact ⟨.done, r, w', hx, rfl, hw.run hop hx⟩
    · refine absurd (hw.others q ?_) (BlockedBy.holds hb)
      cases op <;> first | exact hb.elim | exact hb.1
  have hw : Undisturbed p c.world.db.outbox (c.world.tick (.tick d)) := by
    refine ⟨fun q _ => (h.bare q).congr rfl, fun x hx => ?_, rfl⟩
    rw [show ((c.world.tick (.tick d)).txn p).writes = [] from (h.bare p).writes] at hx
    exact absurd hx List.not_mem_nil
  obtain ⟨cs, r, w', hrun, hup, hw'⟩ := hall _ hw
  exact ⟨cs, r, w', hrun, hup, hw'.outbox⟩

/-- A turn in which nothing fails, when every pending entry is stale. -/
def TurnUp (id : String) (w w' : World) : Prop :=
  ∃ p d cs r, Batch.Stale (w.tick (.tick d)) w.group.pel ∧
    Executes p (paymentWorker id).turn (w.tick (.tick d)) cs r w' ∧ ∀ k ∈ cs, k.fault = .done

theorem TurnUp.turn {id : String} (h : TurnUp id w w') : Batch.Turn (paymentWorker id) w w' := by
  obtain ⟨p, d, cs, r, hstale, hrun, hup⟩ := h
  exact ⟨p, d, cs, r, hstale, hrun, fun k hk _ => hup k hk⟩

/-- Turns of a worker, one after the other. -/
theorem Idle.turns (h : Idle c) (id : String) (n : ℕ) :
    ∃ tr' c', Run (restrict Steps Smooth) c tr' c' ∧ Idle c' ∧
      Drain.Rounds (TurnUp id) n c.world c'.world ∧ c'.world.db.outbox = c.world.db.outbox := by
  induction n generalizing c with
  | zero => exact ⟨[], c, .nil, h, .nil _, rfl⟩
  | succ n ih =>
    obtain ⟨p, hp⟩ := h.fresh
    obtain ⟨d, hstale⟩ := Batch.exists_stale c.world
    obtain ⟨cs, r, w₁, hrun, hup, hsame⟩ := h.turn id p d
    have hturn : TurnUp id c.world w₁ := ⟨p, d, cs, r, hstale, hrun, hup⟩
    obtain ⟨tr₁, c₁, hr₁, h₁, rfl⟩ := h.serve hp (x := .work id) trivial hrun hup
    obtain ⟨tr₂, c₂, hr₂, h₂, hrounds, hsame₂⟩ := ih h₁
    exact ⟨_, c₂, hr₁.append hr₂, h₂, .cons hturn hrounds, hsame₂.trans hsame⟩

/-! ## What the turns take over -/

/-- What is pending is in the stream. -/
def Backed (w : World) : Prop := ∀ x ∈ w.group.pel, ∃ e ∈ w.main.entries, e.1 = x.id

theorem Backed.step {a : Label} (h : Backed w) (hw : system.WStep w a w') : Backed w' := by
  suffices hids : ∀ x ∈ w'.group.pel, (∃ y ∈ w.group.pel, y.id = x.id) ∨
      ∃ e ∈ w.main.entries, e.1 = x.id by
    intro x hx
    rcases hids x hx with ⟨y, hy, hid⟩ | ⟨e, he, hid⟩
    · obtain ⟨e, he, heq⟩ := h y hy
      exact ⟨e, wstep_main hw he, heq.trans hid⟩
    · exact ⟨e, wstep_main hw he, hid⟩
  have hold : ∀ x ∈ w.group.pel, (∃ y ∈ w.group.pel, y.id = x.id) ∨
      ∃ e ∈ w.main.entries, e.1 = x.id := fun x hx => Or.inl ⟨x, hx, rfl⟩
  intro x hx
  cases a with
  | spawn q y =>
    obtain rfl : w' = w := hw
    exact hold x hx
  | crash q =>
    obtain rfl : w' = w.rollback q := hw
    exact hold x hx
  | outer y =>
    obtain rfl : w' = w.tick y := hw
    cases y
    exact hold x hx
  | run q f op r =>
    rcases exec_effect hw with ⟨r₀, heff⟩ | heq
    · rw [heff.group] at hx
      cases op with
      | xreadgroup consumer count =>
        rcases List.mem_append.mp hx with hx | hx
        · exact hold x hx
        · obtain ⟨e, he, rfl⟩ := List.mem_map.mp hx
          exact Or.inr ⟨e, Group.mem_of_mem_unread he, rfl⟩
      | xack id => exact hold x (List.mem_of_mem_filter hx)
      | xclaim consumer minIdle id =>
        simp only [Op.groupAfter] at hx
        split_ifs at hx
        · obtain ⟨y, hy, rfl⟩ := List.mem_map.mp hx
          refine Or.inl ⟨y, hy, ?_⟩
          split_ifs with hid
          · exact hid
          · rfl
        · exact hold x hx
      | _ => exact hold x hx
    · exact hold x (heq ▸ hx)

theorem apart_paymentWorker (id : String) : Lifecycle.HandlersApart (paymentWorker id) := by
  intro d handler m h
  obtain rfl := paymentWorker_getHandler h
  refine (all_dependenciesHandler m).mono (fun op hop => ?_) fun _ h => h
  cases op <;> first | exact hop.elim | trivial

theorem Idle.safe (h : Idle c) : Pipeline.Provenance c.world ∧ Pipeline.Safe c.world c.past := by
  obtain ⟨tr, hr⟩ := h.reached
  have hr' : Run (restrict Steps fun c a c' => Allows Pipeline.ByStream c a c' ∧ True)
      (.init World.empty) tr c := hr.mono fun _ _ _ hs => ⟨hs.1, hs.2, trivial⟩
  obtain ⟨hH, hS⟩ := Pipeline.lawful_run (J := fun c => Pipeline.Safe c.world c.past)
    Pipeline.Provenance.empty hr' Pipeline.Safe.empty
    fun c a c' _ hJ hs hg _ => hs.wstep.2 ▸ hJ.step hs.wstep.1 hg
  exact ⟨hH.inv, hS⟩

theorem Idle.fit (h : Idle c) : Batch.Fit c.world := by
  obtain ⟨tr, hr⟩ := h.reached
  refine ⟨Batch.valid_run hr.of_restrict, ?_, fun e he => ?_⟩
  · exact hr.of_restrict.inv (fun c => Backed c.world) (fun x hx => absurd hx List.not_mem_nil)
      fun _ _ _ hc hs => hc.step hs.wstep.1
  · obtain ⟨d, hd, r, -, traceId, rfl⟩ := h.safe.1.main e he
    exact ⟨_, by rw [Fields.loads, hd, Option.getD_some]; rfl, Or.inr ⟨"payment", rfl⟩⟩

/-- **The stream is emptied**, and the outbox stays as it is. -/
theorem Idle.empties_stream (h : Idle c) (id : String) : ∃ tr' c' n, Run (restrict Steps Smooth) c tr' c' ∧
    Idle c' ∧ Drain.Rounds (TurnUp id) n c.world c'.world ∧ Batch.Dry c'.world ∧
    c'.world.db.outbox = c.world.db.outbox := by
  let todo := 5 * (c.world.group.pel.length + (Batch.backlog c.world).length)
  obtain ⟨tr', c', hr, h', hrounds, hsame⟩ := h.turns id (todo + 4)
  have hdry := (Batch.drained_turns (j := todo) (apart_paymentWorker id) h.fit
    (hrounds.mono fun _ _ hR => hR.turn) (by show 5 * _ ≤ 10 * (5 * _); omega) le_rfl).1
  exact ⟨tr', c', _, hr, h', hrounds, hdry, hsame⟩

/-- What is neither pending nor unread is closed. -/
theorem not_open (h : Batch.Dry w) {e : StreamId × Fields} (he : e ∈ w.main.entries) :
    ¬ w.group.Open e.1 := by
  rintro (hlt | ⟨x, hx, -⟩)
  · have hmem : e ∈ Batch.backlog w := List.mem_filter.mpr ⟨he, by simpa using hlt⟩
    rw [h.backlog] at hmem
    exact List.not_mem_nil hmem
  · rw [h.pel] at hx
    exact List.not_mem_nil hx

/-! ## All of it -/

/-- What has become of an accepted payment. -/
def Settled (c : State) (t : Id) : Prop :=
  (∃ d, Pipeline.Carries t d ∧ Pipeline.Acked c.world c.past d) ∨
    (∃ e ∈ c.world.dead.entries, ∃ d, e.2.data = some d ∧ Pipeline.Carries t d) ∨
    Pipeline.GivenUp c t

theorem Idle.settled (h : Idle c) (hdry : Batch.Dry c.world)
    (hout : ∀ e ∈ c.world.db.outbox, ¬ Outbox.Unsent e) {t : Id}
    (ht : c.thread p = .live (.ret (.accepted t))) : Settled c t := by
  obtain ⟨tr, hr⟩ := h.reached
  have hr' : Run (restrict Steps fun c a c' => Allows Pipeline.ByStream c a c' ∧ True)
      (.init World.empty) tr c := hr.mono fun _ _ _ hs => ⟨hs.1, hs.2, trivial⟩
  have hfinal := (Pipeline.lawful_run (J := fun _ => True) Pipeline.Provenance.empty hr' trivial
    fun _ _ _ _ _ _ _ _ => trivial).1.final ht t rfl
  obtain ⟨s, -, rfl, e, he, traceId, hd⟩ := hfinal
  have hcar : Pipeline.Carries s.id e.data := by
    rw [hd]
    rfl
  have hS := h.safe.2
  rcases hS.events e he with (hw | hw | ⟨hst, hn⟩) | hc
  · exact absurd (Or.inl hw) (hout e he)
  · exact absurd (Or.inr hw) (hout e he)
  · exact Or.inr (Or.inr ⟨e, he, hcar, hst, hn⟩)
  · rcases hS.copies e.data hc with ⟨e', he', hd'⟩ | ⟨e', he', -, hopen, -⟩ | hack
    · exact Or.inr (Or.inl ⟨e', he', e.data, hd', hcar⟩)
    · exact absurd hopen (not_open hdry he')
    · exact Or.inl ⟨e.data, hcar, hack⟩

/-- **Whatever failed, the pipeline can be emptied.**  From every state that the service reaches it goes
on to one where every request has come to its end, every event is published or has been given up, and
the worker has read and acknowledged the whole stream; no operation fails on the way, but for relays that wait
in a circle.  There every payment that was accepted has been handled, lies among the dead letters, or
its event tells that the relay gave it up. -/
theorem recovers (hr : Run (StepsIf Pipeline.ByStream) (.init World.empty) tr c) :
    ∃ tr' c', Run (restrict Steps Heals) c tr' c' ∧ Over c' ∧
      (∀ p, (c'.thread p).Running → ∃ fuel, .spawn p (.lifespan fuel) ∈ tr ++ tr' ∧
        fuel ≤ c'.world.db.intents.length) ∧
      (∀ p, (c'.world.txn p).locks = [] ∧ (c'.world.txn p).writes = []) ∧
      (∀ e ∈ c'.world.db.outbox, e.status = .PUBLISHED ∨ e.status = .FAILED) ∧
      Batch.Dry c'.world ∧
      ∀ p t, c'.thread p = .live (.ret (.accepted t)) → Settled c' t := by
  have hord := (Ordered.init World.empty_closed .empty OutboxOk.empty List.nodup_nil).run hr.of_restrict
  obtain ⟨n, hn⟩ := run_started hr.of_restrict
  obtain ⟨tr₁, c₁, hr₁, -, hover⟩ := hord.finish hn
  have hheals₁ := hr₁.mono fun _ _ _ hs => (⟨hs.1, Or.inl hs.2⟩ : restrict Steps Heals _ _ _)
  have h₁ : Idle c₁ :=
    ⟨⟨_, hr.append (hheals₁.mono fun _ _ _ hs => ⟨hs.1, hs.2.byStream⟩)⟩, hover⟩
  obtain ⟨tr₂, c₂, d, n, hr₂, h₂, hready, hrelays, hn⟩ := h₁.empties_outbox
  obtain ⟨tr₃, c₃, m, hr₃, h₃, -, hdry, hsame⟩ := h₂.empties_stream "worker-1"
  have hsent := (Outbox.drains_up hready hrelays hn).1
  rw [← hsame] at hsent
  have hheals := hheals₁.append ((hr₂.append hr₃).mono fun _ _ _ hs => ⟨hs.1, hs.2.heals⟩)
  refine ⟨_, c₃, hheals, h₃.finished, h₃.finished.spent (hr.of_restrict.append hheals.of_restrict),
    fun p => ⟨(h₃.bare p).locks, (h₃.bare p).writes⟩,
    fun e he => Outbox.done_of_not_unsent (hsent e he), hdry, fun p t ht => ?_⟩
  exact h₃.settled hdry hsent ht

/-- A payment is accepted, and the relay crashes before it updates the event. -/
theorem recovers_sample : ∃ (tr tr' : List Label) (c c' : State),
    Run (StepsIf Pipeline.ByStream) (.init World.empty) tr c ∧
      c.thread 0 = .live (.ret (.accepted 1)) ∧
      Run (restrict Steps Heals) c tr' c' ∧ Batch.Dry c'.world := by
  obtain ⟨tr, c, hr, htest, -⟩ := plays_run 3 Pipeline.byStream
    (Script.webhook 0 1500001 ++ (Script.relay 1).take 5 ++ [.crash 1]) (Pipeline.accepts · 0 1)
    (by decide +kernel) World.empty_closed
  have hr' := hr.mono fun _ _ _ => Pipeline.byStream_steps
  obtain ⟨tr', c', hrec, -, -, -, -, hdry, -⟩ := recovers hr'
  exact ⟨tr, tr', c, c', hr', Pipeline.accepts_iff htest, hrec, hdry⟩

end Waits

end PaymentRecon
