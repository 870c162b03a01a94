import PaymentRecon.Play

/-!
# Webhook — every accepted SMS has its event, and every event its SMS

Runs of the endpoint `receive_transaction` alone, any number of calls at once, with a failure or a
crash possible at every operation.  The ghost state of a call is what it has flushed or committed;
the invariant pairs every new row of `sms_transactions` with the new row of `outbox_order_event` that
the same call committed.
-/

namespace PaymentRecon

open Interleave Protocol

namespace Webhook

/-- What one call has written. -/
inductive Stage
  | idle
  | recorded (r : SMSTransaction)
  | paired (r : SMSTransaction) (e : OutBoxOrderEvent)
  | committed (r : SMSTransaction)

/-- The uncommitted writes. -/
def Stage.writes : Stage → List Write
  | .recorded r => [.insSms r]
  | .paired r e => [.insSms r, .insEvent e]
  | _ => []

/-- The stage after a rollback. -/
def Stage.close : Stage → Stage
  | .committed r => .committed r
  | _ => .idle

@[simp] theorem Stage.close_writes (g : Stage) : g.close.writes = [] := by
  cases g <;> rfl

/-- The event carries the id and the amount of the row. -/
def Carries (e : OutBoxOrderEvent) (r : SMSTransaction) : Prop :=
  ∃ traceId, e.data = transactionData r.id traceId r.smsAmount

/-- A call and the rows it committed. -/
structure Pair where
  call : Pid
  row : SMSTransaction
  event : OutBoxOrderEvent

/-- The call `p` came to its commit. -/
def Committed (past : List Label) (p : Pid) : Prop := ∃ f r, Act.run p f Op.commit r ∈ past

/-- The tables are the old rows followed by the rows of `pairs`. -/
structure Paired (w₀ w : World) (past : List Label) (pairs : List Pair) : Prop where
  sms : w.db.sms = w₀.db.sms ++ pairs.map (·.row)
  outbox : w.db.outbox = w₀.db.outbox ++ pairs.map (·.event)
  carries : ∀ x ∈ pairs, Carries x.event x.row
  committed : ∀ x ∈ pairs, Committed past x.call
  calls : (pairs.map (·.call)).Nodup

structure Inv (w₀ w : World) (past : List Label) (gs : Pid → Stage) (pairs : List Pair) : Prop where
  paired : Paired w₀ w past pairs
  writes : ∀ p, (w.txn p).writes = (gs p).writes
  flushed : ∀ p r e, gs p = .paired r e → Carries e r
  ended : ∀ x ∈ pairs, gs x.call = .committed x.row
  known : ∀ p r, gs p = .committed r → ∃ x ∈ pairs, x.call = p ∧ x.row = r

/-- Only the endpoint `receive_transaction` is called. -/
def OnlyWebhooks : StepCond := fun _ _ a _ =>
  match a with
  | .spawn _ q => ∃ s, q = .receiveTransaction s
  | _ => True

def protocol (w₀ : World) : Protocol sig Exc Response World Request Tick Stage where
  cond := OnlyWebhooks
  inv := fun w past gs => ∃ pairs, Inv w₀ w past gs pairs
  idle := .idle
  final := fun _ r g => ∀ t, r = .ok (.accepted t) → ∃ row, g = .committed row ∧ row.id = t

variable {w₀ w w' : World} {past : List Label} {gs : Pid → Stage} {pairs : List Pair} {p : Pid}

theorem Committed.mono {a : Label} (h : Committed past p) : Committed (past ++ [a]) p := by
  obtain ⟨f, r, hm⟩ := h
  exact ⟨f, r, List.mem_append_left _ hm⟩

theorem Paired.mono {a : Label} (h : Paired w₀ w past pairs) (hsms : w'.db.sms = w.db.sms)
    (hout : w'.db.outbox = w.db.outbox) : Paired w₀ w' (past ++ [a]) pairs :=
  ⟨hsms ▸ h.sms, hout ▸ h.outbox, h.carries, fun x hx => (h.committed x hx).mono, h.calls⟩

/-- A step of `p` that leaves the two tables alone and moves `p` to the stage of its writes. -/
theorem Inv.move {a : Label} {g : Stage} (h : Inv w₀ w past gs pairs)
    (hsms : w'.db.sms = w.db.sms) (hout : w'.db.outbox = w.db.outbox)
    (hothers : ∀ q, q ≠ p → (w'.txn q).writes = (w.txn q).writes)
    (hown : (w'.txn p).writes = g.writes) (hcarries : ∀ r e, g = .paired r e → Carries e r)
    (hcom : ∀ r, g = .committed r ↔ gs p = .committed r) :
    Inv w₀ w' (past ++ [a]) (Function.update gs p g) pairs := by
  have hsame : ∀ q r, Function.update gs p g q = .committed r ↔ gs q = .committed r := by
    intro q r
    by_cases hq : q = p
    · subst hq
      rw [Function.update_self]
      exact hcom r
    · rw [Function.update_of_ne hq]
  refine ⟨h.paired.mono hsms hout, ?_, ?_, ?_, ?_⟩
  · intro q
    by_cases hq : q = p
    · subst hq
      rw [Function.update_self, hown]
    · rw [Function.update_of_ne hq, hothers q hq, h.writes q]
  · intro q r e hq
    by_cases hqp : q = p
    · subst hqp
      rw [Function.update_self] at hq
      exact hcarries r e hq
    · rw [Function.update_of_ne hqp] at hq
      exact h.flushed q r e hq
  · intro x hx
    exact (hsame _ _).mpr (h.ended x hx)
  · intro q r hq
    exact h.known q r ((hsame q r).mp hq)

/-- A step that changes neither the tables nor a session. -/
theorem Inv.stay {a : Label} (h : Inv w₀ w past gs pairs) (hsms : w'.db.sms = w.db.sms)
    (hout : w'.db.outbox = w.db.outbox) (htxn : w'.txn = w.txn) :
    Inv w₀ w' (past ++ [a]) (Function.update gs p (gs p)) pairs :=
  h.move hsms hout (fun q _ => by rw [htxn]) (by rw [htxn, h.writes p]) (h.flushed p)
    fun _ => Iff.rfl

/-- A rollback, by the call itself or by a crash. -/
theorem Inv.rollback {a : Label} (h : Inv w₀ w past gs pairs) :
    Inv w₀ (w.rollback p) (past ++ [a]) (Function.update gs p (gs p).close) pairs := by
  refine h.move rfl rfl ?_ ?_ ?_ ?_
  · intro q hq
    rw [rollback_txn, if_neg hq]
  · rw [rollback_txn, if_pos rfl, Stage.close_writes]
    rfl
  · intro r e hg
    cases hgs : gs p <;> simp [hgs, Stage.close] at hg
  · intro r
    cases hgs : gs p <;> simp [Stage.close]

/-- The commit of a call that flushed its pair. -/
theorem Inv.commit {f : Fault} {res : Except Exc Unit} {r : SMSTransaction}
    {e : OutBoxOrderEvent} (h : Inv w₀ w past gs pairs) (hg : gs p = .paired r e) :
    Inv w₀ (w.commit p) (past ++ [.run p f Op.commit res]) (Function.update gs p (.committed r))
      (pairs ++ [⟨p, r, e⟩]) := by
  have hw : (w.txn p).writes = [.insSms r, .insEvent e] := by
    rw [h.writes p, hg]
    rfl
  have hnew : p ∉ pairs.map (·.call) := by
    intro hm
    obtain ⟨x, hx, rfl⟩ := List.mem_map.mp hm
    have := h.ended x hx
    rw [hg] at this
    exact absurd this (by simp)
  refine ⟨⟨?_, ?_, ?_, ?_, ?_⟩, ?_, ?_, ?_, ?_⟩
  · rw [World.commit_eq, setTxn_db, hw, Db.commit_cons, Db.commit_cons, Db.commit_nil]
    simp only [Write.apply, h.paired.sms, List.map_append, List.append_assoc]
    rfl
  · rw [World.commit_eq, setTxn_db, hw, Db.commit_cons, Db.commit_cons, Db.commit_nil]
    simp only [Write.apply, h.paired.outbox, List.map_append, List.append_assoc]
    rfl
  · intro x hx
    rcases List.mem_append.mp hx with hx | hx
    · exact h.paired.carries x hx
    · obtain rfl := List.mem_singleton.mp hx
      exact h.flushed p r e hg
  · intro x hx
    rcases List.mem_append.mp hx with hx | hx
    · exact (h.paired.committed x hx).mono
    · obtain rfl := List.mem_singleton.mp hx
      exact ⟨f, res, by simp⟩
  · rw [List.map_append, List.nodup_append]
    refine ⟨h.paired.calls, by simp, ?_⟩
    intro a ha b hb
    obtain rfl : b = p := by simpa using hb
    exact fun hab => hnew (hab ▸ ha)
  · intro q
    rw [commit_txn]
    by_cases hq : q = p
    · subst hq
      rw [if_pos rfl, Function.update_self]
      rfl
    · rw [if_neg hq, Function.update_of_ne hq, h.writes q]
  · intro q r' e' hq
    by_cases hqp : q = p
    · subst hqp
      rw [Function.update_self] at hq
      exact absurd hq (by simp)
    · rw [Function.update_of_ne hqp] at hq
      exact h.flushed q r' e' hq
  · intro x hx
    rcases List.mem_append.mp hx with hx | hx
    · have hne : x.call ≠ p := fun heq => hnew (heq ▸ List.mem_map_of_mem hx)
      rw [Function.update_of_ne hne]
      exact h.ended x hx
    · obtain rfl := List.mem_singleton.mp hx
      rw [Function.update_self]
  · intro q r' hq
    by_cases hqp : q = p
    · subst hqp
      rw [Function.update_self] at hq
      cases hq
      exact ⟨_, List.mem_append_right _ (List.mem_singleton_self _), rfl, rfl⟩
    · rw [Function.update_of_ne hqp] at hq
      obtain ⟨x, hx, hxq, hxr⟩ := h.known q r' hq
      exact ⟨x, List.mem_append_left _ hx, hxq, hxr⟩

/-! ## The operations and the functions of a call -/

theorem meets_insertSms (amount inventory : ℤ) (date time payload : String) :
    (protocol w₀).Meets system p (await (.insertSms amount inventory date time payload))
      (fun r g => match r with
        | .ok row => g = .recorded row
        | .error _ => g = .idle) .idle := by
  refine Meets.perform ?_
  rintro f w past gs r w' ⟨pairs, hI⟩ hg hx -
  have hstay : ∀ a : Label, ∀ w', w'.db.sms = w.db.sms → w'.db.outbox = w.db.outbox →
      w'.txn = w.txn → Inv w₀ w' (past ++ [a]) (Function.update gs p .idle) pairs :=
    fun a w' h1 h2 h3 => hg ▸ hI.stay (p := p) h1 h2 h3
  rcases exec_cases hx with hrun | ⟨rfl, e, -, rfl⟩ | ⟨hl, -⟩
  · simp only [Op.run] at hrun
    split_ifs at hrun
    · obtain ⟨-, ⟨-, rfl, rfl⟩ | ⟨-, rfl, rfl⟩⟩ := hrun
      · exact ⟨.idle, ⟨pairs, hstay _ _ rfl rfl rfl⟩, rfl⟩
      · refine ⟨.recorded _, ⟨pairs, hI.move rfl rfl ?_ ?_ (by simp) (by simp [hg])⟩, rfl⟩
        · intro q hq
          rw [flush_writes, if_neg hq, List.append_nil, tickSms_txn]
        · rw [flush_writes, if_pos rfl, tickSms_txn, hI.writes p, hg]
          rfl
    · obtain ⟨rfl, rfl⟩ := hrun
      exact ⟨.idle, ⟨pairs, hstay _ _ rfl rfl rfl⟩, rfl⟩
  · exact ⟨.idle, ⟨pairs, hstay _ _ rfl rfl rfl⟩, rfl⟩
  · simp [Op.Loses, Op.OnRedis] at hl

theorem meets_insertEvent (r : SMSTransaction) (traceId : String) :
    (protocol w₀).Meets system p
      (await (.insertEvent (transactionData r.id traceId r.smsAmount)))
      (fun res g => match res with
        | .ok e => g = .paired r e
        | .error _ => g = .recorded r) (.recorded r) := by
  refine Meets.perform ?_
  rintro f w past gs res w' ⟨pairs, hI⟩ hg hx -
  rcases exec_cases hx with hrun | ⟨rfl, e, -, rfl⟩ | ⟨hl, -⟩
  · obtain ⟨rfl, rfl⟩ := hrun
    refine ⟨.paired r _, ⟨pairs, hI.move rfl rfl ?_ ?_ ?_ (by simp [hg])⟩, rfl⟩
    · intro q hq
      rw [flush_writes, if_neg hq, List.append_nil, tickEvent_txn]
    · rw [flush_writes, if_pos rfl, tickEvent_txn, hI.writes p, hg]
      rfl
    · intro r' e' heq
      obtain ⟨rfl, rfl⟩ := Stage.paired.inj heq
      exact ⟨traceId, rfl⟩
  · exact ⟨_, ⟨pairs, hI.stay rfl rfl rfl⟩, hg⟩
  · simp [Op.Loses, Op.OnRedis] at hl

theorem meets_commit (r : SMSTransaction) (e : OutBoxOrderEvent) :
    (protocol w₀).Meets system p (await .commit)
      (fun res g => match res with
        | .ok _ => g = .committed r
        | .error _ => True) (.paired r e) := by
  refine Meets.perform ?_
  rintro f w past gs res w' ⟨pairs, hI⟩ hg hx -
  rcases exec_cases hx with ⟨rfl, rfl⟩ | ⟨rfl, e', -, rfl⟩ | ⟨-, r₀, ⟨-, rfl⟩, e', -, rfl⟩
  · exact ⟨_, ⟨_, hI.commit hg⟩, rfl⟩
  · exact ⟨_, ⟨pairs, hI.stay rfl rfl rfl⟩, trivial⟩
  · exact ⟨_, ⟨_, hI.commit hg⟩, trivial⟩

theorem meets_rollback (g : Stage) :
    (protocol w₀).Meets system p (await .rollback) (fun r _ => ∃ u, r = .ok u) g := by
  refine Meets.perform ?_
  rintro f w past gs res w' ⟨pairs, hI⟩ - hx -
  rcases exec_cases hx with ⟨rfl, rfl⟩ | ⟨rfl, e, he, -⟩ | ⟨hl, -⟩
  · exact ⟨_, ⟨pairs, hI.rollback⟩, (), rfl⟩
  · exact he.elim
  · simp [Op.Loses, Op.OnRedis] at hl

/-- A rollback followed by an exception. -/
theorem meets_rollback_throw {β : Type} (e : Exc) (g : Stage)
    (post : Except Exc β → Stage → Prop) (hpost : ∀ g, post (.error e) g) :
    (protocol w₀).Meets system p (do await .rollback; throw e) post g := by
  refine Meets.bind (meets_rollback g) ?_ ?_
  · intro _ g _
    exact hpost g
  · rintro _ _ ⟨_, h⟩
    exact absurd h (by simp)

theorem meets_createTransactionService (s : SmsData) :
    (protocol w₀).Meets system p (createTransactionService s)
      (fun r g => match r with
        | .ok row => g = .recorded row
        | .error _ => True) .idle := by
  unfold createTransactionService
  split
  · refine Meets.tryCatch (meets_insertSms _ _ _ _ _) (fun _ _ h => h) ?_
    intro e g _
    split_ifs <;> trivial
  · trivial

theorem meets_createOutboxEventService (r : SMSTransaction) (traceId : String) :
    (protocol w₀).Meets system p
      (createOutboxEventService (transactionData r.id traceId r.smsAmount))
      (fun res g => match res with
        | .ok e => g = .paired r e
        | .error _ => True) (.recorded r) := by
  unfold createOutboxEventService
  split_ifs
  · trivial
  · refine Meets.tryCatch (meets_insertEvent r traceId) (fun _ _ h => h) ?_
    intro e g _
    split_ifs <;> trivial

/-- **The service**: `accepted` is returned at the stage `committed`. -/
theorem meets_handleTransactionService (s : SmsData) :
    (protocol w₀).Meets system p (handleTransactionService s)
      (fun r g => ∀ t, r = .ok t → ∃ row, g = .committed row ∧ row.id = t) .idle := by
  unfold handleTransactionService
  refine Meets.tryCatch (m := fun r g => ∀ t, r = .ok t → ∃ row, g = .committed row ∧ row.id = t)
    ?_ (fun _ _ h => h) ?_
  · refine Meets.bind (meets_createTransactionService s) ?_ (fun _ _ _ => by simp)
    rintro row g rfl
    cases htr : traceIdOf s with
    | error e => simp
    | ok traceId =>
      rw [Prog.ofExcept_ok, Prog.ret_bind]
      refine Meets.bind (meets_createOutboxEventService row traceId) ?_ (fun _ _ _ => by simp)
      rintro e g rfl
      refine Meets.bind (meets_commit row e) ?_ (fun _ _ _ => by simp)
      rintro _ g rfl t ht
      exact ⟨row, rfl, by simpa using ht⟩
  · intro e g _
    split
    all_goals first
      | exact meets_rollback_throw _ g _ fun _ => by simp
      | simp

/-- **The endpoint.** -/
theorem meets_receiveTransaction (s : SmsData) :
    (protocol w₀).Meets system p (receiveTransaction s) ((protocol w₀).final p) .idle := by
  unfold receiveTransaction withDb
  refine Meets.tryCatch (m := (protocol w₀).final p) ?_ (fun _ _ h => h) ?_
  · refine Meets.tryCatch (m := (protocol w₀).final p) ?_ (fun _ _ h => h) ?_
    · refine Meets.bind (meets_handleTransactionService s) ?_ (fun _ _ _ _ => by simp)
      intro t g h t' ht'
      obtain rfl : t = t' := by simpa using ht'
      exact h t rfl
    · intro e g _
      split <;> simp [protocol]
  · intro e g _
    exact meets_rollback_throw _ g _ fun _ => by simp [protocol]

theorem sound (w₀ : World) : (protocol w₀).Sound system := by
  refine ⟨?_, ?_, ?_⟩
  · rintro w past gs p q ⟨pairs, hI⟩ hidle ⟨s, rfl⟩
    refine ⟨.idle, ⟨pairs, ?_⟩, meets_receiveTransaction s⟩
    have hstay : Inv w₀ w (past ++ [.spawn p (.receiveTransaction s)])
        (Function.update gs p (gs p)) pairs := hI.stay rfl rfl rfl
    rwa [hidle] at hstay
  · rintro w past gs p ⟨pairs, hI⟩ -
    exact ⟨_, pairs, hI.rollback⟩
  · rintro w past gs x ⟨pairs, hI⟩ -
    cases x with
    | tick d =>
      refine ⟨pairs, ?_⟩
      have hstay : Inv w₀ (w.tick (.tick d)) (past ++ [.outer (.tick d)])
          (Function.update gs 0 (gs 0)) pairs := hI.stay rfl rfl rfl
      rwa [Function.update_eq_self] at hstay

theorem Inv.init {w₀ : World} (h : w₀.Closed) : Inv w₀ w₀ [] (fun _ => .idle) [] := by
  refine ⟨⟨by simp, by simp, by simp, by simp, by simp⟩, ?_, by simp, by simp, by simp⟩
  intro p
  rw [h p]
  rfl

/-- **Atomicity and deduplication of the webhook.**  After any run of webhook calls the two tables
are the old ones followed by the rows and the events of the same calls, in the same order; the
deduplication keys are distinct; every call that answered `accepted` has its pair there, and no call
that did not come to its commit has one. -/
theorem atomic_and_deduplicated {w₀ : World} (hclosed : w₀.Closed) (hcons : Consistent w₀)
    {c : State} {tr : List Label} (hr : Lts.Run (StepsIf OnlyWebhooks) (.init w₀) tr c) :
    (c.world.db.sms.map (·.key)).Nodup ∧ ∃ pairs : List Pair, Paired w₀ c.world c.past pairs ∧
      (∀ p t, c.thread p = .live (.ret (.accepted t)) → ∃ x ∈ pairs, x.call = p ∧ x.row.id = t) ∧
      ∀ p, ¬ Committed c.past p → ∀ x ∈ pairs, x.call ≠ p := by
  have h0 : (protocol w₀).Holds system (.init w₀) :=
    ⟨fun _ => .idle, ⟨[], Inv.init hclosed⟩, fun _ => rfl⟩
  obtain ⟨gs, ⟨pairs, hI⟩, hF⟩ := (sound w₀).run hr h0
  refine ⟨(hcons.run hr.of_restrict).sms.keys, pairs, hI.paired, ?_, ?_⟩
  · intro p t ht
    have hfit := hF p
    rw [ht] at hfit
    obtain ⟨row, hg, hid⟩ := hfit t rfl
    obtain ⟨x, hx, hxp, hxr⟩ := hI.known p row hg
    exact ⟨x, hx, hxp, hxr ▸ hid⟩
  · rintro p hp x hx rfl
    exact hp (hI.paired.committed x hx)

/-- Only webhooks are called. -/
def webhooks : Check := .label fun a =>
  match a with
  | .spawn _ (.receiveTransaction _) => true
  | .spawn _ _ => false
  | _ => true

theorem webhooks_steps {c c' : State} {a : Label} (h : webhooks.Steps c a c') :
    StepsIf OnlyWebhooks c a c' := by
  obtain ⟨hs, htest⟩ := h
  refine ⟨hs, ?_⟩
  cases a with
  | spawn q x =>
    cases x with
    | receiveTransaction s => exact ⟨s, rfl⟩
    | _ => exact absurd htest (by simp [webhooks, Check.label])
  | _ => trivial

/-- The answers to an accepted call, a duplicate of it and one whose event could not be stored. -/
def answered (c : State) : Bool :=
  (match c.thread 0 with
    | .live (.ret (.accepted 1)) => true
    | _ => false) &&
  (match c.thread 1 with
    | .live (.raise e) => e = httpException 400 "The transaction data already exists"
    | _ => false) &&
  (match c.thread 2 with
    | .live (.raise e) => e = httpException 500 "Internal Error"
    | _ => false)

/-- The same SMS twice, and one for which PostgreSQL fails between its two rows. -/
theorem atomic_and_deduplicated_sample : ∃ (c : State) (tr : List Label),
    Lts.Run (StepsIf OnlyWebhooks) (.init World.empty) tr c ∧ answered c = true ∧
      (c.world.db.sms.map (·.key)).Nodup ∧
      ∃ pairs : List Pair, Paired World.empty c.world c.past pairs ∧
        (∀ p t, c.thread p = .live (.ret (.accepted t)) →
          ∃ x ∈ pairs, x.call = p ∧ x.row.id = t) ∧
        ∀ p, ¬ Committed c.past p → ∀ x ∈ pairs, x.call ≠ p := by
  obtain ⟨tr, c, hr, htest, -⟩ := plays_run 3 webhooks
    (Script.webhook 0 1500001 ++
      .spawn 1 (.receiveTransaction (sampleTransfer 1500001)) :: Move.goes 1 3 ++
      [.spawn 2 (.receiveTransaction (sampleTransfer 1500002)), .go 2 none, .fail 2 DBAPIError,
        .go 2 none]) answered (by decide +kernel) World.empty_closed
  have hr' := hr.mono fun _ _ _ => webhooks_steps
  exact ⟨c, tr, hr', htest, atomic_and_deduplicated World.empty_closed Consistent.empty hr'⟩

end Webhook

end PaymentRecon
