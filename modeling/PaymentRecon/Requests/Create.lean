import PaymentRecon.Requests.Retry
import PaymentRecon.Tables.Effects

/-!
# Create — what a failed `POST /orders/create-order` leaves behind

The endpoint answers with an error in two ways: the service gave up, and had undone its allocation; or
the commit in the router, or the refresh after it, failed.  Nothing undoes the allocation then.
-/

namespace PaymentRecon

open Interleave SetStore

namespace Requests

variable {p : Pid} {userId : Id} {amount a : Amount} {w w₁ w' : World} {cs : Calls}

/-- Redis is reachable throughout. -/
def RedisUp (cs : Calls) : Prop := ∀ c ∈ cs, c.op.OnRedis → c.fault = .done

theorem RedisUp.calm (h : RedisUp cs) : ∀ c ∈ cs, Calm c := fun c hc hr => Or.inl (h c hc hr)

/-- The tables of orders and intents and the three sets are the same. -/
structure Untouched (w w' : World) : Prop where
  orders : w'.db.orders = w.db.orders
  intents : w'.db.intents = w.db.intents
  sets : w'.sets = w.sets

/-- Neither the commit nor the refresh fails, and Redis does not give the amount 0. -/
def Sturdy : Call sig Exc → Prop
  | ⟨_, .commit, .error _⟩ => False
  | ⟨_, .refreshOrder _, .error _⟩ => False
  | ⟨_, .spop _, .ok (some a)⟩ => a ≠ 0
  | _ => True

/-! ## The layers of the endpoint -/

theorem exec_rollback {f : Fault} {r : Except Exc Unit} (h : exec f p .rollback w r w') :
    f = .done ∧ r = .ok () ∧ w' = w.rollback p := by
  cases f with
  | done => exact ⟨rfl, h.1, h.2⟩
  | failed =>
    obtain ⟨-, e, he, -⟩ := h
    exact he.elim
  | lost =>
    obtain ⟨-, -, e, he, -⟩ := h
    exact he.elim

/-- A rollback goes through. -/
theorem runs_rollback {β : Type} {g : App β} {r : Except Exc β}
    (h : Executes p (do await .rollback; g) w cs r w') :
    ∃ cs₁, cs = ⟨.done, .rollback, .ok ()⟩ :: cs₁ ∧ Executes p g (w.rollback p) cs₁ r w' := by
  rcases runs_await.mp h with ⟨_, w₁, cs₁, hx, hrest, rfl⟩ | ⟨f, e, hx, -, -⟩
  · obtain rfl := (exec_rollback hx).2.2
    exact ⟨cs₁, rfl, hrest⟩
  · have he := (exec_rollback hx).2.1
    cases he

/-- A rollback, and then an exception. -/
theorem runs_rollback_throw {β : Type} {e : Exc} {r : Except Exc β}
    (h : Executes p (do await .rollback; throw e) w cs r w') :
    cs = [⟨.done, .rollback, .ok ()⟩] ∧ r = .error e ∧ w' = w.rollback p := by
  obtain ⟨cs₁, rfl, hthrow⟩ := runs_rollback h
  obtain ⟨rfl, rfl, rfl⟩ := runs_raise.mp hthrow
  exact ⟨rfl, rfl, rfl⟩

/-- An endpoint that answers with an error rolls back and otherwise leaves what its body left. -/
theorem runs_withDb_error {β : Type} {body : App β} {e : Exc}
    (h : Executes p (withDb body) w cs (.error e) w') :
    ∃ cs₁ w₁, Executes p body w cs₁ (.error e) w₁ ∧ cs = cs₁ ++ [⟨.done, .rollback, .ok ()⟩] ∧
      w' = w₁.rollback p := by
  rcases runs_tryCatch.mp h with ⟨u, -, he⟩ | ⟨e', w₁, cs₁, cs₂, hbody, hcatch, rfl⟩
  · cases he
  · obtain ⟨rfl, he, rfl⟩ := runs_rollback_throw hcatch
    cases he
    exact ⟨cs₁, w₁, hbody, rfl, rfl⟩

/-- The stores apart from open transactions. -/
theorem untouched_rollback : Untouched w (w₁.rollback p) ↔ Untouched w w₁ :=
  ⟨fun h => ⟨h.orders, h.intents, h.sets⟩, fun h => ⟨h.orders, h.intents, h.sets⟩⟩

/-- The `except` clauses of `create_order` add at most a rollback. -/
theorem runs_createOrder_error {e : Exc}
    (h : Executes p (createOrder userId amount) w cs (.error e) w') :
    ∃ cs₁ cs₂ w₁ e₁, Executes p (do
        let order ← createOrderService userId amount 3
        match order with
        | none => throw (httpException 409 "No free amount is available ")
        | some o => do
          await .commit
          await (.refreshOrder o.id)
          pure (Response.order o)) w cs₁ (.error e₁) w₁ ∧
      cs = cs₁ ++ cs₂ ∧ (∀ c ∈ cs₂, Sturdy c) ∧ (Untouched w w' ↔ Untouched w w₁) := by
  obtain ⟨cs₁, w₁, hbody, rfl, rfl⟩ := runs_withDb_error h
  rcases runs_tryCatch.mp hbody with ⟨u, -, he⟩ | ⟨e₁, w₂, cs₂, cs₃, hin, hcatch, rfl⟩
  · cases he
  · refine ⟨cs₂, cs₃ ++ [⟨.done, .rollback, .ok ()⟩], w₂, e₁, hin, by simp, ?_, ?_⟩
    · split at hcatch
      · obtain ⟨rfl, -, -⟩ := runs_raise.mp hcatch
        simp [Sturdy]
      · obtain ⟨rfl, -, -⟩ := runs_rollback_throw hcatch
        simp [Sturdy]
      · obtain ⟨rfl, -, -⟩ := runs_rollback_throw hcatch
        simp [Sturdy]
    · rw [untouched_rollback]
      split at hcatch
      · obtain ⟨-, -, rfl⟩ := runs_raise.mp hcatch
        exact Iff.rfl
      · obtain ⟨-, -, rfl⟩ := runs_rollback_throw hcatch
        exact untouched_rollback
      · obtain ⟨-, -, rfl⟩ := runs_rollback_throw hcatch
        exact untouched_rollback

/-! ## Giving up -/

/-- PostgreSQL does not change the sets. -/
theorem exec_sets {f : Fault} {op : Op} {r : Except Exc op.Ret} (h : exec f p op w r w')
    (hop : ¬ op.OnRedis) : w'.sets = w.sets := by
  have hsame : ∀ r₀, Effect p op w r₀ w' → w'.sets = w.sets := by
    intro r₀ heff
    rw [heff.sets]
    cases op <;> first
      | rfl
      | exact absurd trivial hop
  rcases exec_effect h with ⟨r₀, heff⟩ | rfl
  · exact hsame r₀ heff
  · rfl

theorem Unchanged.untouched (h : Unchanged p w w') : Untouched w w' :=
  ⟨h.orders, h.intents, h.sets⟩

/-- An amount Redis gave is no longer free. -/
theorem not_untouched_of_given (ha : a ∈ w.free) (h : w'.sets = givenSets w.sets a) :
    ¬ Untouched w w' := by
  intro hu
  rw [World.free, ← hu.sets, h] at ha
  have hfree : givenSets w.sets a .freeAmounts = SetStore.spop w.sets .freeAmounts a .freeAmounts :=
    smove_other (by decide) (by decide)
  rw [hfree] at ha
  simp at ha

theorem Statistics.sturdy {stats : Calls} (h : Statistics stats) : ∀ c ∈ stats, Sturdy c := by
  rintro ⟨f, op, r⟩ hc
  obtain ⟨k, rfl⟩ := h _ hc
  trivial

/-- The service without an outage: it returned an order, or `None`, or it raised and undid all. -/
theorem tries_up {n : ℕ} {r : Except Exc (Option Order)}
    (h : Tries p userId amount n w cs r w') (hup : RedisUp cs) (hdisj : Disjoint w.free w.pending) :
    (∃ o a, r = .ok (some o) ∧ a ∈ w.free ∧ w'.sets = givenSets w.sets a) ∨
    ((∀ c ∈ cs, Sturdy c) ∧ Unchanged p w w' ∧ ∀ o, r ≠ .ok (some o)) ∨
    (r = .ok none ∧ (∃ c ∈ cs, ¬ Sturdy c) ∧ ¬ Untouched w w') := by
  have noask : ∀ {g c cs'}, cs ≠ askedCalls amount g c ++ cs' := by
    intro g c cs' he
    rw [he] at hup
    have hdone := hup ⟨.failed, .spop .freeAmounts, .error RedisError⟩ (by simp [askedCalls]) trivial
    cases hdone
  cases h with
  | empty hs =>
    refine Or.inr (Or.inl ⟨?_, .refl, by simp⟩)
    simpa [Sturdy] using hs.sturdy
  | zero h0 hs =>
    refine Or.inr (Or.inr ⟨rfl, ⟨⟨.done, .spop .freeAmounts, .ok (some 0)⟩, ?_, ?_⟩, ?_⟩)
    · simp [givenCalls]
    · simp [Sturdy]
    · exact not_untouched_of_given h0 rfl
  | @stored n _ _ a o ha h0 hi =>
    obtain ⟨-, rfl⟩ := exec_insertOrder_ok hi
    exact Or.inl ⟨_, a, rfl, ha, rfl⟩
  | compensated ha h0 hi =>
    refine Or.inr (Or.inl ⟨?_, ?_, by simp⟩)
    · simp [givenCalls, compensationCalls, Sturdy, h0]
    · exact compensated_unchanged ha (Finset.disjoint_left.mp hdisj ha) (exec_insertOrder_error hi)
  | unanswered _ => exact absurd (List.append_nil _).symm noask
  | unserved _ _ => exact absurd rfl noask
  | fallback _ _ => exact absurd rfl noask
  | refused _ _ _ => exact absurd rfl noask
  | again _ _ _ _ _ => exact absurd rfl noask

/-- The router's part of a request whose order was stored fails at the commit or at the refresh. -/
theorem runs_router_error {o : Order} {e : Exc} (h : Executes p (do
      await .commit
      await (.refreshOrder o.id)
      pure (Response.order o)) w cs (.error e) w') :
    w'.sets = w.sets ∧ ∃ c ∈ cs, ¬ Sturdy c := by
  rcases runs_await.mp h with ⟨_, w₁, cs₁, hcommit, hrest, rfl⟩ | ⟨f, e₁, hcommit, rfl, -⟩
  · rcases runs_await.mp hrest with ⟨_, w₂, cs₂, -, hret, -⟩ | ⟨f, e₁, hrefresh, rfl, -⟩
    · obtain ⟨-, he, -⟩ := runs_ret.mp hret
      cases he
    · have hsets := (exec_sets hrefresh (by simp [Op.OnRedis])).trans
        (exec_sets hcommit (by simp [Op.OnRedis]))
      exact ⟨hsets, ⟨f, .refreshOrder o.id, .error e₁⟩, by simp, id⟩
  · exact ⟨exec_sets hcommit (by simp [Op.OnRedis]), ⟨f, .commit, .error e₁⟩, by simp, id⟩

/-- **Order creation is all-or-nothing** exactly when the router's part of the request goes through: in
every state in which no free amount is pending, and with Redis reachable, a request that answers with
an error leaves the tables and the sets as they were if and only if neither its commit nor the refresh
after it failed (and Redis did not give the amount 0). -/
theorem createOrder_untouched_iff {e : Exc} (hdisj : Disjoint w.free w.pending)
    (h : Executes p (createOrder userId amount) w cs (.error e) w') (hup : RedisUp cs) :
    Untouched w w' ↔ ∀ c ∈ cs, Sturdy c := by
  obtain ⟨cs₁, cs₂, w₁, e₁, hrun, rfl, hsturdy, hiff⟩ := runs_createOrder_error h
  rw [hiff]
  have hup₁ : RedisUp cs₁ := fun c hc => hup c (List.mem_append_left _ hc)
  have hcs : (∀ c ∈ cs₁ ++ cs₂, Sturdy c) ↔ ∀ c ∈ cs₁, Sturdy c :=
    ⟨fun h c hc => h c (List.mem_append_left _ hc), fun h c hc =>
      (List.mem_append.mp hc).elim (h c) (hsturdy c)⟩
  rw [hcs]
  rcases runs_bind.mp hrun with ⟨order, w₂, cs₃, cs₄, hservice, hrest, rfl⟩ | ⟨e₂, hservice, he⟩
  · have hup₃ : RedisUp cs₃ := fun c hc => hup₁ c (List.mem_append_left _ hc)
    rcases tries_up (runs_createOrderLoop (by decide) hservice hup₃.calm) hup₃ hdisj with
      ⟨o, a, ho, ha, hsets⟩ | ⟨hgood, hsame, hno⟩ | ⟨ho, hbad, hmoved⟩
    · -- the commit or the refresh failed
      cases ho
      obtain ⟨hkeep, c, hc, hbad⟩ := runs_router_error hrest
      exact iff_of_false (not_untouched_of_given ha (hkeep.trans hsets)) fun hall =>
        hbad (hall c (List.mem_append_right _ hc))
    · cases order with
      | none =>
        obtain ⟨rfl, -, rfl⟩ := runs_raise.mp hrest
        rw [List.append_nil]
        exact iff_of_true hsame.untouched hgood
      | some o => exact absurd rfl (hno o)
    · cases ho
      obtain ⟨rfl, -, rfl⟩ := runs_raise.mp hrest
      rw [List.append_nil]
      obtain ⟨c, hc, hs⟩ := hbad
      exact iff_of_false hmoved fun hall => hs (hall c hc)
  · rcases tries_up (runs_createOrderLoop (by decide) hservice hup₁.calm) hup₁ hdisj with
      ⟨o, a, ho, -⟩ | ⟨hgood, hsame, -⟩ | ⟨ho, -⟩
    · cases ho
    · exact iff_of_true hsame.untouched hgood
    · cases ho

/-- The insert of the order fails, and the amount that was allocated goes back. -/
theorem createOrder_untouched_sample : ∃ (cs : Calls) (e : Exc) (w' : World),
    Executes 0 (createOrder 7 1500000) lonePool cs (.error e) w' ∧
      ⟨.done, .spop .freeAmounts, .ok (some 1500000)⟩ ∈ cs ∧
      ⟨.failed, .insertOrder 7 1500000 1500000, .error DBAPIError⟩ ∈ cs ∧ Untouched lonePool w' := by
  have hpop : exec .done 0 (.spop .freeAmounts) lonePool (.ok (some 1500000))
      (withSets lonePool (SetStore.spop lonePool.sets .freeAmounts 1500000)) :=
    Or.inl ⟨1500000, by decide, rfl, rfl⟩
  let given := withSets lonePool (givenSets lonePool.sets 1500000)
  have hmove : exec .done 0 (.smove .amounts .pendingOrders 1500000)
      (withSets lonePool (SetStore.spop lonePool.sets .freeAmounts 1500000)) (.ok ()) given :=
    ⟨rfl, rfl⟩
  have hinsert : exec .failed 0 (.insertOrder 7 1500000 1500000) given (.error DBAPIError) given :=
    ⟨rfl, DBAPIError, Or.inl rfl, rfl⟩
  have hrollback : ∀ w, exec .done 0 .rollback w (.ok ()) (w.rollback 0) := fun _ => ⟨rfl, rfl⟩
  let cs : Calls := givenCalls 1500000 ++
    ⟨.failed, .insertOrder 7 1500000 1500000, .error DBAPIError⟩ :: compensationCalls 1500000 ++
      [⟨.done, .rollback, .ok ()⟩, ⟨.done, .rollback, .ok ()⟩]
  have hrun : Executes 0 (createOrder 7 1500000) lonePool cs
      (.error (httpException 500 "Internal Server Error"))
      (((withSets lonePool (compensatedSets (givenSets lonePool.sets 1500000) 1500000)).rollback 0).rollback
        0) := by
    refine Runs.call hpop ?_
    refine Runs.call hmove ?_
    refine Runs.call hinsert ?_
    -- the compensation, and the two rollbacks
    refine Runs.call ⟨rfl, rfl⟩ ?_
    refine Runs.call ⟨rfl, rfl⟩ ?_
    refine Runs.call (hrollback _) ?_
    exact Runs.call (hrollback _) .raise
  refine ⟨cs, _, _, hrun, by simp [cs, givenCalls], by simp [cs], ?_⟩
  refine (createOrder_untouched_iff (by decide) hrun ?_).mpr ?_
  · simp [cs, givenCalls, compensationCalls, RedisUp, Op.OnRedis]
  · simp [cs, givenCalls, compensationCalls, Sturdy]

/-- After a commit that failed the amount is reserved for nobody. -/
theorem createOrder_leaks : ∃ (cs : Calls) (e : Exc) (w' : World),
    Executes 0 (createOrder 7 1500000) lonePool cs (.error e) w' ∧
      Disjoint lonePool.free lonePool.pending ∧ RedisUp cs ∧ ¬ Untouched lonePool w' := by
  have hpop : exec .done 0 (.spop .freeAmounts) lonePool (.ok (some 1500000))
      (withSets lonePool (SetStore.spop lonePool.sets .freeAmounts 1500000)) :=
    Or.inl ⟨1500000, by decide, rfl, rfl⟩
  let given := withSets lonePool (givenSets lonePool.sets 1500000)
  let stored := given.tickOrder.flush 0 [.insOrder (given.newOrder 7 1500000),
    .insIntent (given.newIntent 1500000 1500000)]
  have hmove : exec .done 0 (.smove .amounts .pendingOrders 1500000)
      (withSets lonePool (SetStore.spop lonePool.sets .freeAmounts 1500000)) (.ok ()) given :=
    ⟨rfl, rfl⟩
  have hinsert : exec .done 0 (.insertOrder 7 1500000 1500000) given
      (.ok (given.newOrder 7 1500000)) stored :=
    exec_insertOrder (by decide) (by decide)
      (by simp [World.AmountBusy, given, lonePool, World.empty, Txn.empty, Db.empty])
      (by simp [World.AmountTaken, given, lonePool, World.empty, Txn.empty, Db.empty])
  have hcommit : exec .failed 0 .commit stored (.error DBAPIError) stored :=
    ⟨rfl, DBAPIError, Or.inl rfl, rfl⟩
  have hrollback : ∀ w, exec .done 0 .rollback w (.ok ()) (w.rollback 0) := fun _ => ⟨rfl, rfl⟩
  let cs : Calls := givenCalls 1500000 ++
    [⟨.done, .insertOrder 7 1500000 1500000, .ok (given.newOrder 7 1500000)⟩,
      ⟨.failed, .commit, .error DBAPIError⟩, ⟨.done, .rollback, .ok ()⟩, ⟨.done, .rollback, .ok ()⟩]
  have hrun : Executes 0 (createOrder 7 1500000) lonePool cs
      (.error (httpException 500 "Internal Server Error")) ((stored.rollback 0).rollback 0) := by
    refine Runs.call hpop ?_
    refine Runs.call hmove ?_
    refine Runs.call hinsert ?_
    refine Runs.call hcommit ?_
    refine Runs.call (hrollback _) ?_
    exact Runs.call (hrollback _) .raise
  refine ⟨cs, _, _, hrun, by decide, by simp [cs, givenCalls, RedisUp, Op.OnRedis], ?_⟩
  exact not_untouched_of_given (a := 1500000) (by decide) rfl

end Requests

end PaymentRecon
