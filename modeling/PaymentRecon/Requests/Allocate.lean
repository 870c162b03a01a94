import Mathlib.Order.Interval.Set.Basic
import PaymentRecon.Lib.Runs
import PaymentRecon.Model.System

/-!
# Allocate — the two allocators of `get_unique_amount`

The executions of `get_unique_amount` (`Allocates`), wherever a store fails.  The pool and the fallback
agree on the window above the base amount exactly when the pool lies in it; and falling back leaves the
pool as it was exactly when no SMOVE failed.
-/

namespace PaymentRecon

open Interleave SetStore

namespace Requests

abbrev Calls := List (Call sig Exc)

/-- The session `p` executes `x` with no other request in between. -/
abbrev Executes {β : Type} (p : Pid) (x : App β) (w : World) (cs : Calls) (r : Except Exc β)
    (w' : World) : Prop := Runs system p x w cs r w'

variable {p : Pid} {w w' : World} {cs : Calls}

/-! ## Answers -/

/-- What answers, goes through. -/
theorem exec_ok {f : Fault} {op : Op} {x : op.Ret} (h : exec f p op w (.ok x) w') :
    f = .done ∧ op.run p w (.ok x) w' := by
  cases f with
  | done => exact ⟨rfl, h⟩
  | failed =>
    obtain ⟨-, e, -, he⟩ := h
    cases he
  | lost =>
    obtain ⟨-, -, e, -, he⟩ := h
    cases he

/-- One operation and the rest of the program: the operation went through, or its exception ended the
execution. -/
theorem runs_await {β : Type} {op : Op} {g : op.Ret → App β} {r : Except Exc β} :
    Executes p (await op >>= g) w cs r w' ↔
      (∃ x w₁ cs₁, exec .done p op w (.ok x) w₁ ∧ Executes p (g x) w₁ cs₁ r w' ∧
        cs = ⟨.done, op, .ok x⟩ :: cs₁) ∨
      ∃ f e, exec f p op w (.error e) w' ∧ cs = [⟨f, op, .error e⟩] ∧ r = .error e := by
  constructor
  · intro h
    rcases runs_bind.mp h with ⟨x, w₁, cs₁, cs₂, hop, hrest, rfl⟩ | ⟨e, hop, rfl⟩
    · obtain ⟨f, hx, rfl⟩ := runs_perform.mp hop
      obtain rfl := (exec_ok hx).1
      exact Or.inl ⟨x, w₁, cs₂, hx, hrest, rfl⟩
    · obtain ⟨f, hx, rfl⟩ := runs_perform.mp hop
      exact Or.inr ⟨f, e, hx, rfl, rfl⟩
  · rintro (⟨x, w₁, cs₁, hx, hrest, rfl⟩ | ⟨f, e, hx, rfl, rfl⟩)
    · exact runs_bind.mpr (Or.inl ⟨x, w₁, _, cs₁, runs_perform.mpr ⟨_, hx, rfl⟩, hrest, rfl⟩)
    · exact runs_bind.mpr (Or.inr ⟨e, runs_perform.mpr ⟨f, hx, rfl⟩, rfl⟩)

/-- An operation that reaches its store raises only for its arguments. -/
theorem run_error {op : Op} {e : Exc} (h : op.run p w (.error e) w') :
    e = IntegrityError ∨ e = DataError := by
  have hlocks : ∀ {sel : PaymentIntent → Bool}, ¬ w.Locks p sel (.error e) w' := by
    intro sel hl
    cases hl.2.1
  cases op with
  | spop k => rcases h with ⟨a, -, he, -⟩ | ⟨-, he, -⟩ <;> cases he
  | xclaim consumer minIdle id =>
    simp only [Op.run] at h
    split_ifs at h <;> cases h.1
  | candidate lo hi =>
    obtain ⟨-, h⟩ := h
    split_ifs at h
    · rcases h with ⟨c, -, -, -, he⟩ | ⟨-, he⟩ <;> cases he
    · exact Or.inr (Except.error.inj h)
  | insertOrder u m a =>
    simp only [Op.run] at h
    split_ifs at h
    · rcases h with ⟨-, ⟨-, he, -⟩ | ⟨-, he, -⟩⟩
      · exact Or.inl (Except.error.inj he)
      · cases he
    · exact Or.inr (Except.error.inj h.1)
  | insertSms amount inventory date time payload =>
    simp only [Op.run] at h
    split_ifs at h
    · rcases h with ⟨-, ⟨-, he, -⟩ | ⟨-, he, -⟩⟩
      · exact Or.inl (Except.error.inj he)
      · cases he
    · exact Or.inr (Except.error.inj h.1)
  | intentBySms t =>
    obtain ⟨-, h⟩ := h
    split at h
    · cases h
    · exact Or.inr (Except.error.inj h)
  | lockPending a =>
    simp only [Op.run] at h
    split at h
    · cases h.1
    · split at h
      · exact absurd h hlocks
      · exact Or.inr (Except.error.inj h.1)
  | lockById paymentId orderId =>
    simp only [Op.run] at h
    split_ifs at h
    · exact absurd h hlocks
    · exact Or.inr (Except.error.inj h.1)
  | flushPaid i sms =>
    rcases h with ⟨-, -, ⟨-, he, -⟩ | ⟨-, he, -⟩⟩
    · exact Or.inl (Except.error.inj he)
    · cases he
  | claimEvents t staleLock limit =>
    obtain ⟨sel, -, he, -⟩ := h
    cases he
  | publishEvents ids => cases h.2.1
  | failEvents us => cases h.2.1
  | outOfFuel => exact h.elim
  | _ => cases h.1

/-- A store raises one of its own exceptions. -/
theorem exec_error {f : Fault} {op : Op} {e : Exc} (h : exec f p op w (.error e) w') :
    e = RedisError ∨ e = DBAPIError ∨ e = IntegrityError ∨ e = DataError := by
  have hfails : ∀ e', op.Fails e' → e' = RedisError ∨ e' = DBAPIError ∨ e' = IntegrityError := by
    intro e' he
    cases op <;> first
      | exact he.elim
      | exact Or.inl he
      | exact Or.inr he
  rcases exec_cases h with hrun | ⟨-, e', he, heq⟩ | ⟨-, r₀, -, e', he, heq⟩
  · exact Or.inr (Or.inr (run_error hrun))
  · obtain rfl := Except.error.inj heq
    rcases hfails e he with he | he | he <;> simp [he]
  · obtain rfl := Except.error.inj heq
    rcases hfails e he with he | he | he <;> simp [he]

/-- A Redis command raises only when Redis fails. -/
theorem exec_redis_error {f : Fault} {op : Op} {e : Exc} (h : exec f p op w (.error e) w')
    (hr : op.OnRedis) : e = RedisError ∧ f ≠ .done ∧ (f ≠ .lost → w' = w) := by
  have hfails : ∀ e, op.Fails e → e = RedisError := fun e he => by
    cases op <;> first
      | exact he
      | exact hr.elim
  cases f with
  | done =>
    exfalso
    cases op with
    | spop k => rcases h with ⟨a, -, he, -⟩ | ⟨-, he, -⟩ <;> cases he
    | xclaim consumer minIdle id =>
      simp only [exec, Op.run] at h
      split_ifs at h <;> cases h.1
    | smove | sadd | scard | «exists» | del | sdiffstore | xadd | xaddDead | xreadgroup | xpending
    | xack | xrangeDead | moveDead => cases h.1
    | _ => exact hr
  | failed =>
    obtain ⟨hw, e', hf, he⟩ := h
    cases he
    exact ⟨hfails e hf, by simp, fun _ => hw⟩
  | lost =>
    obtain ⟨-, -, e', hf, he⟩ := h
    cases he
    exact ⟨hfails e hf, by simp, fun hl => absurd rfl hl⟩

/-- A candidate is read off the table. -/
theorem exec_candidate {f : Fault} {lo hi : Amount} {r : Except Exc (Option Amount)}
    (h : exec f p (.candidate lo hi) w r w') :
    w' = w ∧ (∀ c, r = .ok (some c) → lo ≤ c ∧ c ≤ hi ∧ ∀ i ∈ w.db.intents, ¬ i.Holds c) ∧
      ∀ e, r = .error e → e ∈ [DBAPIError, IntegrityError, DataError] := by
  cases f with
  | done =>
    obtain ⟨hw, h⟩ := h
    refine ⟨hw, ?_⟩
    split_ifs at h
    · rcases h with ⟨c, hlo, hhi, hfree, rfl⟩ | ⟨-, rfl⟩
      · refine ⟨?_, by simp⟩
        rintro c' hc'
        cases hc'
        exact ⟨hlo, hhi, hfree⟩
      · simp
    · subst h
      simp
  | failed =>
    obtain ⟨hw, e, he, rfl⟩ := h
    refine ⟨hw, by simp, ?_⟩
    intro e' he'
    cases he'
    rcases he with rfl | rfl <;> simp
  | lost =>
    obtain ⟨hl, -⟩ := h
    rcases hl with hl | hl
    · exact hl.elim
    · cases hl

/-! ## The allocation -/

/-- A fallback amount. -/
def fromPostgres (r : Except Exc (Option Amount)) : Except Exc (Option AllocatedAmount) :=
  r.map fun c => c.map fun a => ⟨a, .postgres⟩

/-- The question `get_unique_amount_from_postgres` asks. -/
abbrev fallbackQuery (b : Option Amount) : Op :=
  .candidate (fallbackRange b 500).1 (fallbackRange b 500).2

/-- The executions of `get_unique_amount`: Redis gave an amount, had none, refused the SPOP, or popped
an amount and refused the SMOVE. -/
inductive Allocates (p : Pid) (b : Option Amount) (w : World) :
    Calls → Except Exc (Option AllocatedAmount) → World → Prop
  | given {a : Amount} {w₁ w' : World} (pop : exec .done p (.spop .freeAmounts) w (.ok (some a)) w₁)
      (move : exec .done p (.smove .amounts .pendingOrders a) w₁ (.ok ()) w') :
      Allocates p b w [⟨.done, .spop .freeAmounts, .ok (some a)⟩,
        ⟨.done, .smove .amounts .pendingOrders a, .ok ()⟩] (.ok (some ⟨a, .redis⟩)) w'
  | empty {w' : World} (pop : exec .done p (.spop .freeAmounts) w (.ok none) w') :
      Allocates p b w [⟨.done, .spop .freeAmounts, .ok none⟩] (.ok none) w'
  | refused {f g : Fault} {w₁ w' : World} {c : Except Exc (Option Amount)}
      (pop : exec f p (.spop .freeAmounts) w (.error RedisError) w₁)
      (ask : exec g p (fallbackQuery b) w₁ c w') :
      Allocates p b w [⟨f, .spop .freeAmounts, .error RedisError⟩, ⟨g, fallbackQuery b, c⟩]
        (fromPostgres c) w'
  | unmoved {a : Amount} {f g : Fault} {w₁ w₂ w' : World} {c : Except Exc (Option Amount)}
      (pop : exec .done p (.spop .freeAmounts) w (.ok (some a)) w₁)
      (move : exec f p (.smove .amounts .pendingOrders a) w₁ (.error RedisError) w₂)
      (ask : exec g p (fallbackQuery b) w₂ c w') :
      Allocates p b w [⟨.done, .spop .freeAmounts, .ok (some a)⟩,
        ⟨f, .smove .amounts .pendingOrders a, .error RedisError⟩, ⟨g, fallbackQuery b, c⟩]
        (fromPostgres c) w'

/-- The handler of `get_unique_amount`, entered by a Redis error. -/
theorem runs_fallback {b : Option Amount} {r : Except Exc (Option AllocatedAmount)}
    (h : Executes p (do
      let fallbackAmount ← getUniqueAmountFromPostgres b
      pure (fallbackAmount.map fun a => (⟨a, .postgres⟩ : AllocatedAmount))) w cs r w') :
    ∃ g c, exec g p (fallbackQuery b) w c w' ∧ cs = [⟨g, fallbackQuery b, c⟩] ∧
      r = fromPostgres c := by
  rcases runs_await.mp h with ⟨c, w₁, cs₁, hask, hret, rfl⟩ | ⟨g, e, hask, rfl, rfl⟩
  · obtain ⟨rfl, rfl, rfl⟩ := runs_ret.mp hret
    exact ⟨.done, .ok c, hask, rfl, rfl⟩
  · exact ⟨g, .error e, hask, rfl, rfl⟩

theorem runs_getUniqueAmount {b : Option Amount} {r : Except Exc (Option AllocatedAmount)}
    (h : Executes p (getUniqueAmount b) w cs r w') : Allocates p b w cs r w' := by
  rcases runs_tryCatch.mp h with ⟨u, hbody, rfl⟩ | ⟨e, w₁, cs₁, cs₂, hbody, hcatch, rfl⟩
  · -- no command to Redis failed
    rcases runs_await.mp hbody with ⟨given, w₁, cs₁, hpop, hrest, rfl⟩ | ⟨f, e, -, -, he⟩
    · cases given with
      | none =>
        obtain ⟨rfl, hu, rfl⟩ := runs_ret.mp hrest
        cases hu
        exact .empty hpop
      | some a =>
        rcases runs_await.mp hrest with ⟨_, w₂, cs₂, hmove, hret, rfl⟩ | ⟨f, e, -, -, he⟩
        · obtain ⟨rfl, hu, rfl⟩ := runs_ret.mp hret
          cases hu
          exact .given hpop hmove
        · cases he
    · cases he
  · rcases runs_await.mp hbody with ⟨given, w₂, cs₃, hpop, hrest, rfl⟩ | ⟨f, e', hpop, rfl, he⟩
    · cases given with
      | none =>
        obtain ⟨-, he, -⟩ := runs_ret.mp hrest
        cases he
      | some a =>
        rcases runs_await.mp hrest with ⟨_, w₃, cs₄, -, hret, -⟩ | ⟨f, e', hmove, rfl, he⟩
        · obtain ⟨-, he, -⟩ := runs_ret.mp hret
          cases he
        · cases he
          obtain ⟨rfl, -, -⟩ := exec_redis_error hmove trivial
          obtain ⟨g, c, hask, rfl, rfl⟩ := runs_fallback hcatch
          exact .unmoved hpop hmove hask
    · cases he
      obtain ⟨rfl, -, -⟩ := exec_redis_error hpop trivial
      obtain ⟨g, c, hask, rfl, rfl⟩ := runs_fallback hcatch
      exact .refused hpop hask

theorem fallback_executes {b : Option Amount} {g : Fault} {c : Except Exc (Option Amount)}
    (h : exec g p (fallbackQuery b) w c w') :
    Executes p (if RedisError.kind = .redisError then do
        let fallbackAmount ← getUniqueAmountFromPostgres b
        pure (fallbackAmount.map fun a => (⟨a, .postgres⟩ : AllocatedAmount))
      else throw RedisError) w [⟨g, fallbackQuery b, c⟩] (fromPostgres c) w' := by
  rw [if_pos (show RedisError.kind = .redisError from rfl)]
  cases c with
  | ok c =>
    obtain rfl := (exec_ok h).1
    exact runs_await.mpr (Or.inl ⟨c, w', [], h, .ret, rfl⟩)
  | error e => exact runs_await.mpr (Or.inr ⟨g, e, h, rfl, rfl⟩)

/-- These are all the executions. -/
theorem Allocates.executes {b : Option Amount} {r : Except Exc (Option AllocatedAmount)}
    (h : Allocates p b w cs r w') : Executes p (getUniqueAmount b) w cs r w' := by
  cases h with
  | given pop move => exact runs_tryCatch.mpr (Or.inl ⟨_, .call pop (.call move .ret), rfl⟩)
  | empty pop => exact runs_tryCatch.mpr (Or.inl ⟨_, .call pop .ret, rfl⟩)
  | refused pop ask =>
    exact runs_tryCatch.mpr (Or.inr ⟨_, _, [_], _, .call pop .raise, fallback_executes ask, rfl⟩)
  | unmoved pop move ask =>
    exact runs_tryCatch.mpr
      (Or.inr ⟨_, _, [_, _], _, .call pop (.call move .raise), fallback_executes ask, rfl⟩)

/-! ## The window -/

theorem fromPostgres_ok {c : Except Exc (Option Amount)} {u : AllocatedAmount}
    (h : fromPostgres c = .ok (some u)) : c = .ok (some u.value) ∧ u.source = .postgres := by
  cases c with
  | error e => cases h
  | ok c =>
    cases c with
    | none => cases h
    | some a =>
      cases h
      exact ⟨rfl, rfl⟩

/-- What SPOP answers is a member. -/
theorem exec_spop_some {f : Fault} {k : SetKey} {a : Amount}
    (h : exec f p (.spop k) w (.ok (some a)) w') :
    a ∈ w.sets k ∧ w' = withSets w (SetStore.spop w.sets k a) := by
  rcases (exec_ok h).2 with ⟨a', ha, he, rfl⟩ | ⟨-, he, -⟩
  · cases he
    exact ⟨ha, rfl⟩
  · cases he

/-- The prices `get_unique_amount` may give to an order of the base amount `b`. -/
def priceWindow (b : Amount) : Set Amount := Set.Icc (b + 1) (b + 500)

/-- **The window of the two allocators.**  For every base amount, every table and every pool: whatever
amount `get_unique_amount` may return, wherever Redis fails, lies in `[b + 1, b + 500]` exactly when all
free amounts do. -/
theorem getUniqueAmount_window (b : Amount) (w : World) :
    (∀ p cs u w', Executes p (getUniqueAmount (some b)) w cs (.ok (some u)) w' →
      u.value ∈ priceWindow b) ↔ ∀ a ∈ w.free, a ∈ priceWindow b := by
  constructor
  · intro h a ha
    have hpop : exec .done 0 (.spop .freeAmounts) w (.ok (some a))
        (withSets w (SetStore.spop w.sets .freeAmounts a)) := Or.inl ⟨a, ha, rfl, rfl⟩
    have hgiven : Allocates 0 (some b) w _ (.ok (some ⟨a, .redis⟩)) _ := .given hpop ⟨rfl, rfl⟩
    exact h 0 _ ⟨a, .redis⟩ _ hgiven.executes
  · intro h p cs u w' hrun
    have fallback : ∀ {g w₁ c}, exec g p (fallbackQuery (some b)) w₁ c w' →
        fromPostgres c = .ok (some u) → u.value ∈ priceWindow b := by
      intro g w₁ c hask hc
      obtain ⟨hlo, hhi, -⟩ := (exec_candidate hask).2.1 _ (fromPostgres_ok hc).1
      exact ⟨hlo, hhi⟩
    generalize hr : (.ok (some u) : Except Exc (Option AllocatedAmount)) = r at hrun
    cases runs_getUniqueAmount hrun with
    | given pop _ =>
      cases hr
      exact h _ (exec_spop_some pop).1
    | empty _ => cases hr
    | refused _ ask => exact fallback ask hr.symm
    | unmoved _ _ ask => exact fallback ask hr.symm

/-- A pool with the one amount 1500000. -/
def lonePool : World :=
  { World.empty with sets := fun k =>
      match k with
      | .pendingOrders => ∅
      | .amounts | .freeAmounts => {1500000} }

/-- An order of 1550000 may be given the amount 1500000. -/
theorem getUniqueAmount_window_fails : ¬ ∀ (b : Amount) (w : World), 1500000 ≤ b → b ≤ 1550000 →
    (∀ a ∈ w.free, 1500000 ≤ a ∧ a ≤ 1550000) →
    ∀ p cs u w', Executes p (getUniqueAmount (some b)) w cs (.ok (some u)) w' →
      u.value ∈ priceWindow b := by
  intro h
  have hpop : exec .done 0 (.spop .freeAmounts) lonePool (.ok (some 1500000))
      (withSets lonePool (SetStore.spop lonePool.sets .freeAmounts 1500000)) :=
    Or.inl ⟨1500000, by decide, rfl, rfl⟩
  have hgiven : Allocates 0 (some 1550000) lonePool _ (.ok (some ⟨1500000, .redis⟩)) _ :=
    .given hpop ⟨rfl, rfl⟩
  have hin := h 1550000 lonePool (by decide) (by decide) (by decide) 0 _ _ _ hgiven.executes
  exact absurd hin.1 (by decide)

/-! ## Falling back -/

/-- An SMOVE that raised. -/
def MoveRaised : Call sig Exc → Prop
  | ⟨_, .smove _ _ _, .error _⟩ => True
  | _ => False

/-- **Falling back keeps the pool** exactly when no SMOVE raised: for every pool, and wherever Redis
fails without effect, a call that returns a fallback amount or `None` leaves the free amounts as they
were if and only if it is not the SMOVE after a successful SPOP that failed. -/
theorem fallback_keeps_free {b : Option Amount} {r : Option AllocatedAmount}
    (h : Executes p (getUniqueAmount b) w cs (.ok r) w') (hlost : ∀ c ∈ cs, c.fault ≠ .lost)
    (hr : ∀ u ∈ r, u.source = .postgres) : w'.free = w.free ↔ ∀ c ∈ cs, ¬ MoveRaised c := by
  generalize hres : (.ok r : Except Exc (Option AllocatedAmount)) = res at h
  cases runs_getUniqueAmount h with
  | given _ _ =>
    cases hres
    exact absurd (hr _ rfl) (by simp)
  | empty pop =>
    rcases (exec_ok pop).2 with ⟨a, -, he, -⟩ | ⟨-, -, rfl⟩
    · cases he
    · simp [MoveRaised]
  | @refused f g w₁ _ c pop ask =>
    have hpop := (exec_redis_error pop trivial).2.2 (hlost _ List.mem_cons_self)
    obtain ⟨rfl, -⟩ := exec_candidate ask
    rw [hpop]
    simp [MoveRaised, fallbackQuery]
  | @unmoved a f g w₁ w₂ _ c pop move ask =>
    obtain ⟨ha, rfl⟩ := exec_spop_some pop
    have hmove := (exec_redis_error move trivial).2.2
      (hlost _ (List.mem_cons_of_mem _ List.mem_cons_self))
    obtain ⟨rfl, -⟩ := exec_candidate ask
    rw [hmove]
    constructor
    · intro hfree
      have hgone : a ∈ (withSets w (SetStore.spop w.sets .freeAmounts a)).free := hfree ▸ ha
      simp [World.free] at hgone
    · intro hno
      exact absurd trivial (hno ⟨f, .smove .amounts .pendingOrders a, .error RedisError⟩ (by simp))

theorem fallback_keeps_free_sample : ∃ (cs : Calls) (w' : World),
    Executes 0 (getUniqueAmount (some 1500000)) lonePool cs (.ok (some ⟨1500001, .postgres⟩)) w' ∧
      (w'.free = lonePool.free ↔ ∀ c ∈ cs, ¬ MoveRaised c) := by
  have hask : exec .done 0 (fallbackQuery (some 1500000)) lonePool (.ok (some 1500001)) lonePool :=
    ⟨rfl, Or.inl ⟨1500001, by decide, by decide, by decide, rfl⟩⟩
  have hpop : exec .failed 0 (.spop .freeAmounts) lonePool (.error RedisError) lonePool :=
    ⟨rfl, RedisError, rfl, rfl⟩
  have hrun : Allocates 0 (some 1500000) lonePool _ (fromPostgres (.ok (some 1500001))) lonePool :=
    .refused hpop hask
  exact ⟨_, _, hrun.executes, fallback_keeps_free hrun.executes (by simp) (by simp)⟩

/-- The amount that was popped before the SMOVE failed is gone. -/
theorem fallback_drops_amount : ∃ (cs : Calls) (w' : World),
    Executes 0 (getUniqueAmount (some 1500000)) lonePool cs (.ok (some ⟨1500001, .postgres⟩)) w' ∧
      (∀ c ∈ cs, c.fault ≠ .lost) ∧ w'.free ≠ lonePool.free := by
  let popped := withSets lonePool (SetStore.spop lonePool.sets .freeAmounts 1500000)
  have hpop : exec .done 0 (.spop .freeAmounts) lonePool (.ok (some 1500000)) popped :=
    Or.inl ⟨1500000, by decide, rfl, rfl⟩
  have hask : exec .done 0 (fallbackQuery (some 1500000)) popped (.ok (some 1500001)) popped :=
    ⟨rfl, Or.inl ⟨1500001, by decide, by decide, by decide, rfl⟩⟩
  have hmove : exec .failed 0 (.smove .amounts .pendingOrders 1500000) popped (.error RedisError)
      popped := ⟨rfl, RedisError, rfl, rfl⟩
  have hrun : Allocates 0 (some 1500000) lonePool _ (fromPostgres (.ok (some 1500001))) popped :=
    .unmoved hpop hmove hask
  exact ⟨_, _, hrun.executes, by simp, by decide⟩

end Requests

end PaymentRecon
