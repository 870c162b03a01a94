import PaymentRecon.Requests.Allocate

/-!
# Retry — the loop of `create_order_service`

The executions of the loop in which no Redis command but SPOP fails (`Tries`), and what holds of all of
them: the number of inserts, when it tries again, what it leaves behind when it succeeds and when it
fails.
-/

namespace PaymentRecon

open Interleave SetStore

namespace Requests

variable {p : Pid} {userId : Id} {amount a : Amount} {n : ℕ} {w w₁ w' : World} {cs : Calls}

/-- No Redis command fails, except that SPOP may raise without effect. -/
def Calm (c : Call sig Exc) : Prop :=
  c.op.OnRedis → c.fault = .done ∨ c.fault = .failed ∧ ∃ k, c.op = .spop k

/-! ## The calls of one attempt -/

/-- Redis gave the amount. -/
def givenCalls (a : Amount) : Calls :=
  [⟨.done, .spop .freeAmounts, .ok (some a)⟩, ⟨.done, .smove .amounts .pendingOrders a, .ok ()⟩]

/-- Redis was out of reach, and PostgreSQL answered `c`. -/
def askedCalls (amount : Amount) (g : Fault) (c : Except Exc (Option Amount)) : Calls :=
  [⟨.failed, .spop .freeAmounts, .error RedisError⟩, ⟨g, fallbackQuery (some amount), c⟩]

/-- The compensation of a Redis allocation. -/
def compensationCalls (a : Amount) : Calls :=
  [⟨.done, .smove .pendingOrders .amounts a, .ok ()⟩, ⟨.done, .sadd .freeAmounts [a], .ok ()⟩]

/-- The commands of the statistics. -/
def Statistics (cs : Calls) : Prop := ∀ c ∈ cs, ∃ k, c.op = .scard k

/-- The sets after Redis gave the amount. -/
def givenSets (s : Sets SetKey Amount) (a : Amount) : Sets SetKey Amount :=
  smove (SetStore.spop s .freeAmounts a) .amounts .pendingOrders a

/-- The sets after the compensation. -/
def compensatedSets (s : Sets SetKey Amount) (a : Amount) : Sets SetKey Amount :=
  SetStore.sadd (smove s .pendingOrders .amounts a) .freeAmounts [a]

/-- The exception of an attempt whose insert raised. -/
def insertError (e : Exc) : Exc :=
  if e.kind = .integrityError then ⟨.duplicateUniqueAmountError, "Duplicate unique amount"⟩
  else ⟨.databaseError, "Database error occurred"⟩

/-- The executions of the loop with `n` attempts left. -/
inductive Tries (p : Pid) (userId : Id) (amount : Amount) :
    ℕ → World → Calls → Except Exc (Option Order) → World → Prop
  | empty {n : ℕ} {w : World} {stats : Calls} (hs : Statistics stats) :
      Tries p userId amount (n + 1) w (⟨.done, .spop .freeAmounts, .ok none⟩ :: stats) (.ok none) w
  | zero {n : ℕ} {w : World} {stats : Calls} (h0 : 0 ∈ w.free) (hs : Statistics stats) :
      Tries p userId amount (n + 1) w (givenCalls 0 ++ stats) (.ok none)
        (withSets w (givenSets w.sets 0))
  | stored {n : ℕ} {w w' : World} {a : Amount} {o : Order} (ha : a ∈ w.free) (h0 : a ≠ 0)
      (hi : exec .done p (.insertOrder userId amount a) (withSets w (givenSets w.sets a)) (.ok o) w') :
      Tries p userId amount (n + 1) w
        (givenCalls a ++ [⟨.done, .insertOrder userId amount a, .ok o⟩]) (.ok (some o)) w'
  | compensated {n : ℕ} {w w₁ : World} {a : Amount} {f : Fault} {e : Exc} (ha : a ∈ w.free)
      (h0 : a ≠ 0) (hi : exec f p (.insertOrder userId amount a) (withSets w (givenSets w.sets a))
        (.error e) w₁) :
      Tries p userId amount (n + 1) w
        (givenCalls a ++ ⟨f, .insertOrder userId amount a, .error e⟩ :: compensationCalls a)
        (.error (insertError e)) (withSets w₁ (compensatedSets w₁.sets a))
  | unanswered {n : ℕ} {w : World} {g : Fault} {e : Exc}
      (hq : exec g p (fallbackQuery (some amount)) w (.error e) w) :
      Tries p userId amount (n + 1) w (askedCalls amount g (.error e)) (.error e) w
  | unserved {n : ℕ} {w : World} {c : Option Amount} {stats : Calls} (hc : ∀ a ∈ c, a = 0)
      (hs : Statistics stats) :
      Tries p userId amount (n + 1) w (askedCalls amount .done (.ok c) ++ stats) (.ok none) w
  | fallback {n : ℕ} {w w' : World} {a : Amount} {o : Order} (h0 : a ≠ 0)
      (hi : exec .done p (.insertOrder userId amount a) w (.ok o) w') :
      Tries p userId amount (n + 1) w
        (askedCalls amount .done (.ok (some a)) ++
          [⟨.done, .insertOrder userId amount a, .ok o⟩]) (.ok (some o)) w'
  | refused {n : ℕ} {w w₁ : World} {a : Amount} {f : Fault} {e : Exc} (h0 : a ≠ 0)
      (hi : exec f p (.insertOrder userId amount a) w (.error e) w₁)
      (hlast : e.kind = .integrityError → n = 0) :
      Tries p userId amount (n + 1) w
        (askedCalls amount .done (.ok (some a)) ++
          [⟨f, .insertOrder userId amount a, .error e⟩]) (.error (insertError e)) w₁
  | again {n : ℕ} {w w₁ w' : World} {a : Amount} {f : Fault} {e : Exc} {cs : Calls}
      {r : Except Exc (Option Order)} (h0 : a ≠ 0)
      (hi : exec f p (.insertOrder userId amount a) w (.error e) w₁) (he : e.kind = .integrityError)
      (hn : n ≠ 0) (hrest : Tries p userId amount n w₁ cs r w') :
      Tries p userId amount (n + 1) w
        (askedCalls amount .done (.ok (some a)) ++
          ⟨f, .insertOrder userId amount a, .error e⟩ :: cs) r w'

/-! ## The parts of an attempt -/

theorem runs_logStatistics {r : Except Exc Unit} (h : Executes p logStatistics w cs r w') :
    Statistics cs ∧ r = .ok () ∧ w' = w := by
  have scard : ∀ {f k r w w'}, exec f p (.scard k) w r w' → w' = w := by
    intro f k r w w' hx
    rcases exec_cases hx with ⟨-, hw⟩ | ⟨hw, -⟩ | ⟨-, r₀, ⟨-, hw⟩, -⟩
    · exact hw
    · exact hw
    · exact hw
  rcases runs_tryCatch.mp h with ⟨u, hbody, rfl⟩ | ⟨e, w₁, cs₁, cs₂, hbody, hcatch, rfl⟩
  · rcases runs_await.mp hbody with ⟨x, w₁, cs₁, h₁, hrest, rfl⟩ | ⟨f, e, -, -, he⟩
    · rcases runs_await.mp hrest with ⟨y, w₂, cs₂, h₂, hret, rfl⟩ | ⟨f, e, -, -, he⟩
      · obtain ⟨rfl, -, rfl⟩ := runs_ret.mp hret
        refine ⟨?_, rfl, (scard h₂).trans (scard h₁)⟩
        simp [Statistics]
      · cases he
    · cases he
  · obtain ⟨rfl, hr, rfl⟩ := runs_ret.mp hcatch
    rcases runs_await.mp hbody with ⟨x, w₁, cs₁, h₁, hrest, rfl⟩ | ⟨f, e', h₁, rfl, -⟩
    · rcases runs_await.mp hrest with ⟨y, w₂, cs₂, -, hret, -⟩ | ⟨f, e', h₂, rfl, -⟩
      · obtain ⟨-, he, -⟩ := runs_ret.mp hret
        cases he
      · refine ⟨?_, hr, (scard h₂).trans (scard h₁)⟩
        simp [Statistics]
    · refine ⟨?_, hr, scard h₁⟩
      simp [Statistics]

/-- A Redis command other than SPOP goes through. -/
theorem not_calm {f : Fault} {op : Op} {e : Exc} (hx : exec f p op w (.error e) w')
    (hr : op.OnRedis) (hop : ∀ k, op ≠ .spop k) : ¬ Calm ⟨f, op, .error e⟩ := by
  intro hc
  rcases hc hr with hf | ⟨-, k, hk⟩
  · exact (exec_redis_error hx hr).2.1 hf
  · exact hop k hk

theorem runs_compensate {r : Except Exc Unit} (h : Executes p (compensate a) w cs r w')
    (hc : ∀ c ∈ cs, Calm c) : cs = compensationCalls a ∧ r = .ok () ∧
      w' = withSets w (compensatedSets w.sets a) := by
  rcases runs_tryCatch.mp h with ⟨u, hbody, rfl⟩ | ⟨e, w₁, cs₁, cs₂, hbody, -, rfl⟩
  · rcases runs_await.mp hbody with ⟨_, w₁, cs₁, hmove, hrest, rfl⟩ | ⟨f, e, -, -, he⟩
    · obtain ⟨f, hadd, rfl⟩ := runs_perform.mp hrest
      obtain ⟨rfl, hadd⟩ := exec_ok hadd
      obtain ⟨-, rfl⟩ := hmove
      obtain ⟨-, rfl⟩ := hadd
      exact ⟨rfl, rfl, rfl⟩
    · cases he
  · exfalso
    rcases runs_await.mp hbody with ⟨_, w₂, cs₃, -, hrest, rfl⟩ | ⟨f, e', hmove, rfl, -⟩
    · obtain ⟨f, hadd, rfl⟩ := runs_perform.mp hrest
      exact not_calm hadd trivial (by simp) (hc _ (by simp))
    · exact not_calm hmove trivial (by simp) (hc _ (by simp))

/-- The insert of an attempt and its `except` clauses. -/
theorem runs_insert {handler : Exc → App (Option Order)} {r : Except Exc (Option Order)}
    (h : Executes p (Prog.tryCatch (do
      let newOrder ← await (.insertOrder userId amount a)
      pure (some newOrder)) handler) w cs r w') :
    (∃ o, exec .done p (.insertOrder userId amount a) w (.ok o) w' ∧ r = .ok (some o) ∧
      cs = [⟨.done, .insertOrder userId amount a, .ok o⟩]) ∨
    ∃ f e w₁ cs₁, exec f p (.insertOrder userId amount a) w (.error e) w₁ ∧
      Executes p (handler e) w₁ cs₁ r w' ∧
      cs = ⟨f, .insertOrder userId amount a, .error e⟩ :: cs₁ := by
  rcases runs_tryCatch.mp h with ⟨u, hbody, rfl⟩ | ⟨e, w₁, cs₁, cs₂, hbody, hcatch, rfl⟩
  · rcases runs_await.mp hbody with ⟨o, w₁, cs₁, hi, hret, rfl⟩ | ⟨f, e, -, -, he⟩
    · obtain ⟨rfl, hu, rfl⟩ := runs_ret.mp hret
      exact Or.inl ⟨o, hi, hu, rfl⟩
    · cases he
  · rcases runs_await.mp hbody with ⟨o, w₂, cs₃, -, hret, -⟩ | ⟨f, e', hi, rfl, he⟩
    · obtain ⟨-, he, -⟩ := runs_ret.mp hret
      cases he
    · cases he
      exact Or.inr ⟨f, e, w₁, cs₂, hi, hcatch, rfl⟩

/-- A compensation, and then the exception of the attempt. -/
theorem runs_compensate_throw {e : Exc} {r : Except Exc (Option Order)}
    (h : Executes p (do compensate a; throw e) w cs r w') (hc : ∀ c ∈ cs, Calm c) :
    cs = compensationCalls a ∧ r = .error e ∧ w' = withSets w (compensatedSets w.sets a) := by
  rcases runs_bind.mp h with ⟨_, w₁, cs₁, cs₂, hcomp, hthrow, rfl⟩ | ⟨e', hcomp, rfl⟩
  · obtain ⟨rfl, rfl, rfl⟩ := runs_raise.mp hthrow
    rw [List.append_nil] at hc ⊢
    obtain ⟨rfl, -, rfl⟩ := runs_compensate hcomp hc
    exact ⟨rfl, rfl, rfl⟩
  · obtain ⟨-, he, -⟩ := runs_compensate hcomp hc
    cases he

/-- The allocation of an attempt. -/
theorem runs_allocation {r : Except Exc (Option AllocatedAmount)}
    (h : Executes p (getUniqueAmount (some amount)) w cs r w') (hc : ∀ c ∈ cs, Calm c) :
    (∃ a, a ∈ w.free ∧ r = .ok (some ⟨a, .redis⟩) ∧ cs = givenCalls a ∧
      w' = withSets w (givenSets w.sets a)) ∨
    (r = .ok none ∧ cs = [⟨.done, .spop .freeAmounts, .ok none⟩] ∧ w' = w) ∨
    ∃ g c, exec g p (fallbackQuery (some amount)) w c w ∧ r = fromPostgres c ∧
      cs = askedCalls amount g c ∧ w' = w := by
  cases runs_getUniqueAmount h with
  | given pop move =>
    obtain ⟨ha, rfl⟩ := exec_spop_some pop
    obtain ⟨-, rfl⟩ := (exec_ok move).2
    exact Or.inl ⟨_, ha, rfl, rfl, rfl⟩
  | empty pop =>
    rcases (exec_ok pop).2 with ⟨a, -, he, -⟩ | ⟨-, -, rfl⟩
    · cases he
    · exact Or.inr (Or.inl ⟨rfl, rfl, rfl⟩)
  | @refused f g w₁ _ c pop ask =>
    obtain ⟨-, hdone, hkeep⟩ := exec_redis_error pop trivial
    obtain rfl : f = .failed := by
      rcases hc _ List.mem_cons_self trivial with hf | ⟨hf, -⟩
      · exact absurd hf hdone
      · exact hf
    obtain rfl := hkeep (by simp)
    obtain ⟨rfl, -⟩ := exec_candidate ask
    exact Or.inr (Or.inr ⟨g, c, ask, rfl, rfl, rfl⟩)
  | unmoved pop move ask => exact absurd (hc _ (by simp)) (not_calm move trivial (by simp))

theorem runs_createOrderLoop {r : Except Exc (Option Order)} (hn : n ≠ 0)
    (h : Executes p (createOrderLoop userId amount n) w cs r w') (hc : ∀ c ∈ cs, Calm c) :
    Tries p userId amount n w cs r w' := by
  induction n generalizing w cs with
  | zero => exact absurd rfl hn
  | succ n ih =>
    rcases runs_bind.mp h with ⟨u, w₁, cs₁, cs₂, halloc, hrest, rfl⟩ | ⟨e, halloc, rfl⟩
    · have hc₁ : ∀ c ∈ cs₁, Calm c := fun c hcs => hc c (List.mem_append_left _ hcs)
      have hc₂ : ∀ c ∈ cs₂, Calm c := fun c hcs => hc c (List.mem_append_right _ hcs)
      have statistics : ∀ {w₁}, Executes p (do logStatistics; pure none) w₁ cs₂ r w' →
          Statistics cs₂ ∧ r = .ok none ∧ w' = w₁ := by
        intro w₁ hrun
        rcases runs_bind.mp hrun with ⟨_, w₂, cs₃, cs₄, hlog, hret, rfl⟩ | ⟨e, hlog, -⟩
        · obtain ⟨hs, -, rfl⟩ := runs_logStatistics hlog
          obtain ⟨rfl, rfl, rfl⟩ := runs_ret.mp hret
          exact ⟨by simpa using hs, rfl, rfl⟩
        · obtain ⟨-, he, -⟩ := runs_logStatistics hlog
          cases he
      rcases runs_allocation halloc hc₁ with ⟨a, ha, hu, rfl, rfl⟩ | ⟨hu, rfl, rfl⟩ |
        ⟨g, c, hask, hu, rfl, rfl⟩
      · -- Redis gave `a`
        cases hu
        by_cases h0 : a = 0
        · subst h0
          obtain ⟨hs, rfl, rfl⟩ := statistics hrest
          exact .zero ha hs
        · rw [show (some (⟨a, .redis⟩ : AllocatedAmount)).filter (fun u => u.value ≠ 0) =
            some ⟨a, .redis⟩ by simp [h0]] at hrest
          rcases runs_insert hrest with ⟨o, hi, rfl, rfl⟩ | ⟨f, e, w₂, cs₃, hi, hcatch, rfl⟩
          · exact .stored ha h0 hi
          · have hthrow : Executes p (do compensate a; throw (insertError e)) w₂ cs₃ r w' := by
              unfold insertError
              split_ifs with he
              · simpa [he] using hcatch
              · simpa [he] using hcatch
            obtain ⟨rfl, rfl, rfl⟩ := runs_compensate_throw hthrow fun c hcs =>
              hc₂ c (List.mem_cons_of_mem _ hcs)
            exact .compensated ha h0 hi
      · cases hu
        obtain ⟨hs, rfl, rfl⟩ := statistics hrest
        exact .empty hs
      · -- PostgreSQL answered
        cases c with
        | error e => cases hu
        | ok c =>
          cases hu
          obtain rfl := (exec_ok hask).1
          cases c with
          | none =>
            obtain ⟨hs, rfl, rfl⟩ := statistics hrest
            exact .unserved (by simp) hs
          | some a =>
            by_cases h0 : a = 0
            · subst h0
              obtain ⟨hs, rfl, rfl⟩ := statistics hrest
              exact .unserved (by simp) hs
            · rw [show (Option.map (fun a => (⟨a, .postgres⟩ : AllocatedAmount)) (some a)).filter
                (fun u => u.value ≠ 0) = some ⟨a, .postgres⟩ by simp [h0]] at hrest
              rcases runs_insert hrest with ⟨o, hi, rfl, rfl⟩ | ⟨f, e, w₂, cs₃, hi, hcatch, rfl⟩
              · exact .fallback h0 hi
              · by_cases hretry : e.kind = .integrityError ∧ n ≠ 0
                · have hloop : Executes p (createOrderLoop userId amount n) w₂ cs₃ r w' := by
                    simpa [hretry.1, hretry.2] using hcatch
                  exact .again h0 hi hretry.1 hretry.2 (ih hretry.2 hloop fun c hcs =>
                    hc₂ c (List.mem_cons_of_mem _ hcs))
                · have hthrow : Executes p (throw (insertError e)) w₂ cs₃ r w' := by
                    unfold insertError
                    by_cases he : e.kind = .integrityError
                    · have hn0 : n = 0 := by
                        by_contra hn
                        exact hretry ⟨he, hn⟩
                      simpa [he, hn0] using hcatch
                    · simpa [he] using hcatch
                  obtain ⟨rfl, rfl, rfl⟩ := runs_raise.mp hthrow
                  refine .refused h0 hi fun he => ?_
                  by_contra hn
                  exact hretry ⟨he, hn⟩
    · rcases runs_allocation halloc hc with ⟨a, -, hu, -⟩ | ⟨hu, -⟩ | ⟨g, c, hask, hu, rfl, rfl⟩
      · cases hu
      · cases hu
      · cases c with
        | error e' =>
          cases hu
          exact .unanswered hask
        | ok c => cases hu

/-! ## What holds of all executions -/

theorem exec_insertOrder_ok {f : Fault} {o : Order}
    (h : exec f p (.insertOrder userId amount a) w (.ok o) w') : o = w.newOrder userId amount ∧
      w' = w.tickOrder.flush p [.insOrder o, .insIntent (w.newIntent amount a)] := by
  obtain ⟨-, h⟩ := exec_ok h
  simp only [Op.run] at h
  split_ifs at h
  · obtain ⟨-, ⟨-, he, -⟩ | ⟨-, he, rfl⟩⟩ := h
    · cases he
    · cases he
      exact ⟨rfl, rfl⟩
  · cases h.1

theorem exec_insertOrder (hm : inInt4 amount) (ha : inInt4 a) (hbusy : ¬ w.AmountBusy p a)
    (htaken : ¬ w.AmountTaken p a) :
    exec .done p (.insertOrder userId amount a) w (.ok (w.newOrder userId amount))
      (w.tickOrder.flush p
        [.insOrder (w.newOrder userId amount), .insIntent (w.newIntent amount a)]) := by
  show ite _ _ _
  rw [if_pos ⟨hm, ha⟩]
  exact ⟨hbusy, Or.inr ⟨htaken, rfl, rfl⟩⟩

/-- The tables, the sets and the uncommitted writes of the session are the same. -/
structure Unchanged (p : Pid) (w w' : World) : Prop where
  orders : w'.db.orders = w.db.orders
  intents : w'.db.intents = w.db.intents
  sets : w'.sets = w.sets
  writes : (w'.txn p).writes = (w.txn p).writes

theorem Unchanged.refl : Unchanged p w w := ⟨rfl, rfl, rfl, rfl⟩

theorem Unchanged.trans {w'' : World} (h : Unchanged p w w') (h' : Unchanged p w' w'') :
    Unchanged p w w'' :=
  ⟨h'.orders.trans h.orders, h'.intents.trans h.intents, h'.sets.trans h.sets,
    h'.writes.trans h.writes⟩

/-- An insert that raises leaves no row. -/
theorem exec_insertOrder_error {f : Fault} {e : Exc}
    (h : exec f p (.insertOrder userId amount a) w (.error e) w') : Unchanged p w w' := by
  cases f with
  | done =>
    simp only [exec, Op.run] at h
    split_ifs at h
    · obtain ⟨-, ⟨-, -, rfl⟩ | ⟨-, he, -⟩⟩ := h
      · exact ⟨rfl, rfl, rfl, rfl⟩
      · cases he
    · obtain ⟨-, rfl⟩ := h
      exact .refl
  | failed =>
    obtain ⟨rfl, -⟩ := h
    exact .refl
  | lost =>
    obtain ⟨hl, -⟩ := h
    rcases hl with hl | hl
    · exact hl.elim
    · cases hl

/-- Every way an attempt fails after Redis gave `a` restores the sets. -/
theorem compensated_unchanged {w₁ : World} (ha : a ∈ w.free) (hp : a ∉ w.pending)
    (h : Unchanged p (withSets w (givenSets w.sets a)) w₁) :
    Unchanged p w (withSets w₁ (compensatedSets w₁.sets a)) := by
  have hsets : w₁.sets = givenSets w.sets a := h.sets
  refine ⟨h.orders, h.intents, ?_, h.writes⟩
  show compensatedSets w₁.sets a = w.sets
  rw [hsets]
  exact sadd_smove_smove_spop (by decide) (by decide) (by decide) ha hp

def isInsert : Call sig Exc → Bool
  | ⟨_, .insertOrder _ _ _, _⟩ => true
  | _ => false

/-- An insert that raised IntegrityError. -/
def collides : Call sig Exc → Bool
  | ⟨_, .insertOrder _ _ _, .error e⟩ => e.kind = .integrityError
  | _ => false

/-- A command of the compensation. -/
def Compensates : Call sig Exc → Prop
  | ⟨_, .smove .pendingOrders .amounts _, _⟩ | ⟨_, .sadd .freeAmounts _, _⟩ => True
  | _ => False

/-- The last calls are the insert of a fallback amount and its IntegrityError. -/
def EndsInCollision (userId : Id) (amount : Amount) (cs : Calls) : Prop :=
  ∃ pre g lo hi a f e, cs = pre ++ [⟨g, .candidate lo hi, .ok (some a)⟩,
    ⟨f, .insertOrder userId amount a, .error e⟩] ∧ e.kind = .integrityError

/-- The insert of an amount that Redis had just given raised IntegrityError. -/
def RedisCollision (userId : Id) (amount : Amount) (cs : Calls) : Prop :=
  ∃ pre a f e post, cs = pre ++ (givenCalls a ++
    ⟨f, .insertOrder userId amount a, .error e⟩ :: post) ∧ e.kind = .integrityError

/-- The last calls are the insert of an amount that Redis had just given, its exception, and perhaps a
part of the compensation, to which `c` belongs too. -/
def Compensating (userId : Id) (amount : Amount) (cs : Calls) (c : Call sig Exc) : Prop :=
  ∃ pre a f e mid, cs = pre ++ (givenCalls a ++
    ⟨f, .insertOrder userId amount a, .error e⟩ :: mid) ∧
    (∀ m ∈ mid, m ∈ compensationCalls a) ∧ c ∈ compensationCalls a

def duplicateUniqueAmount : Exc := ⟨.duplicateUniqueAmountError, "Duplicate unique amount"⟩

section Tries

variable {r : Except Exc (Option Order)}

theorem countP_statistics {stats : Calls} {P : Call sig Exc → Bool}
    (hP : ∀ f k r, P ⟨f, .scard k, r⟩ = false) (h : Statistics stats) : stats.countP P = 0 := by
  rw [List.countP_eq_zero]
  rintro ⟨f, op, r⟩ hc
  obtain ⟨k, rfl⟩ := h _ hc
  simp [hP]

theorem Tries.inserts_le (h : Tries p userId amount n w cs r w') : cs.countP isInsert ≤ n := by
  have none : ∀ {stats}, Statistics stats → stats.countP isInsert = 0 :=
    fun hs => countP_statistics (fun _ _ _ => rfl) hs
  induction h with
  | empty hs => simp [isInsert, none hs]
  | zero _ hs => simp [givenCalls, isInsert, none hs]
  | unserved _ hs => simp [askedCalls, isInsert, none hs]
  | again _ _ _ _ _ ih => simpa [askedCalls, List.countP_cons, isInsert] using ih
  | _ => simp [givenCalls, compensationCalls, askedCalls, List.countP_cons, isInsert]

/-- A call that follows neither retries nor compensates. -/
theorem retries_of_not_pop {P : Calls → Prop} (h : ∀ c ∈ cs, c.op ≠ .spop .freeAmounts) :
    AtEach (fun pre c => c.op = .spop .freeAmounts → P pre) cs :=
  atEach_of_forall fun _ c hc he => absurd he (h c hc)

theorem Statistics.no_pop {stats : Calls} (h : Statistics stats) :
    ∀ c ∈ stats, c.op ≠ .spop .freeAmounts := by
  intro c hc
  obtain ⟨k, hk⟩ := h c hc
  rw [hk]
  simp

/-- An attempt that is not the first follows a collision of a fallback amount. -/
theorem Tries.retries (h : Tries p userId amount n w cs r w') :
    AtEach (fun pre c => c.op = .spop .freeAmounts → pre = [] ∨ EndsInCollision userId amount pre)
      cs := by
  induction h with
  | empty hs => simpa using retries_of_not_pop hs.no_pop
  | zero _ hs => simpa [givenCalls] using retries_of_not_pop hs.no_pop
  | unserved _ hs => simpa [askedCalls] using retries_of_not_pop hs.no_pop
  | @again n w w₁ w' a f e cs r h0 hi he hn hrest ih =>
    have hcoll : EndsInCollision userId amount (askedCalls amount .done (.ok (some a)) ++
        [⟨f, .insertOrder userId amount a, .error e⟩]) := ⟨[_], _, _, _, a, f, e, rfl, he⟩
    simp only [askedCalls, List.cons_append, List.nil_append, atEach_cons]
    refine ⟨by simp, by simp, by simp, ih.mono fun pre c hc h hop => Or.inr ?_⟩
    rcases h hop with rfl | ⟨pre', g, lo, hi, a', f', e', rfl, he'⟩
    · exact hcoll
    · exact ⟨_ :: _ :: _ :: pre', g, lo, hi, a', f', e', rfl, he'⟩
  | _ => simp [givenCalls, compensationCalls, askedCalls]

/-- When the loop returns an order, it flushed the order and its PENDING intent. -/
theorem Tries.stored_rows (h : Tries p userId amount n w cs r w') {o : Order}
    (hr : r = .ok (some o)) : ∃ i, i.orderId = o.id ∧ i.status = .PENDING ∧
      (w'.txn p).writes = (w.txn p).writes ++ [.insOrder o, .insIntent i] ∧
      w'.db.orders = w.db.orders ∧ w'.db.intents = w.db.intents := by
  have insert : ∀ {a o' w₁ w₂}, exec .done p (.insertOrder userId amount a) w₁ (.ok o') w₂ →
      ∃ i, i.orderId = o'.id ∧ i.status = .PENDING ∧
        (w₂.txn p).writes = (w₁.txn p).writes ++ [.insOrder o', .insIntent i] ∧
        w₂.db.orders = w₁.db.orders ∧ w₂.db.intents = w₁.db.intents := by
    intro a o' w₁ w₂ hi
    obtain ⟨rfl, rfl⟩ := exec_insertOrder_ok hi
    exact ⟨w₁.newIntent amount a, rfl, rfl, by simp [flush_writes], rfl, rfl⟩
  induction h with
  | stored _ _ hi =>
    cases hr
    have hrows := insert hi
    exact hrows
  | fallback _ hi =>
    cases hr
    exact insert hi
  | again _ hi _ _ _ ih =>
    have hsame := exec_insertOrder_error hi
    obtain ⟨i, hid, hst, hw, ho, hin⟩ := ih hr
    exact ⟨i, hid, hst, by rw [hw, hsame.writes], ho.trans hsame.orders, hin.trans hsame.intents⟩
  | _ => cases hr

/-- When it raises or returns `None`, nothing changed. -/
theorem Tries.unchanged (h : Tries p userId amount n w cs r w') (h0 : 0 ∉ w.free)
    (hdisj : Disjoint w.free w.pending) (hr : ∀ o, r ≠ .ok (some o)) : Unchanged p w w' := by
  induction h with
  | empty _ => exact .refl
  | zero hmem _ => exact absurd hmem h0
  | stored | fallback => exact absurd rfl (hr _)
  | compensated ha _ hi =>
    exact compensated_unchanged ha (Finset.disjoint_left.mp hdisj ha) (exec_insertOrder_error hi)
  | unanswered _ => exact .refl
  | unserved _ _ => exact .refl
  | refused _ hi _ => exact exec_insertOrder_error hi
  | again _ hi _ _ _ ih =>
    have hsame := exec_insertOrder_error hi
    have hsets := hsame.sets
    refine hsame.trans (ih ?_ ?_ hr)
    · rw [World.free, hsets]
      exact h0
    · rw [World.free, World.pending, hsets]
      exact hdisj

/-- Compensating is for amounts of Redis. -/
theorem Tries.compensates (h : Tries p userId amount n w cs r w') :
    AtEach (fun pre c => Compensates c → Compensating userId amount pre c) cs := by
  have stats : ∀ {stats : Calls} {P : Calls → Call sig Exc → Prop}, Statistics stats →
      AtEach (fun pre c => Compensates c → P pre c) stats := by
    intro stats P hs
    refine atEach_of_forall fun pre c hc hcomp => ?_
    obtain ⟨f, op, r⟩ := c
    obtain ⟨k, rfl⟩ := hs _ hc
    exact hcomp.elim
  induction h with
  | empty hs => simpa [Compensates] using stats hs
  | zero _ hs => simpa [givenCalls, Compensates] using stats hs
  | unserved _ hs => simpa [askedCalls, Compensates] using stats hs
  | @compensated n w w₁ a f e ha h0 hi =>
    simp only [givenCalls, compensationCalls, List.cons_append, List.nil_append, atEach_cons,
      Compensates, atEach_nil, false_implies, true_and, and_true, true_implies]
    constructor
    · exact ⟨[], a, f, e, [], rfl, by simp, by simp [compensationCalls]⟩
    · exact ⟨[], a, f, e, [_], rfl, by simp [compensationCalls], by simp [compensationCalls]⟩
  | again _ _ _ _ _ ih =>
    simp only [askedCalls, List.cons_append, List.nil_append, atEach_cons]
    refine ⟨by simp [Compensates], by simp [Compensates], by simp [Compensates], ?_⟩
    refine ih.mono fun pre c _ h hcomp => ?_
    obtain ⟨pre', a', f', e', mid, rfl, hmid⟩ := h hcomp
    exact ⟨_ :: _ :: _ :: pre', a', f', e', mid, rfl, hmid⟩
  | _ => simp [givenCalls, askedCalls, Compensates]

/-- An attempt that asked PostgreSQL does not count. -/
theorem redisCollision_again {f : Fault} {e : Exc} :
    RedisCollision userId amount (askedCalls amount .done (.ok (some a)) ++
      ⟨f, .insertOrder userId amount a, .error e⟩ :: cs) ↔ RedisCollision userId amount cs := by
  constructor
  · rintro ⟨pre, a', f', e', post, he, hk⟩
    rcases pre with _ | ⟨x, _ | ⟨y, _ | ⟨z, pre⟩⟩⟩
    · simp [askedCalls, givenCalls] at he
    · simp [askedCalls, givenCalls] at he
    · simp [askedCalls, givenCalls] at he
    · simp only [askedCalls, List.cons_append, List.nil_append, List.cons.injEq] at he
      exact ⟨pre, a', f', e', post, he.2.2.2, hk⟩
  · rintro ⟨pre, a', f', e', post, rfl, hk⟩
    exact ⟨_ :: _ :: _ :: pre, a', f', e', post, rfl, hk⟩

theorem insertError_eq_duplicate {e : Exc} :
    insertError e = duplicateUniqueAmount ↔ e.kind = .integrityError := by
  unfold insertError duplicateUniqueAmount
  split_ifs with h <;> simp [h]

/-- Without a collision there is no duplicate. -/
theorem duplicate_iff_of_quiet (hq : ∀ c ∈ cs, collides c = false) (hn : n ≠ 0)
    (hr : r ≠ .error duplicateUniqueAmount) : r = .error duplicateUniqueAmount ↔
      cs.countP collides = n ∨ RedisCollision userId amount cs := by
  refine iff_of_false hr ?_
  rintro (hc | ⟨pre, a, f, e, post, rfl, he⟩)
  · rw [List.countP_eq_zero.mpr (by simpa using hq)] at hc
    exact hn hc.symm
  · have hno := hq ⟨f, .insertOrder userId amount a, .error e⟩ (by simp)
    simp [collides, he] at hno

theorem Statistics.quiet {stats : Calls} (h : Statistics stats) :
    ∀ c ∈ stats, collides c = false := by
  rintro ⟨f, op, r⟩ hc
  obtain ⟨k, rfl⟩ := h _ hc
  rfl

/-- The loop raises DuplicateUniqueAmountError when every attempt collided, or a Redis amount did. -/
theorem Tries.duplicate_iff (h : Tries p userId amount n w cs r w') :
    r = .error duplicateUniqueAmount ↔
      cs.countP collides = n ∨ RedisCollision userId amount cs := by
  induction h with
  | empty hs => exact duplicate_iff_of_quiet (by simpa [collides] using hs.quiet) (by simp) (by simp)
  | zero _ hs =>
    exact duplicate_iff_of_quiet (by simpa [givenCalls, collides] using hs.quiet) (by simp) (by simp)
  | unserved _ hs =>
    exact duplicate_iff_of_quiet (by simpa [askedCalls, collides] using hs.quiet) (by simp) (by simp)
  | stored => exact duplicate_iff_of_quiet (by simp [givenCalls, collides]) (by simp) (by simp)
  | fallback => exact duplicate_iff_of_quiet (by simp [askedCalls, collides]) (by simp) (by simp)
  | unanswered hq =>
    refine duplicate_iff_of_quiet (by simp [askedCalls, collides]) (by simp) fun he => ?_
    have hmem := (exec_candidate hq).2.2 _ rfl
    rw [Except.error.inj he] at hmem
    simp [duplicateUniqueAmount, DBAPIError, IntegrityError, DataError] at hmem
  | @compensated n w w₁ a f e ha h0 hi =>
    by_cases he : e.kind = .integrityError
    · refine iff_of_true (by rw [insertError_eq_duplicate.mpr he]) (Or.inr ?_)
      exact ⟨[], a, f, e, _, rfl, he⟩
    · refine duplicate_iff_of_quiet ?_ (by simp) fun hr => ?_
      · simp [givenCalls, compensationCalls, collides, he]
      · exact he (insertError_eq_duplicate.mp (Except.error.inj hr))
  | @refused n w w₁ a f e h0 hi hlast =>
    by_cases he : e.kind = .integrityError
    · refine iff_of_true (by rw [insertError_eq_duplicate.mpr he]) (Or.inl ?_)
      simp [askedCalls, collides, he, hlast he]
    · refine duplicate_iff_of_quiet ?_ (by simp) fun hr => ?_
      · simp [askedCalls, collides, he]
      · exact he (insertError_eq_duplicate.mp (Except.error.inj hr))
  | again _ _ he _ _ ih =>
    rw [ih, redisCollision_again]
    simp [askedCalls, collides, he]

end Tries

/-- What the callers of `create_order_service` rely on. -/
structure RetryContract (p : Pid) (userId : Id) (amount : Amount) (maxRetries : ℕ) (w : World)
    (cs : Calls) (r : Except Exc (Option Order)) (w' : World) : Prop where
  inserts : cs.countP isInsert ≤ maxRetries
  retries : AtEach (fun pre c => c.op = .spop .freeAmounts → pre = [] ∨
    EndsInCollision userId amount pre) cs
  duplicate : r = .error duplicateUniqueAmount ↔
    cs.countP collides = maxRetries ∨ RedisCollision userId amount cs
  stored : ∀ o, r = .ok (some o) → ∃ i, i.orderId = o.id ∧ i.status = .PENDING ∧
    (w'.txn p).writes = (w.txn p).writes ++ [.insOrder o, .insIntent i] ∧
    w'.db.orders = w.db.orders ∧ w'.db.intents = w.db.intents
  unchanged : (∀ o, r ≠ .ok (some o)) → Unchanged p w w'
  compensates : AtEach (fun pre c => Compensates c → Compensating userId amount pre c) cs

/-- **The retry loop.**  However the attempts go, with SPOP failing at will and no other Redis command
failing: there are at most `maxRetries` inserts; an attempt that is not the first follows an
IntegrityError on a fallback amount; DuplicateUniqueAmountError means that all attempts ended so, or
that a Redis amount collided; an order that is returned was added with one PENDING intent; without one
no row was added and the sets are as before; and only amounts that Redis gave are compensated. -/
theorem createOrderService_contract {maxRetries : ℕ} {r : Except Exc (Option Order)}
    (hn : 1 ≤ maxRetries) (hpos : ∀ a ∈ w.free, 0 < a) (hdisj : Disjoint w.free w.pending)
    (h : Executes p (createOrderService userId amount maxRetries) w cs r w')
    (hc : ∀ c ∈ cs, Calm c) : RetryContract p userId amount maxRetries w cs r w' := by
  have ht := runs_createOrderLoop (Nat.ne_of_gt hn) h hc
  exact
    { inserts := ht.inserts_le
      retries := ht.retries
      duplicate := ht.duplicate_iff
      stored := fun o hr => ht.stored_rows hr
      unchanged := ht.unchanged (fun h0 => lt_irrefl _ (hpos 0 h0)) hdisj
      compensates := ht.compensates }

/-- One collision of a fallback amount, and then Redis gives an amount. -/
theorem createOrderService_contract_sample : ∃ (cs : Calls) (o : Order) (w' : World),
    Executes 0 (createOrderService 7 1500000 2) lonePool cs (.ok (some o)) w' ∧
      RetryContract 0 7 1500000 2 lonePool cs (.ok (some o)) w' := by
  have hdown : exec .failed 0 (.spop .freeAmounts) lonePool (.error RedisError) lonePool :=
    ⟨rfl, RedisError, rfl, rfl⟩
  have hask : exec .done 0 (fallbackQuery (some 1500000)) lonePool (.ok (some 1500001)) lonePool :=
    ⟨rfl, Or.inl ⟨1500001, by decide, by decide, by decide, rfl⟩⟩
  have hcollide : exec .failed 0 (.insertOrder 7 1500000 1500001) lonePool (.error IntegrityError)
      lonePool := ⟨rfl, IntegrityError, Or.inr rfl, rfl⟩
  have hpop : exec .done 0 (.spop .freeAmounts) lonePool (.ok (some 1500000))
      (withSets lonePool (SetStore.spop lonePool.sets .freeAmounts 1500000)) :=
    Or.inl ⟨1500000, by decide, rfl, rfl⟩
  let given := withSets lonePool (givenSets lonePool.sets 1500000)
  have hmove : exec .done 0 (.smove .amounts .pendingOrders 1500000)
      (withSets lonePool (SetStore.spop lonePool.sets .freeAmounts 1500000)) (.ok ()) given :=
    ⟨rfl, rfl⟩
  have hinsert : exec .done 0 (.insertOrder 7 1500000 1500000) given
      (.ok (given.newOrder 7 1500000)) (given.tickOrder.flush 0 [.insOrder (given.newOrder 7 1500000),
        .insIntent (given.newIntent 1500000 1500000)]) :=
    exec_insertOrder (by decide) (by decide)
      (by simp [World.AmountBusy, given, lonePool, World.empty, Txn.empty, Db.empty])
      (by simp [World.AmountTaken, given, lonePool, World.empty, Txn.empty, Db.empty])
  let cs : Calls := askedCalls 1500000 .done (.ok (some 1500001)) ++
    ⟨.failed, .insertOrder 7 1500000 1500001, .error IntegrityError⟩ :: (givenCalls 1500000 ++
      [⟨.done, .insertOrder 7 1500000 1500000, .ok (given.newOrder 7 1500000)⟩])
  have hrun : Executes 0 (createOrderService 7 1500000 2) lonePool cs
      (.ok (some (given.newOrder 7 1500000))) (given.tickOrder.flush 0
        [.insOrder (given.newOrder 7 1500000), .insIntent (given.newIntent 1500000 1500000)]) := by
    refine Runs.call hdown ?_
    refine Runs.call hask ?_
    refine Runs.call hcollide ?_
    refine Runs.call hpop ?_
    refine Runs.call hmove ?_
    exact Runs.call hinsert .ret
  have hcalm : ∀ c ∈ cs, Calm c := by
    simp [cs, askedCalls, givenCalls, Calm, Op.OnRedis]
  exact ⟨cs, _, _, hrun,
    createOrderService_contract (by decide) (by decide) (by decide) hrun hcalm⟩

end Requests

end PaymentRecon
