import Mathlib.Data.Finset.Card
import Mathlib.Data.Finset.Option
import Mathlib.Data.Finset.Union
import PaymentRecon.Requests.Allocate

/-!
# Concurrent — any number of allocations at once

Threads that each call `get_unique_amount` and interleave their SPOP and SMOVE commands.  The invariant
`Shared` says, for the amount every thread popped (`got`) and the threads that are through (`ended`),
what the three sets hold; it does not depend on the schedule.
-/

namespace PaymentRecon

open Interleave SetStore

namespace Requests

/-- Calls of `get_unique_amount` side by side. -/
@[reducible] def allocators :
    Machine sig Exc (Option AllocatedAmount) World (Option Amount) Tick where
  prog := getUniqueAmount
  exec := exec
  abort := fun p w => w.rollback p
  outer := fun x w => w.tick x

abbrev Allocators := Config sig Exc (Option AllocatedAmount) World (Option Amount) Tick

/-- Redis is available, and no call is cut off. -/
def Available (_ : Allocators) (a : Act sig Exc (Option Amount) Tick) (_ : Allocators) : Prop := a.Clean

/-- The call after its SPOP answered `a`. -/
def waiting (b : Option Amount) (a : Amount) : App (Option AllocatedAmount) :=
  Prog.tryCatch (do
      await (.smove .amounts .pendingOrders a)
      pure (some ⟨a, .redis⟩))
    fun e =>
      if e.kind = .redisError then do
        let fallbackAmount ← getUniqueAmountFromPostgres b
        pure (fallbackAmount.map fun a => ⟨a, .postgres⟩)
      else throw e

/-- How far a call has come: the amount it popped and the amount it moved. -/
inductive Progress : Thread sig Exc (Option AllocatedAmount) → Option Amount → Option Amount → Prop
  | fresh : Progress .fresh none none
  | begun (b : Option Amount) : Progress (.live (getUniqueAmount b)) none none
  | popped (b : Option Amount) (a : Amount) : Progress (.live (waiting b a)) (some a) none
  | given (a : Amount) : Progress (.live (.ret (some ⟨a, .redis⟩))) (some a) (some a)
  | refused : Progress (.live (.ret none)) none none

theorem Progress.got_of_moved {t : Thread sig Exc (Option AllocatedAmount)} {g : Option Amount}
    {a : Amount} (h : Progress t g (some a)) : g = some a := by
  cases h
  rfl

/-- What the sets hold, from the sets of `w₀` on. -/
structure Shared (w₀ : World) (c : Allocators) (got moved : Pid → Option Amount) : Prop where
  progress : ∀ p, Progress (c.thread p) (got p) (moved p)
  distinct : ∀ p q a, got p = some a → got q = some a → p = q
  source : ∀ p a, got p = some a → a ∈ w₀.free
  drained : ∀ p, c.thread p = .live (.ret none) → c.world.free = ∅
  free : ∀ x, x ∈ c.world.free ↔ x ∈ w₀.free ∧ ∀ p, got p ≠ some x
  pending : ∀ x, x ∈ c.world.pending ↔ x ∈ w₀.pending ∨ ∃ p, moved p = some x
  amounts : ∀ x, x ∈ c.world.amounts ↔ x ∈ w₀.amounts ∧ ∀ p, moved p ≠ some x

section Step

variable {w₀ w' : World} {c c' : Allocators} {got moved : Pid → Option Amount} {p : Pid}
  {a : Amount} {act : Act sig Exc (Option Amount) Tick}

theorem Shared.init : Shared w₀ (.init w₀) (fun _ => none) fun _ => none where
  progress _ := .fresh
  distinct _ _ _ h := by cases h
  source _ _ h := by cases h
  drained _ h := by cases h
  free x := by simp [Config.init]
  pending x := by simp [Config.init]
  amounts x := by simp [Config.init]

/-- A thread moves on, and the sets stay. -/
theorem Shared.thread (h : Shared w₀ c got moved) {t : Thread sig Exc (Option AllocatedAmount)}
    (hsets : w'.sets = c.world.sets) (ht : Progress t (got p) (moved p))
    (hempty : t = .live (.ret none) → c.world.free = ∅) :
    Shared w₀ (c.next act w' (Function.update c.thread p t)) got moved where
  progress q := by
    by_cases hq : q = p
    · subst hq
      simpa [Config.next] using ht
    · simpa [Config.next, hq] using h.progress q
  distinct := h.distinct
  source := h.source
  drained q hend := by
    have hfree : c.world.free = ∅ := by
      by_cases hq : q = p
      · subst hq
        exact hempty (by simpa [Config.next] using hend)
      · exact h.drained q (by simpa [Config.next, hq] using hend)
    simpa [Config.next, World.free, hsets] using hfree
  free x := by simpa [Config.next, World.free, hsets] using h.free x
  pending x := by simpa [Config.next, World.pending, hsets] using h.pending x
  amounts x := by simpa [Config.next, World.amounts, hsets] using h.amounts x

/-- A thread popped `a`. -/
theorem Shared.pop (h : Shared w₀ c got moved) {b : Option Amount} (hg : got p = none)
    (hm : moved p = none) (ha : a ∈ c.world.free) :
    Shared w₀ (c.next act (withSets c.world (SetStore.spop c.world.sets .freeAmounts a))
      (Function.update c.thread p (.live (waiting b a)))) (Function.update got p (some a)) moved where
  progress q := by
    by_cases hq : q = p
    · subst hq
      simpa [Config.next, hm] using Progress.popped b a
    · simpa [Config.next, hq] using h.progress q
  distinct q q' x hx hx' := by
    have hnew : ∀ q, got q ≠ some a := ((h.free a).mp ha).2
    by_cases hq : q = p
    · by_cases hq' : q' = p
      · rw [hq, hq']
      · subst hq
        simp only [Function.update_self, Option.some.injEq, Function.update_of_ne hq'] at hx hx'
        exact absurd (hx ▸ hx') (hnew q')
    · by_cases hq' : q' = p
      · subst hq'
        simp only [Function.update_self, Option.some.injEq, Function.update_of_ne hq] at hx hx'
        exact absurd (hx' ▸ hx) (hnew q)
      · simp only [Function.update_of_ne hq, Function.update_of_ne hq'] at hx hx'
        exact h.distinct q q' x hx hx'
  source q x hx := by
    by_cases hq : q = p
    · subst hq
      simp only [Function.update_self, Option.some.injEq] at hx
      exact hx ▸ ((h.free a).mp ha).1
    · exact h.source q x (by simpa [Function.update_of_ne hq] using hx)
  drained q hend := by
    by_cases hq : q = p
    · subst hq
      simp only [Config.next, Function.update_self] at hend
      cases hend
    · have hempty := h.drained q (by simpa [Config.next, hq] using hend)
      rw [hempty] at ha
      simp at ha
  free x := by
    simp only [Config.next, withSets_sets, World.free, mem_spop]
    rw [show x ∈ c.world.sets .freeAmounts ↔ _ from h.free x]
    constructor
    · rintro ⟨hne, hx, hno⟩
      refine ⟨hx, fun q => ?_⟩
      by_cases hq : q = p
      · subst hq
        simpa using Ne.symm hne
      · simpa [Function.update_of_ne hq] using hno q
    · rintro ⟨hx, hno⟩
      refine ⟨fun he => hno p (by simp [he]), hx, fun q hgq => ?_⟩
      by_cases hq : q = p
      · rw [hq, hg] at hgq
        cases hgq
      · exact hno q (by simpa [Function.update_of_ne hq] using hgq)
  pending x := by
    simpa [Config.next, World.pending, spop_other (show SetKey.pendingOrders ≠ .freeAmounts by decide)]
      using h.pending x
  amounts x := by
    simpa [Config.next, World.amounts, spop_other (show SetKey.amounts ≠ .freeAmounts by decide)]
      using h.amounts x

/-- A thread moved the amount it had popped. -/
theorem Shared.move (h : Shared w₀ c got moved) (hsub : w₀.free ⊆ w₀.amounts) (hg : got p = some a)
    (hm : moved p = none) :
    Shared w₀ (c.next act (withSets c.world (smove c.world.sets .amounts .pendingOrders a))
      (Function.update c.thread p (.live (.ret (some ⟨a, .redis⟩))))) got
      (Function.update moved p (some a)) := by
  have hmoved : ∀ q, moved q = some a → got q = some a := by
    intro q hq
    exact (hq ▸ h.progress q).got_of_moved
  have hne : ∀ q, moved q ≠ some a := by
    intro q hq
    obtain rfl := h.distinct q p a (hmoved q hq) hg
    rw [hm] at hq
    cases hq
  have hin : a ∈ c.world.amounts := (h.amounts a).mpr ⟨hsub (h.source p a hg), hne⟩
  have hupdate : ∀ x, (∃ q, Function.update moved p (some a) q = some x) ↔
      x = a ∨ ∃ q, moved q = some x := by
    intro x
    constructor
    · rintro ⟨q, hq⟩
      by_cases hqp : q = p
      · subst hqp
        exact Or.inl (by simpa using hq.symm)
      · exact Or.inr ⟨q, by simpa [Function.update_of_ne hqp] using hq⟩
    · rintro (rfl | ⟨q, hq⟩)
      · exact ⟨p, by simp⟩
      · have hqp : q ≠ p := fun he => by rw [he, hm] at hq; cases hq
        exact ⟨q, by simpa [Function.update_of_ne hqp] using hq⟩
  exact
    { progress := fun q => by
        by_cases hq : q = p
        · subst hq
          simpa [Config.next, hg] using Progress.given a
        · simpa [Config.next, hq] using h.progress q
      distinct := h.distinct
      source := h.source
      drained := fun q hend => by
        by_cases hq : q = p
        · subst hq
          simp [Config.next] at hend
        · have hempty := h.drained q (by simpa [Config.next, hq] using hend)
          simpa [Config.next, World.free, smove_other (show SetKey.freeAmounts ≠ .amounts by decide)
            (show SetKey.freeAmounts ≠ .pendingOrders by decide)] using hempty
      free := fun x => by
        simpa [Config.next, World.free, smove_other (show SetKey.freeAmounts ≠ .amounts by decide)
          (show SetKey.freeAmounts ≠ .pendingOrders by decide)] using h.free x
      pending := fun x => by
        rw [hupdate, ← or_assoc, or_comm (b := x = a), or_assoc, ← h.pending x]
        simp only [Config.next, withSets_sets, World.pending]
        rw [mem_smove (by decide)]
        by_cases hx : x = a
        · simp [hx, show a ∈ c.world.sets .amounts from hin]
        · simp [hx]
      amounts := fun x => by
        have hno : (∀ q, Function.update moved p (some a) q ≠ some x) ↔
            ¬ (x = a ∨ ∃ q, moved q = some x) := by
          rw [← hupdate, not_exists]
        have hold : x ∈ c.world.sets .amounts ↔ x ∈ w₀.amounts ∧ ¬ ∃ q, moved q = some x := by
          rw [not_exists]
          exact h.amounts x
        rw [hno, not_or, and_left_comm, ← hold]
        simp only [Config.next, withSets_sets, World.amounts]
        rw [mem_smove (by decide)]
        by_cases hx : x = a
        · simp [hx, show a ∈ c.world.sets .amounts from hin]
        · simp [hx] }

/-- One step of the calls. -/
theorem Shared.step (h : Shared w₀ c got moved) (hsub : w₀.free ⊆ w₀.amounts)
    (hs : Step allocators c act c') (hclean : act.Clean) :
    ∃ got moved, Shared w₀ c' got moved := by
  cases hs with
  | @spawn p b hf =>
    have hprog := h.progress p
    rw [hf] at hprog
    refine ⟨got, moved, h.thread rfl ?_ fun he => ?_⟩
    · generalize got p = g, moved p = m at hprog
      cases hprog
      exact .begun b
    · cases he
  | @run p f op k r w' hlive hx =>
    obtain rfl : f = .done := hclean
    have hprog := h.progress p
    rw [hlive] at hprog
    generalize hg : got p = g, hm : moved p = m at hprog
    generalize ht : (.live (.call op k) : Thread sig Exc (Option AllocatedAmount)) = t at hprog
    cases hprog with
    | fresh => cases ht
    | begun b =>
      cases ht
      rcases hx with ⟨a, ha, rfl, rfl⟩ | ⟨hempty, rfl, rfl⟩
      · exact ⟨_, _, h.pop hg hm ha⟩
      · exact ⟨got, moved, h.thread rfl (by rw [hg, hm]; exact .refused) fun _ => hempty⟩
    | popped b a =>
      cases ht
      obtain ⟨rfl, rfl⟩ := hx
      exact ⟨_, _, h.move hsub hg hm⟩
    | given a => cases ht
    | refused => cases ht
  | crash _ => exact hclean.elim
  | outer => exact ⟨got, moved, h.progress, h.distinct, h.source, h.drained, h.free, h.pending, h.amounts⟩

end Step

/-! ## All calls together -/

/-- The amount a call returned. -/
def resultOf : Thread sig Exc (Option AllocatedAmount) → Option Amount
  | .live (.ret (some u)) => some u.value
  | _ => none

/-- The amounts the calls `ps` returned. -/
def results (c : Allocators) (ps : Finset Pid) : Finset Amount :=
  ps.biUnion fun p => (resultOf (c.thread p)).toFinset

/-- Calls that returned different amounts are counted by the amounts. -/
theorem card_results (c : Allocators) (ps : Finset Pid)
    (hinj : ∀ p q a, resultOf (c.thread p) = some a → resultOf (c.thread q) = some a → p = q) :
    (ps.filter fun p => (resultOf (c.thread p)).isSome).card = (results c ps).card := by
  refine Finset.card_bij (fun p hp => (resultOf (c.thread p)).get (Finset.mem_filter.mp hp).2)
    ?_ ?_ ?_
  · intro p hp
    exact Finset.mem_biUnion.mpr ⟨p, (Finset.mem_filter.mp hp).1, by simp⟩
  · intro p hp q hq he
    exact hinj p q _ (Option.some_get _).symm ((Option.some_get _).symm.trans (congrArg some he.symm))
  · intro a ha
    obtain ⟨p, hp, hpa⟩ := Finset.mem_biUnion.mp ha
    have hsome : resultOf (c.thread p) = some a := by simpa using hpa
    exact ⟨p, Finset.mem_filter.mpr ⟨hp, by simp [hsome]⟩, by simp [hsome]⟩

/-- A call that is not running returned what it popped, and moved it. -/
theorem Progress.quiet {t : Thread sig Exc (Option AllocatedAmount)} {g m : Option Amount}
    (h : Progress t g m) (ht : ¬ t.Running) : resultOf t = g ∧ m = g ∧
      (t = .fresh ∨ ∃ r, t = .live (.ret r)) ∧ (g = none → t = .fresh ∨ t = .live (.ret none)) := by
  cases h with
  | fresh => exact ⟨rfl, rfl, Or.inl rfl, fun _ => Or.inl rfl⟩
  | begun b => exact absurd trivial ht
  | popped b a => exact absurd trivial ht
  | given a => exact ⟨rfl, rfl, Or.inr ⟨_, rfl⟩, by simp⟩
  | refused => exact ⟨rfl, rfl, Or.inr ⟨_, rfl⟩, fun _ => Or.inr rfl⟩

/-- **Concurrent allocations are exclusive and exhaustive.**  Whatever the interleaving of any number of
calls and whichever members the SPOPs answer: when all calls are through, none raised, no two returned
the same amount, as many returned one as there were amounts to give, and the sets changed by exactly the
amounts returned. -/
theorem concurrent_allocations {w : World} {c : Allocators} {ps : Finset Pid}
    {tr : List (Act sig Exc (Option Amount) Tick)} (hsub : w.free ⊆ w.amounts)
    (hdisj : Disjoint w.free w.pending)
    (hr : Lts.Run (Lts.restrict (Step allocators) Available) (.init w) tr c)
    (hps : ∀ p, p ∈ ps ↔ c.thread p ≠ .fresh) (hend : c.Quiet) :
    (∀ p ∈ ps, ∃ r, c.thread p = .live (.ret r)) ∧
    (∀ p ∈ ps, ∀ q ∈ ps, ∀ a, resultOf (c.thread p) = some a → resultOf (c.thread q) = some a →
      p = q) ∧
    (ps.filter fun p => (resultOf (c.thread p)).isSome).card = min ps.card w.free.card ∧
    (results c ps ⊆ w.free ∧ c.world.free = w.free \ results c ps) ∧
    (Disjoint w.pending (results c ps) ∧ c.world.pending = w.pending ∪ results c ps) ∧
    (results c ps ⊆ w.amounts ∧ c.world.amounts = w.amounts \ results c ps) := by
  obtain ⟨got, moved, h⟩ := hr.inv (fun c => ∃ got moved, Shared w c got moved) ⟨_, _, Shared.init⟩
    fun c a c' ⟨got, moved, h⟩ hs => h.step hsub hs.1 hs.2
  have hquiet := fun p => (h.progress p).quiet (hend p)
  have hresult : ∀ p, resultOf (c.thread p) = got p := fun p => (hquiet p).1
  have hmoved : ∀ p, moved p = got p := fun p => (hquiet p).2.1
  have hstarted : ∀ p a, got p = some a → p ∈ ps := by
    intro p a hg
    refine (hps p).mpr fun hf => ?_
    rw [← hresult, hf] at hg
    cases hg
  have hmem : ∀ x, x ∈ results c ps ↔ ∃ p, got p = some x := by
    intro x
    simp only [results, Finset.mem_biUnion, Option.mem_toFinset, Option.mem_def, hresult]
    exact ⟨fun ⟨p, _, hg⟩ => ⟨p, hg⟩, fun ⟨p, hg⟩ => ⟨p, hstarted p x hg, hg⟩⟩
  have hfree : ∀ x ∈ results c ps, x ∈ w.free := by
    intro x hx
    obtain ⟨p, hg⟩ := (hmem x).mp hx
    exact h.source p x hg
  have hcard := card_results c ps fun p q a hp hq =>
    h.distinct p q a (hresult p ▸ hp) (hresult q ▸ hq)
  refine ⟨fun p hp => ?_, ?_, ?_, ⟨hfree, ?_⟩, ⟨?_, ?_⟩, ⟨fun x hx => hsub (hfree x hx), ?_⟩⟩
  · exact (hquiet p).2.2.1.resolve_left ((hps p).mp hp)
  · intro p _ q _ a hp hq
    exact h.distinct p q a (hresult p ▸ hp) (hresult q ▸ hq)
  · rw [hcard]
    by_cases hall : ∀ p ∈ ps, got p ≠ none
    · have hfilter : (ps.filter fun p => (resultOf (c.thread p)).isSome) = ps := by
        refine Finset.filter_true_of_mem fun p hp => ?_
        rw [hresult]
        exact Option.isSome_iff_ne_none.mpr (hall p hp)
      rw [← hcard, hfilter]
      refine (min_eq_left ?_).symm
      rw [← hfilter, hcard]
      exact Finset.card_le_card hfree
    · push Not at hall
      obtain ⟨p, hp, hg⟩ := hall
      have hempty := h.drained p (((hquiet p).2.2.2 hg).resolve_left ((hps p).mp hp))
      have heq : results c ps = w.free := by
        refine Finset.Subset.antisymm hfree fun x hx => (hmem x).mpr ?_
        by_contra hno
        have hin := (h.free x).mpr ⟨hx, fun q hq => hno ⟨q, hq⟩⟩
        rw [hempty] at hin
        simp at hin
      rw [heq]
      refine (min_eq_right ?_).symm
      rw [← heq, ← hcard]
      exact Finset.card_filter_le _ _
  · ext x
    rw [h.free x, Finset.mem_sdiff, hmem, not_exists]
  · exact Finset.disjoint_left.mpr fun x hx hr => Finset.disjoint_left.mp hdisj (hfree x hr) hx
  · ext x
    simp only [h.pending x, Finset.mem_union, hmem, hmoved]
  · ext x
    simp only [h.amounts x, Finset.mem_sdiff, hmem, hmoved, not_exists]

/-- Two calls, of which the pool serves one. -/
theorem concurrent_allocations_sample : ∃ (tr : List (Act sig Exc (Option Amount) Tick))
    (c : Allocators), Lts.Run (Lts.restrict (Step allocators) Available) (.init lonePool) tr c ∧
      (({0, 1} : Finset Pid).filter fun p => (resultOf (c.thread p)).isSome).card = 1 := by
  let popped := withSets lonePool (SetStore.spop lonePool.sets .freeAmounts 1500000)
  have hpop : exec .done 0 (.spop .freeAmounts) lonePool (.ok (some 1500000)) popped :=
    Or.inl ⟨1500000, by decide, rfl, rfl⟩
  have hnone : exec .done 1 (.spop .freeAmounts) popped (.ok none) popped :=
    Or.inr ⟨by decide, rfl, rfl⟩
  have hmove : exec .done 0 (.smove .amounts .pendingOrders 1500000) popped (.ok ())
      (withSets popped (smove popped.sets .amounts .pendingOrders 1500000)) := ⟨rfl, rfl⟩
  obtain ⟨tr, c, hr, h0, h1, hother⟩ : ∃ tr c,
      Lts.Run (Lts.restrict (Step allocators) Available) (.init lonePool) tr c ∧
        c.thread 0 = .live (.ret (some ⟨1500000, .redis⟩)) ∧ c.thread 1 = .live (.ret none) ∧
        ∀ p, p ≠ 0 → p ≠ 1 → c.thread p = .fresh := by
    refine ⟨_, _, Lts.Run.cons ⟨.spawn (p := 0) (q := none) rfl, trivial⟩
      (Lts.Run.cons ⟨.spawn (p := 1) (q := none) rfl, trivial⟩
        (Lts.Run.cons ⟨.run (p := 0) rfl hpop, rfl⟩ (Lts.Run.cons ⟨.run (p := 1) rfl hnone, rfl⟩
          (Lts.Run.cons ⟨.run (p := 0) rfl hmove, rfl⟩ .nil)))), ?_, ?_, ?_⟩
    · rfl
    · rfl
    · intro p h0 h1
      simp [Config.next, Config.init, h0, h1]
  have hps : ∀ p, p ∈ ({0, 1} : Finset Pid) ↔ c.thread p ≠ .fresh := by
    intro p
    by_cases hp0 : p = 0
    · simp [hp0, h0]
    · by_cases hp1 : p = 1
      · simp [hp1, h1]
      · simp [hp0, hp1, hother p hp0 hp1]
  have hquiet : c.Quiet := by
    intro p hrun
    by_cases hp0 : p = 0
    · rw [hp0, h0] at hrun
      exact hrun
    · by_cases hp1 : p = 1
      · rw [hp1, h1] at hrun
        exact hrun
      · rw [hother p hp0 hp1] at hrun
        exact hrun
  exact ⟨tr, c, hr, (concurrent_allocations (by decide) (by decide) hr hps hquiet).2.2.1⟩

end Requests

end PaymentRecon
