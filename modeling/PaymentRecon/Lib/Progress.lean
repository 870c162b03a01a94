import Mathlib.Data.Fintype.Card
import Mathlib.Logic.Hydra
import PaymentRecon.Lib.Prog

/-!
# Progress — runs that can be completed

Every answer leaves a program with a smaller program, so finitely many threads can perform operations for
finitely many steps only.  When in every state some thread that has operations left can perform the
next one, a run can therefore be completed: all threads come to their ends.  `complete` is that
argument, with the states restricted to those of an invariant and the steps to those of a condition.
Where nobody can go on, somebody waits in a circle (`exists_circle`).
-/

namespace Interleave

variable {S : Sig} {E α W Q X : Type} {M : Machine S E α W Q X} {c c' : Config S E α W Q X}
  {a : Act S E Q X} {p : Pid} {n : ℕ}

namespace Prog

/-- What a program has left after one answer. -/
inductive After : Prog S E α → Prog S E α → Prop
  | answer (op : S.Op) (k : Except E (S.Ret op) → Prog S E α) (r : Except E (S.Ret op)) :
      After (k r) (call op k)

theorem wellFounded_after : WellFounded (After : Prog S E α → Prog S E α → Prop) := by
  constructor
  intro x
  induction x with
  | ret a => exact ⟨_, fun y h => nomatch h⟩
  | raise e => exact ⟨_, fun y h => nomatch h⟩
  | call op k ih =>
    refine ⟨_, fun y h => ?_⟩
    cases h with
    | answer _ _ r => exact ih r

end Prog

/-! ## The work that is left -/

/-- The program a thread has left. -/
def Thread.left : Thread S E α → Multiset (Prog S E α)
  | .live x => {x}
  | _ => 0

/-- The programs that the first `n` threads have left. -/
def Config.work (c : Config S E α W Q X) (n : ℕ) : Multiset (Prog S E α) :=
  ((Multiset.range n).map fun p => (c.thread p).left).sum

/-- An operation leaves less work. -/
theorem work_run {f : Fault} {op : S.Op} {r : Except E (S.Ret op)} (h : Step M c (.run p f op r) c')
    (hp : p < n) : Relation.CutExpand Prog.After (c'.work n) (c.work n) := by
  cases h with
  | @run _ _ _ k _ w' ht hx =>
    have hrange : Multiset.range n = p ::ₘ (Multiset.range n).erase p :=
      (Multiset.cons_erase (Multiset.mem_range.mpr hp)).symm
    -- the other threads have the same work left
    have hothers : ((Multiset.range n).erase p).map (fun q =>
        (Function.update c.thread p (.live (k r)) q).left) =
        ((Multiset.range n).erase p).map fun q => (c.thread q).left := by
      refine Multiset.map_congr rfl fun q hq => ?_
      have hne : q ≠ p := ((Multiset.nodup_range n).mem_erase_iff.mp hq).1
      rw [Function.update_of_ne hne]
    rw [Config.work, Config.work, Config.next, hrange, Multiset.map_cons, Multiset.map_cons,
      Multiset.sum_cons, Multiset.sum_cons, hothers, ht]
    show Relation.CutExpand _ ((Function.update c.thread p (.live (k r)) p).left + _) _
    rw [Function.update_self]
    exact Relation.cutExpand_single_add (.answer op k r) _

/-- Only finitely many threads were started. -/
theorem run_started {w : W} {tr : List (Act S E Q X)} (h : Lts.Run (Step M) (.init w) tr c) :
    ∃ n, ∀ p, n ≤ p → c.thread p = .fresh := by
  refine h.inv (fun c => ∃ n, ∀ p, n ≤ p → c.thread p = .fresh) ⟨0, fun _ _ => rfl⟩ ?_
  rintro c a c' ⟨n, hn⟩ hs
  have hold : ∀ q, n ≤ q → (∀ p, a.pid = some p → q ≠ p) → c'.thread q = .fresh := by
    intro q hq hne
    cases hs with
    | outer => exact hn q hq
    | spawn _ => simpa [Config.next, Function.update_of_ne (hne _ rfl)] using hn q hq
    | run _ _ => simpa [Config.next, Function.update_of_ne (hne _ rfl)] using hn q hq
    | crash _ => simpa [Config.next, Function.update_of_ne (hne _ rfl)] using hn q hq
  refine ⟨max n ((a.pid.getD 0) + 1), fun q hq => hold q (le_of_max_le_left hq) ?_⟩
  rintro p hp rfl
  rw [hp] at hq
  exact absurd (le_of_max_le_right hq) (Nat.not_succ_le_self q)

/-! ## Completion -/

/-- **A run can be completed**, up to `Done`, when until then some thread can always go on. -/
theorem complete {P : Config S E α W Q X → Act S E Q X → Config S E α W Q X → Prop}
    {I Done : Config S E α W Q X → Prop}
    (hstep : ∀ c, I c → (∀ p, n ≤ p → ¬ (c.thread p).Running) → ¬ Done c →
      ∃ p f op r c', Step M c (.run p f op r) c' ∧ P c (.run p f op r) c' ∧ I c')
    (hI : I c) (hn : ∀ p, n ≤ p → ¬ (c.thread p).Running) :
    ∃ tr c', Lts.Run (Lts.restrict (Step M) P) c tr c' ∧ I c' ∧ Done c' := by
  -- by induction on the work that is left
  induction hm : c.work n using Prog.wellFounded_after.cutExpand.induction generalizing c with
  | _ m ih =>
    subst hm
    by_cases hq : Done c
    · exact ⟨[], c, .nil, hI, hq⟩
    · obtain ⟨p, f, op, r, c₁, hs, hP, hI₁⟩ := hstep c hI hn hq
      have hp : p < n := by
        by_contra hp
        exact hn p (not_lt.mp hp) hs.mover
      have hn₁ : ∀ q, n ≤ q → ¬ (c₁.thread q).Running := by
        intro q hq hrun
        cases hs with
        | run _ _ =>
          have hne : q ≠ p := fun heq => absurd hp (not_lt.mpr (heq ▸ hq))
          exact hn q hq (by simpa [Config.next, Function.update_of_ne hne] using hrun)
      obtain ⟨tr, c₂, hr, hI₂, hq₂⟩ := ih _ (work_run hs hp) hI₁ hn₁ rfl
      exact ⟨_ :: tr, c₂, .cons ⟨hs, hP⟩ hr, hI₂, hq₂⟩

/-! ## Waiting -/

/-- When every one of finitely many waits for another of them, some wait in a circle. -/
theorem exists_circle {ι : Type} {R : ι → ι → Prop} {s : Set ι} (hfin : s.Finite) (hne : s.Nonempty)
    (hR : ∀ i ∈ s, ∃ j ∈ s, R i j) : ∃ i ∈ s, Relation.TransGen R i i := by
  by_contra hno
  have hno' : ∀ i ∈ s, ¬ Relation.TransGen R i i := fun i hi h => hno ⟨i, hi, h⟩
  have : Finite s := hfin
  -- without circles, some member has nobody to wait for
  let T : s → s → Prop := fun i j => Relation.TransGen R j i
  have : IsTrans s T := ⟨fun _ _ _ h h' => h'.trans h⟩
  have : Std.Irrefl T := ⟨fun i => hno' i i.2⟩
  obtain ⟨i, -, hmin⟩ := (Finite.wellFounded_of_trans_of_irrefl T).has_min Set.univ
    ⟨⟨hne.some, hne.some_mem⟩, trivial⟩
  obtain ⟨j, hj, hij⟩ := hR i i.2
  exact hmin ⟨j, hj⟩ trivial (.single hij)

end Interleave
