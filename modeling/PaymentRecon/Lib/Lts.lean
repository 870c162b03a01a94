import Mathlib.Data.List.Basic
import Mathlib.Logic.Relation

/-!
# Lts — runs of a labelled transition system

`R c a c'` is one step from `c` to `c'` under the label `a`.  `Run R c₀ tr c` says that the steps
labelled `tr`, in order, lead from `c₀` to `c`.  A run in which every step meets a condition `P` is
a run of `R.restrict P`.  The rules of this file are the only way the development argues about
whole runs: `Run.invariant` (an assertion about the state and the trace so far), `Run.append` and
`Run.split` (a run is cut at any point of its trace).
-/

namespace Lts

variable {C A : Type}

/-- `c` is reached from `c₀` by the steps labelled `tr`. -/
inductive Run (R : C → A → C → Prop) (c₀ : C) : List A → C → Prop
  | nil : Run R c₀ [] c₀
  | snoc {tr : List A} {c c' : C} {a : A} : Run R c₀ tr c → R c a c' → Run R c₀ (tr ++ [a]) c'

/-- The steps of `R` that meet `P`. -/
def restrict (R P : C → A → C → Prop) : C → A → C → Prop := fun c a c' => R c a c' ∧ P c a c'

variable {R P : C → A → C → Prop} {c₀ c c' c'' : C} {tr tr' : List A} {a : A}

theorem Run.single (h : R c a c') : Run R c [a] c' := by
  simpa using Run.snoc Run.nil h

theorem Run.append (h : Run R c tr c') (h' : Run R c' tr' c'') : Run R c (tr ++ tr') c'' := by
  induction h' with
  | nil => simpa using h
  | snoc _ hs ih => rw [← List.append_assoc]; exact Run.snoc ih hs

theorem Run.cons (h : R c a c') (h' : Run R c' tr c'') : Run R c (a :: tr) c'' :=
  (Run.single h).append h'

theorem Run.mono {R' : C → A → C → Prop} (h : Run R c₀ tr c)
    (hR : ∀ c a c', R c a c' → R' c a c') : Run R' c₀ tr c := by
  induction h with
  | nil => exact .nil
  | snoc _ hs ih => exact .snoc ih (hR _ _ _ hs)

theorem Run.of_restrict (h : Run (restrict R P) c₀ tr c) : Run R c₀ tr c :=
  h.mono fun _ _ _ hs => hs.1

/-- A run all of whose labels meet a condition. -/
theorem Run.labelled {Q : A → Prop} (h : Run R c₀ tr c) (hQ : ∀ a ∈ tr, Q a) :
    Run (restrict R fun _ a _ => Q a) c₀ tr c := by
  induction h with
  | nil => exact .nil
  | snoc _ hs ih =>
    exact .snoc (ih fun a ha => hQ a (List.mem_append_left _ ha)) ⟨hs, hQ _ (by simp)⟩

/-- **Invariant rule.**  An assertion about the state and the trace that holds at the start and is
kept by every step taken from a reached state holds at the end of every run. -/
theorem Run.invariant (I : C → List A → Prop) (h : Run R c₀ tr c) (h0 : I c₀ [])
    (hstep : ∀ tr c a c', Run R c₀ tr c → I c tr → R c a c' → I c' (tr ++ [a])) : I c tr := by
  induction h with
  | nil => exact h0
  | snoc hr hs ih => exact hstep _ _ _ _ hr ih hs

/-- The rule for an assertion about the state alone. -/
theorem Run.inv (I : C → Prop) (h : Run R c₀ tr c) (h0 : I c₀)
    (hstep : ∀ c a c', I c → R c a c' → I c') : I c :=
  h.invariant (fun c _ => I c) h0 fun _ c a c' _ hI hs => hstep c a c' hI hs

/-- An invariant holds in every state that a step of the run starts from. -/
theorem Run.along (I : C → Prop) (h : Run R c₀ tr c) (h0 : I c₀)
    (hstep : ∀ c a c', I c → R c a c' → I c') : I c ∧ Run (restrict R fun c _ _ => I c) c₀ tr c := by
  induction h with
  | nil => exact ⟨h0, .nil⟩
  | snoc _ hs ih =>
    obtain ⟨hI, hr⟩ := ih
    exact ⟨hstep _ _ _ hI hs, .snoc hr ⟨hs, hI⟩⟩

/-- **Backward rule.**  An assertion that no step makes true, and that holds at the end of a run, held
all along it. -/
theorem Run.backward (J : C → Prop) (h : Run R c₀ tr c) (hJ : J c)
    (hstep : ∀ c a c', R c a c' → J c' → J c) : J c₀ ∧ Run (restrict R fun _ _ c' => J c') c₀ tr c := by
  induction h with
  | nil => exact ⟨hJ, .nil⟩
  | snoc _ hs ih =>
    obtain ⟨h0, hr⟩ := ih (hstep _ _ _ hs hJ)
    exact ⟨h0, .snoc hr ⟨hs, hJ⟩⟩

theorem Run.eq_of_nil (h : Run R c₀ [] c) : c = c₀ := by
  generalize hl : ([] : List A) = l at h
  cases h with
  | nil => rfl
  | snoc _ _ => exact absurd hl (by simp)

/-- A run over a trace that starts with `a` starts with a step labelled `a`. -/
theorem Run.uncons (h : Run R c₀ (a :: tr) c) : ∃ c₁, R c₀ a c₁ ∧ Run R c₁ tr c := by
  generalize hl : a :: tr = l at h
  induction h generalizing tr with
  | nil => exact absurd hl (by simp)
  | @snoc tr₁ c₁ c₂ b hr hs ih =>
    cases tr₁ with
    | nil =>
      simp only [List.nil_append, List.cons.injEq] at hl
      obtain ⟨rfl, rfl⟩ := hl
      obtain rfl := hr.eq_of_nil
      exact ⟨c₂, hs, .nil⟩
    | cons x xs =>
      simp only [List.cons_append, List.cons.injEq] at hl
      obtain ⟨rfl, rfl⟩ := hl
      obtain ⟨d, hd, hrun⟩ := ih rfl
      exact ⟨d, hd, .snoc hrun hs⟩

/-- A run over one label is one step. -/
theorem Run.step_of_length (h : Run R c tr c') (hl : tr.length = 1) : ∃ a, R c a c' := by
  obtain ⟨a, rfl⟩ := List.length_eq_one_iff.mp hl
  obtain ⟨c₁, hs, hnil⟩ := h.uncons
  exact ⟨a, hnil.eq_of_nil ▸ hs⟩

/-- A run over `tr ++ tr'` passes through a state reached over `tr`. -/
theorem Run.split : ∀ {tr : List A} {c₀ : C}, Run R c₀ (tr ++ tr') c →
    ∃ c₁, Run R c₀ tr c₁ ∧ Run R c₁ tr' c
  | [], c₀, h => ⟨c₀, .nil, h⟩
  | _ :: tr, _, h => by
    obtain ⟨c₁, hs, hr⟩ := h.uncons
    obtain ⟨c₂, h1, h2⟩ := hr.split
    exact ⟨c₂, Run.cons hs h1, h2⟩

end Lts
