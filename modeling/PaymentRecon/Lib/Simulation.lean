import PaymentRecon.Lib.Lts

/-!
# Simulation — a system that accounts for the steps of another

`Simulates R T vis rel`: a step of `R` leaves the related state of `T` as it is, or it is one step of `T`;
only steps with a label in `vis` are.  `Simulates.beside` carries this over to whole runs, step by step.
-/

namespace Lts

variable {C A S M : Type}

/-- A step of `R` is no step of `T`, or one, and then its label is visible. -/
def Simulates (R : C → A → C → Prop) (T : S → M → S → Prop) (vis : A → Prop) (rel : C → S → Prop) :
    Prop :=
  ∀ c a c' s, R c a c' → rel c s → rel c' s ∨ vis a ∧ ∃ m s', T s m s' ∧ rel c' s'

variable {R : C → A → C → Prop} {T : S → M → S → Prop} {vis : A → Prop} {rel : C → S → Prop}
  {c c' : C} {s : S} {tr : List A}

/-- The two systems side by side: with a step of `R` goes no step of `T`, or one, and then the label is
visible. -/
def Beside (R : C → A → C → Prop) (T : S → M → S → Prop) (vis : A → Prop) : C × S → A → C × S → Prop :=
  fun x a y => R x.1 a y.1 ∧ (y.2 = x.2 ∨ vis a ∧ ∃ m, T x.2 m y.2)

/-- **Every step is simulated**: a run goes on beside a state of `T` that is related all along. -/
theorem Simulates.beside (h : Simulates R T vis rel) (hr : Run R c tr c') (hs : rel c s) :
    ∃ s', rel c' s' ∧ Run (restrict (Beside R T vis) fun _ _ y => rel y.1 y.2) (c, s) tr (c', s') := by
  induction hr with
  | nil => exact ⟨s, hs, .nil⟩
  | @snoc tr c₁ c₂ a _ hstep ih =>
    obtain ⟨s₁, hs₁, hrun⟩ := ih
    rcases h _ _ _ _ hstep hs₁ with hsame | ⟨hvis, m, s₂, hm, hs₂⟩
    · exact ⟨s₁, hsame, hrun.snoc ⟨⟨hstep, Or.inl rfl⟩, hsame⟩⟩
    · exact ⟨s₂, hs₂, hrun.snoc ⟨⟨hstep, Or.inr ⟨hvis, m, hm⟩⟩, hs₂⟩⟩

/-- A run side by side is a run of `T`, with one step for a visible label at most. -/
theorem Run.of_beside [DecidablePred vis] {x y : C × S} (hr : Run (Beside R T vis) x tr y) :
    ∃ ms, Run T x.2 ms y.2 ∧ ms.length ≤ tr.countP (fun a => vis a) := by
  induction hr with
  | nil => exact ⟨[], .nil, Nat.le_refl _⟩
  | @snoc tr y z a _ hstep ih =>
    obtain ⟨ms, hms, hlen⟩ := ih
    rw [List.countP_append]
    obtain ⟨-, hsame | ⟨hvis, m, hm⟩⟩ := hstep
    · exact ⟨ms, hsame ▸ hms, Nat.le_trans hlen (Nat.le_add_right _ _)⟩
    · refine ⟨ms ++ [m], hms.snoc hm, ?_⟩
      rw [List.length_append, List.countP_singleton, if_pos (decide_eq_true hvis)]
      exact Nat.add_le_add_right hlen 1

end Lts
