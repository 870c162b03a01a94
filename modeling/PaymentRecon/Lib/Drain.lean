import Mathlib.Data.List.Forall2
import Mathlib.Algebra.Order.BigOperators.Group.List
import Mathlib.Algebra.Order.Ring.Nat
import Mathlib.Algebra.Order.Group.Nat

/-!
# Drain — rounds of limited size

Rows have weights, and a row of weight 0 is done.  A round takes `limit` of the rows that are left, or all
of them, and makes each one lighter; the others may become lighter as well.  Rows that weigh `top` at most
each, and `limit * j` together, are done after `j + top - 1` rounds (`drained`): while more than `limit` of
them are left, each round takes `limit` off the sum; from then on, each round takes something off them all.
-/

namespace Drain

variable {α : Type} {R : α → α → Prop} {limit n j top : ℕ} {xs ys : List ℕ}

/-- `n` rounds. -/
inductive Rounds (R : α → α → Prop) : ℕ → α → α → Prop
  | nil (a : α) : Rounds R 0 a a
  | cons {n : ℕ} {a b c : α} : R a b → Rounds R n b c → Rounds R (n + 1) a c

/-- The rounds of one system are rounds of another one. -/
theorem Rounds.map {β : Type} {R' : β → β → Prop} {I : α → Prop} {a b : α} (f : α → β)
    (h : Rounds R n a b) (hI : I a) (hR : ∀ a b, I a → R a b → I b ∧ R' (f a) (f b)) :
    I b ∧ Rounds R' n (f a) (f b) := by
  induction h with
  | nil a => exact ⟨hI, .nil _⟩
  | cons hab _ ih =>
    obtain ⟨hIb, hR'⟩ := hR _ _ hI hab
    obtain ⟨hIc, hrest⟩ := ih hIb
    exact ⟨hIc, .cons hR' hrest⟩

theorem Rounds.mono {R' : α → α → Prop} {a b : α} (h : Rounds R n a b) (hR : ∀ a b, R a b → R' a b) :
    Rounds R' n a b :=
  (h.map (I := fun _ => True) (fun a => a) trivial fun a b _ hab => ⟨trivial, hR a b hab⟩).2

/-- What every round keeps. -/
theorem Rounds.inv {I : α → Prop} {a b : α} (h : Rounds R n a b) (hI : I a)
    (hR : ∀ a b, I a → R a b → I b) : I b := by
  induction h with
  | nil a => exact hI
  | cons hab _ ih => exact ih (hR _ _ hI hab)

/-- One round of the weights. -/
structure Lightens (limit : ℕ) (xs ys : List ℕ) : Prop where
  le : List.Forall₂ (· ≤ ·) ys xs
  many : min limit (xs.countP (0 < ·)) ≤ (ys.zip xs).countP fun x => x.1 < x.2

/-- The weights of the same rows before and after. -/
theorem Lightens.of_rows {ρ : Type} {rows : List ρ} {v v' : ρ → ℕ} (hle : ∀ e ∈ rows, v' e ≤ v e)
    (hmany : min limit (rows.countP fun e => 0 < v e) ≤ rows.countP fun e => v' e < v e) :
    Lightens limit (rows.map v) (rows.map v') := by
  constructor
  · rw [List.forall₂_map_left_iff, List.forall₂_map_right_iff]
    exact List.forall₂_same.mpr hle
  · rw [List.countP_map, List.zip_map', List.countP_map]
    exact hmany

/-- What a round does to every weight, it does to all. -/
theorem forall_of_forall₂ {P Q : ℕ → Prop} {S : ℕ → ℕ → Prop} (h : List.Forall₂ S ys xs)
    (hS : ∀ y x, S y x → P x → Q y) (hP : ∀ x ∈ xs, P x) : ∀ y ∈ ys, Q y := by
  induction h with
  | nil => simp
  | cons hyx _ ih =>
    rw [List.forall_mem_cons] at hP ⊢
    exact ⟨hS _ _ hyx hP.1, ih hP.2⟩

section Counting

variable (h : List.Forall₂ (· ≤ ·) ys xs)
include h

theorem sum_le : ys.sum + (ys.zip xs).countP (fun x => x.1 < x.2) ≤ xs.sum := by
  induction h with
  | nil => simp
  | cons hyx _ ih =>
    simp only [List.sum_cons, List.zip_cons_cons, List.countP_cons, decide_eq_true_eq]
    split_ifs <;> omega

/-- Only rows that are left become lighter. -/
theorem lighter_le : (ys.zip xs).countP (fun x => x.1 < x.2) ≤ xs.countP (0 < ·) := by
  induction h with
  | nil => simp
  | cons hyx _ ih =>
    simp only [List.zip_cons_cons, List.countP_cons, decide_eq_true_eq]
    split_ifs <;> omega

/-- No row that is done comes back. -/
theorem left_le : ys.countP (0 < ·) ≤ xs.countP (0 < ·) := by
  induction h with
  | nil => simp
  | cons hyx _ ih =>
    simp only [List.countP_cons, decide_eq_true_eq]
    split_ifs <;> omega

/-- As many rows become lighter as are left: all of these do. -/
theorem all_lighter (hall : xs.countP (0 < ·) ≤ (ys.zip xs).countP fun x => x.1 < x.2) :
    List.Forall₂ (fun y x => y ≤ x ∧ (0 < x → y < x)) ys xs := by
  induction h with
  | nil => exact .nil
  | @cons y x ys xs hyx htail ih =>
    simp only [List.zip_cons_cons, List.countP_cons, decide_eq_true_eq] at hall
    have htail_le := lighter_le htail
    refine .cons ⟨hyx, fun hx => ?_⟩ (ih ?_)
    · by_contra hy
      rw [if_pos hx, if_neg hy] at hall
      omega
    · split_ifs at hall <;> omega

end Counting

theorem left_le_sum : xs.countP (0 < ·) ≤ xs.sum := by
  induction xs with
  | nil => simp
  | cons x xs ih =>
    simp only [List.countP_cons, List.sum_cons, decide_eq_true_eq]
    split_ifs <;> omega

theorem sum_le_left (h : ∀ x ∈ xs, x ≤ top) : xs.sum ≤ top * xs.countP (0 < ·) := by
  induction xs with
  | nil => simp
  | cons x xs ih =>
    rw [List.forall_mem_cons] at h
    have htail := ih h.2
    have hx := h.1
    simp only [List.countP_cons, List.sum_cons, decide_eq_true_eq]
    split_ifs
    · rw [Nat.mul_succ]
      omega
    · rw [Nat.add_zero]
      omega

/-- Where no more than `limit` rows are left, the heaviest one says how many rounds it takes. -/
theorem drained_of_few (h : Rounds (Lightens limit) n xs ys) (hfew : xs.countP (0 < ·) ≤ limit)
    (htop : ∀ x ∈ xs, x ≤ n) : ∀ y ∈ ys, y = 0 := by
  induction h with
  | nil xs => exact fun x hx => Nat.le_zero.mp (htop x hx)
  | @cons n xs zs ys hround _ ih =>
    refine ih ((left_le hround.le).trans hfew) ?_
    have hmany := hround.many
    rw [min_eq_right hfew] at hmany
    refine forall_of_forall₂ (P := fun x => x ≤ n + 1) (all_lighter hround.le hmany) ?_ htop
    rintro z x ⟨hzx, hlt⟩ hx
    omega

/-- **The rows are done after `j + top - 1` rounds.** -/
theorem drained (h : Rounds (Lightens limit) n xs ys) (htop : ∀ x ∈ xs, x ≤ top)
    (hsum : xs.sum ≤ limit * j) (hn : j + top ≤ n + 1) : ∀ y ∈ ys, y = 0 := by
  induction j generalizing xs n with
  | zero =>
    -- no row is left at the start
    have hzero : xs.sum = 0 := Nat.le_zero.mp (by simpa using hsum)
    refine drained_of_few h (left_le_sum.trans (hzero.trans_le (Nat.zero_le _))) fun x hx => ?_
    exact (List.le_sum_of_mem hx).trans (hzero.trans_le (Nat.zero_le _))
  | succ j ih =>
    by_cases hfew : xs.countP (0 < ·) ≤ limit
    · exact drained_of_few h hfew fun x hx => (htop x hx).trans (by omega)
    · cases h with
      | nil =>
        refine fun y hy => Nat.le_zero.mp ((htop y hy).trans (by omega))
      | cons hround hrest =>
        have hmany := hround.many
        rw [min_eq_left (by omega)] at hmany
        have hle := sum_le hround.le
        refine ih hrest (forall_of_forall₂ hround.le (fun z x hzx hx => hzx.trans hx) htop) ?_ (by omega)
        rw [Nat.mul_succ] at hsum
        omega

end Drain
