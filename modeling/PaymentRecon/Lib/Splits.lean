import Mathlib.Data.List.Infix

/-!
# Splits — reading a text in one way only

A text that is a concatenation in two ways is the same concatenation twice, when the pieces are told
apart: by a mark that stands in one place, by the class of their characters, or by a phrase that occurs
once.
-/

namespace Splits

variable {α : Type} {p : α → Bool} {c : α} {xs ys zs us vs us' vs' : List α}

/-- A mark that stands in one place. -/
theorem mark_unique (h : us ++ c :: vs = us' ++ c :: vs') (hus : c ∉ us) (hvs : c ∉ vs) :
    us = us' ∧ vs = vs' := by
  induction us generalizing us' with
  | nil =>
    cases us' with
    | nil => exact ⟨rfl, (List.cons.inj h).2⟩
    | cons x us' =>
      obtain ⟨-, rfl⟩ := List.cons.inj h
      exact absurd (List.mem_append_right us' List.mem_cons_self) hvs
  | cons x us ih =>
    rw [List.mem_cons, not_or] at hus
    cases us' with
    | nil => exact absurd (List.cons.inj h).1.symm hus.1
    | cons x' us' =>
      obtain ⟨rfl, htail⟩ := List.cons.inj h
      obtain ⟨rfl, hvs'⟩ := ih htail hus.2
      exact ⟨rfl, hvs'⟩

/-- The text does not go on with the class. -/
def Ends (p : α → Bool) (ys : List α) : Prop := ∀ c ∈ ys.head?, p c = false

theorem ends_append (hxs : ∀ c ∈ xs, p c = false) (hys : Ends p ys) : Ends p (xs ++ ys) := by
  cases xs with
  | nil => exact hys
  | cons x xs =>
    intro c hc
    obtain rfl : x = c := by simpa using hc
    exact hxs x List.mem_cons_self

theorem ends_of_forall (hxs : ∀ c ∈ xs, p c = false) : Ends p xs :=
  fun c hc => hxs c (List.mem_of_mem_head? hc)

theorem ends_of_ne_nil (hne : xs ≠ []) (hxs : ∀ c ∈ xs, p c = false) : Ends p (xs ++ ys) := by
  cases xs with
  | nil => exact absurd rfl hne
  | cons x xs =>
    intro c hc
    obtain rfl : x = c := by simpa using hc
    exact hxs x List.mem_cons_self

theorem takeWhile_append (hxs : ∀ c ∈ xs, p c = true) (hys : Ends p ys) :
    (xs ++ ys).takeWhile p = xs := by
  rw [List.takeWhile_append_of_pos hxs]
  cases ys with
  | nil => simp
  | cons y ys => rw [List.takeWhile_cons_of_neg (by simp [hys y rfl]), List.append_nil]

/-- A run of a class, as long as it goes. -/
theorem span_unique (hxs : ∀ c ∈ xs, p c = true) (hys : Ends p ys) (hus : ∀ c ∈ us, p c = true)
    (hvs : Ends p vs) (h : xs ++ ys = us ++ vs) : xs = us ∧ ys = vs := by
  have heq : xs = us := by
    rw [← takeWhile_append hxs hys, h, takeWhile_append hus hvs]
  subst heq
  exact ⟨rfl, List.append_cancel_left h⟩

/-- What follows the first character outside a class does not belong to the class. -/
theorem after_span (hxs : ∀ c ∈ xs, p c = true) (h : xs ++ ys = us ++ c :: vs) (hc : p c = false) :
    ∀ v ∈ vs, v ∈ ys := by
  induction xs generalizing us with
  | nil =>
    rintro v hv
    rw [List.nil_append] at h
    rw [h]
    exact List.mem_append_right us (List.mem_cons_of_mem c hv)
  | cons x xs ih =>
    rw [List.forall_mem_cons] at hxs
    cases us with
    | nil =>
      obtain ⟨rfl, -⟩ := List.cons.inj h
      exact absurd (hxs.1.symm.trans hc) (by simp)
    | cons u us => exact ih hxs.2 (List.cons.inj h).2

/-- A run of the class that goes on neither to the left nor to the right. -/
structure MaximalRun (p : α → Bool) (before run after : List α) : Prop where
  inhabited : run ≠ []
  mem : ∀ c ∈ run, p c = true
  left : ∀ c ∈ before.getLast?, p c = false
  right : Ends p after

/-- The text before does not end with the class when its last piece has none of it. -/
theorem left_append (hne : ys ≠ []) (hys : ∀ c ∈ ys, p c = false) :
    ∀ c ∈ (xs ++ ys).getLast?, p c = false := by
  intro c hc
  rw [List.getLast?_append_of_ne_nil _ hne] at hc
  exact hys c (List.mem_of_getLast? hc)

/-- A phrase does not reach over a character that it lacks. -/
theorem infix_left_of (hc : c ∉ zs) (h : us ++ c :: vs = us' ++ (zs ++ vs'))
    (hlen : us'.length ≤ us.length) : zs <:+: us := by
  rcases List.append_eq_append_iff.mp h with ⟨as, rfl, htail⟩ | ⟨as, rfl, htail⟩
  · rw [List.length_append] at hlen
    obtain rfl : as = [] := List.length_eq_zero_iff.mp (by omega)
    cases zs with
    | nil => exact List.nil_infix
    | cons z zs => exact absurd (List.cons.inj htail).1 fun hcz => hc (hcz ▸ List.mem_cons_self)
  · rcases List.append_eq_append_iff.mp htail with ⟨bs, rfl, -⟩ | ⟨bs, rfl, htail'⟩
    · exact ⟨us', bs, by simp⟩
    · cases bs with
      | nil => exact ⟨us', [], by simp⟩
      | cons b bs =>
        obtain ⟨rfl, -⟩ := List.cons.inj htail'
        exact absurd (List.mem_append_right as List.mem_cons_self) hc

/-- The last element outside a class is where the class begins to hold. -/
theorem last_unique {p : α → Prop} {c' : α} (h : us ++ c :: vs = us' ++ c' :: vs') (hc : ¬ p c) (hc' : ¬ p c') (hvs : ∀ v ∈ vs, p v)
    (hvs' : ∀ v ∈ vs', p v) : us = us' ∧ c = c' ∧ vs = vs' := by
  rcases List.append_eq_append_iff.mp h with ⟨as, rfl, htail⟩ | ⟨as, rfl, htail⟩
  · cases as with
    | nil =>
      obtain ⟨rfl, rfl⟩ := List.cons.inj htail
      exact ⟨by simp, rfl, rfl⟩
    | cons a as =>
      obtain ⟨rfl, rfl⟩ := List.cons.inj htail
      exact absurd (hvs c' (by simp)) hc'
  · cases as with
    | nil =>
      obtain ⟨rfl, rfl⟩ := List.cons.inj htail
      exact ⟨by simp, rfl, rfl⟩
    | cons a as =>
      obtain ⟨rfl, rfl⟩ := List.cons.inj htail
      exact absurd (hvs' c (by simp)) hc

end Splits
