import Mathlib.Data.List.Induction
import Mathlib.Data.Nat.Digits.Defs
import Mathlib.Tactic.Ring

/-!
# Positional — numerals, the most significant digit first

`value b ds` is the number that the digits `ds` denote in base `b`.  Numerals without leading zeros are
compared by their length first, and digit by digit when they are equally long.
-/

namespace Positional

variable {b : ℕ} {d : ℕ} {ds es : List ℕ}

/-- The number with the digits `ds`. -/
def value (b : ℕ) (ds : List ℕ) : ℕ := ds.foldl (fun n d => b * n + d) 0

/-- The numeral without its leading zeros. -/
def significant (ds : List ℕ) : List ℕ := ds.dropWhile fun d => d = 0

/-- The digits of `n`; zero has one. -/
def digits (b n : ℕ) : List ℕ := if n = 0 then [0] else (Nat.digits b n).reverse

theorem value_eq_ofDigits (b : ℕ) (ds : List ℕ) : value b ds = Nat.ofDigits b ds.reverse := by
  induction ds using List.reverseRecOn with
  | nil => rfl
  | append_singleton ds d ih =>
    rw [List.reverse_append, List.reverse_singleton, List.singleton_append, Nat.ofDigits_cons, ← ih,
      value, List.foldl_append, List.foldl_cons, List.foldl_nil, Nat.add_comm]
    rfl

theorem value_cons (b d : ℕ) (ds : List ℕ) :
    value b (d :: ds) = d * b ^ ds.length + value b ds := by
  rw [value_eq_ofDigits, value_eq_ofDigits, List.reverse_cons, Nat.ofDigits_append,
    Nat.ofDigits_singleton, List.length_reverse]
  ring

theorem value_lt (hb : 1 < b) (h : ∀ d ∈ ds, d < b) : value b ds < b ^ ds.length := by
  rw [value_eq_ofDigits, ← List.length_reverse]
  exact Nat.ofDigits_lt_base_pow_length hb fun d hd => h d (List.mem_reverse.mp hd)

theorem value_digits (b n : ℕ) : value b (digits b n) = n := by
  unfold digits
  split_ifs with hn
  · rw [hn]
    rfl
  · rw [value_eq_ofDigits, List.reverse_reverse, Nat.ofDigits_digits]

theorem digits_lt (hb : 1 < b) {n : ℕ} (hd : d ∈ digits b n) : d < b := by
  unfold digits at hd
  split_ifs at hd
  · rw [List.mem_singleton.mp hd]
    exact Nat.zero_lt_of_lt hb
  · exact Nat.digits_lt_base hb (List.mem_reverse.mp hd)

theorem digits_ne_nil (b n : ℕ) : digits b n ≠ [] := by
  unfold digits
  split_ifs with hn
  · simp
  · simpa [Nat.digits_eq_nil_iff_eq_zero] using hn

@[simp] theorem value_significant (b : ℕ) (ds : List ℕ) : value b (significant ds) = value b ds := by
  induction ds with
  | nil => rfl
  | cons d ds ih =>
    by_cases hd : d = 0
    · subst hd
      have hdrop : significant (0 :: ds) = significant ds := rfl
      rw [hdrop, ih, value_cons, Nat.zero_mul, Nat.zero_add]
    · have hkeep : significant (d :: ds) = d :: ds := by simp [significant, hd]
      rw [hkeep]

/-- The first digits that differ decide; a numeral that ends first comes first. -/
def NotLater : List ℕ → List ℕ → Prop
  | [], _ => True
  | _ :: _, [] => False
  | d :: ds, e :: es => d < e ∨ d = e ∧ NotLater ds es

instance decidableNotLater : (ds es : List ℕ) → Decidable (NotLater ds es)
  | [], _ => inferInstanceAs (Decidable True)
  | _ :: _, [] => inferInstanceAs (Decidable False)
  | d :: ds, e :: es =>
    have := decidableNotLater ds es
    inferInstanceAs (Decidable (d < e ∨ d = e ∧ NotLater ds es))

/-- Numerals of one length are compared digit by digit. -/
theorem value_le_iff_lex (hb : 1 < b) (hlen : ds.length = es.length) (hds : ∀ d ∈ ds, d < b)
    (hes : ∀ e ∈ es, e < b) : value b ds ≤ value b es ↔ NotLater ds es := by
  induction ds generalizing es with
  | nil =>
    obtain rfl : es = [] := List.length_eq_zero_iff.mp hlen.symm
    exact iff_of_true le_rfl trivial
  | cons d ds ih =>
    cases es with
    | nil => simp at hlen
    | cons e es =>
      rw [List.forall_mem_cons] at hds hes
      have hlen' : ds.length = es.length := Nat.succ.inj hlen
      have hlt := value_lt hb hds.2
      have hlt' := value_lt hb hes.2
      rw [NotLater, ← ih hlen' hds.2 hes.2, value_cons, value_cons, hlen']
      rw [hlen'] at hlt
      rcases lt_trichotomy d e with hde | rfl | hde
      · refine iff_of_true ?_ (Or.inl hde)
        have hmul : (d + 1) * b ^ es.length ≤ e * b ^ es.length := Nat.mul_le_mul_right _ hde
        rw [Nat.add_mul, Nat.one_mul] at hmul
        omega
      · simp
      · refine iff_of_false ?_ (by simp; omega)
        have hmul : (e + 1) * b ^ es.length ≤ d * b ^ es.length := Nat.mul_le_mul_right _ hde
        rw [Nat.add_mul, Nat.one_mul] at hmul
        omega

/-- A numeral without leading zeros is at least as large as its length says. -/
theorem le_value_of_head (hd : d ≠ 0) : b ^ ds.length ≤ value b (d :: ds) := by
  rw [value_cons]
  have hmul : 1 * b ^ ds.length ≤ d * b ^ ds.length :=
    Nat.mul_le_mul_right _ (Nat.one_le_iff_ne_zero.mpr hd)
  omega

/-- **Comparison of numerals**: `es` has no leading zero. -/
theorem value_le_iff (hb : 1 < b) (hds : ∀ d ∈ ds, d < b) {e : ℕ} (he : e ≠ 0)
    (hes : ∀ e' ∈ e :: es, e' < b) : value b ds ≤ value b (e :: es) ↔
      (significant ds).length < (e :: es).length ∨
        (significant ds).length = (e :: es).length ∧ NotLater (significant ds) (e :: es) := by
  have hsig : ∀ d ∈ significant ds, d < b := fun d hd => hds d ((List.dropWhile_sublist _).mem hd)
  rw [← value_significant b ds]
  rcases lt_trichotomy (significant ds).length (e :: es).length with hlt | heq | hgt
  · refine iff_of_true ?_ (Or.inl hlt)
    have hpow : b ^ (significant ds).length ≤ b ^ es.length :=
      Nat.pow_le_pow_right (Nat.zero_lt_of_lt hb) (Nat.le_of_lt_succ hlt)
    exact ((value_lt hb hsig).le.trans hpow).trans (le_value_of_head he)
  · rw [value_le_iff_lex hb heq hsig hes]
    exact ⟨fun h => Or.inr ⟨heq, h⟩, fun h => (h.resolve_left (by omega)).2⟩
  · refine iff_of_false (not_le.mpr ?_) (by omega)
    have hhead : ∃ d ds', significant ds = d :: ds' ∧ d ≠ 0 := by
      cases hs : significant ds with
      | nil => simp [hs] at hgt
      | cons d ds' =>
        refine ⟨d, ds', rfl, fun hd => ?_⟩
        have hne := List.head?_dropWhile_not (fun d => decide (d = 0)) ds
        rw [show ds.dropWhile _ = d :: ds' from hs] at hne
        simp [hd] at hne
    obtain ⟨d, ds', hs, hd⟩ := hhead
    rw [hs] at hgt ⊢
    have hpow : b ^ (e :: es).length ≤ b ^ ds'.length :=
      Nat.pow_le_pow_right (Nat.zero_lt_of_lt hb) (Nat.le_of_lt_succ hgt)
    exact ((value_lt hb hes).trans_le hpow).trans_le (le_value_of_head hd)

end Positional
