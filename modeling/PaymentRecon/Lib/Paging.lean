import Mathlib.Data.Finset.Card
import Mathlib.Data.List.Sort

/-!
# Paging — reading a list page by page, with a cursor

A page is the first `n` elements whose keys are after the cursor; the next cursor is the key of its last
element.  The list may change between two pages.  A walk that goes on while a page may not be the last one
returns nothing twice, in the order of the keys, and everything that was in the list all the time.
-/

namespace Paging

variable {α K : Type} [LinearOrder K] {key : α → K} {n : ℕ} {cursor : Option K} {xs : List α} {x y : α}

/-- The element comes after the cursor, if there is one. -/
def Past (key : α → K) (cursor : Option K) (x : α) : Prop := ∀ c ∈ cursor, c < key x

instance (key : α → K) (cursor : Option K) (x : α) : Decidable (Past key cursor x) :=
  match cursor with
  | none => isTrue fun _ h => nomatch h
  | some c => decidable_of_iff (c < key x) (by simp [Past])

@[simp] theorem past_none : Past key none x := fun _ h => nomatch h

@[simp] theorem past_some {c : K} : Past key (some c) x ↔ c < key x := by simp [Past]

/-- What is left to read. -/
def rest (key : α → K) (cursor : Option K) (xs : List α) : List α := xs.filter fun x => Past key cursor x

/-- The first `n` elements after the cursor. -/
def page (key : α → K) (n : ℕ) (cursor : Option K) (xs : List α) : List α := (rest key cursor xs).take n

/-- The keys are in strictly ascending order. -/
def Sorted (key : α → K) (xs : List α) : Prop := (xs.map key).Pairwise (· < ·)

@[simp] theorem mem_rest : x ∈ rest key cursor xs ↔ x ∈ xs ∧ Past key cursor x := by
  simp [rest]

theorem mem_of_page (h : x ∈ page key n cursor xs) : x ∈ xs ∧ Past key cursor x :=
  mem_rest.mp (List.mem_of_mem_take h)

theorem Sorted.sublist {ys : List α} (h : Sorted key ys) (hs : xs.Sublist ys) : Sorted key xs :=
  List.Pairwise.sublist (hs.map key) h

theorem Sorted.rest (h : Sorted key xs) : Sorted key (rest key cursor xs) := h.sublist List.filter_sublist

theorem Sorted.page (h : Sorted key xs) : Sorted key (page key n cursor xs) :=
  h.rest.sublist (List.take_sublist _ _)

/-- A list sorted by keys that identify its elements. -/
theorem sorted_mergeSort (hnd : (xs.map key).Nodup) :
    Sorted key (xs.mergeSort fun x y => key x ≤ key y) := by
  have hle : (xs.mergeSort fun x y => key x ≤ key y).Pairwise fun x y => key x ≤ key y := by
    have h := @List.pairwise_mergeSort _ (fun x y : α => decide (key x ≤ key y))
      (fun a b c hab hbc => by simp at *; exact hab.trans hbc) (fun a b => by simp [le_total]) xs
    exact h.imp fun hle => of_decide_eq_true hle
  have hne : (xs.mergeSort fun x y => key x ≤ key y).Pairwise fun x y => key x ≠ key y :=
    List.pairwise_map.mp (((List.mergeSort_perm _ _).map key).nodup_iff.mpr hnd)
  exact List.pairwise_map.mpr (hle.imp₂ (fun _ _ hle hne => lt_of_le_of_ne hle hne) hne)

/-- The last key is the greatest. -/
theorem Sorted.le_last (h : Sorted key xs) (hx : xs.getLast? = some x) (hy : y ∈ xs) : key y ≤ key x := by
  obtain ⟨ys, rfl⟩ := List.getLast?_eq_some_iff.mp hx
  rcases List.mem_append.mp hy with hy | hy
  · rw [Sorted, List.map_append, List.pairwise_append] at h
    exact (h.2.2 _ (List.mem_map_of_mem hy) _ (by simp)).le
  · rw [List.mem_singleton.mp hy]

/-- **A page and what is left after it.** -/
theorem rest_eq (h : Sorted key xs) (hx : (page key n cursor xs).getLast? = some x) :
    rest key cursor xs = page key n cursor xs ++ rest key (some (key x)) xs := by
  have hmem := mem_of_page (List.mem_of_getLast? hx)
  have hsplit : rest key cursor xs = page key n cursor xs ++ (rest key cursor xs).drop n :=
    (List.take_append_drop n _).symm
  have hsorted : Sorted key (page key n cursor xs ++ (rest key cursor xs).drop n) := hsplit ▸ h.rest
  rw [Sorted, List.map_append, List.pairwise_append] at hsorted
  have hback : rest key (some (key x)) xs = (rest key cursor xs).filter fun y => key x < key y := by
    rw [rest, rest, List.filter_filter]
    refine List.filter_congr fun y _ => ?_
    simp only [past_some, ← Bool.decide_and, decide_eq_decide]
    exact (and_iff_left_of_imp fun hlt c hc => (hmem.2 c hc).trans hlt).symm
  have hfront : (page key n cursor xs).filter (fun y => key x < key y) = [] :=
    List.filter_eq_nil_iff.mpr fun y hy => by simpa using h.page.le_last hx hy
  have hlater : ((rest key cursor xs).drop n).filter (fun y => key x < key y) =
      (rest key cursor xs).drop n := by
    refine List.filter_eq_self.mpr fun y hy => decide_eq_true ?_
    exact hsorted.2.2 _ (List.mem_map_of_mem (List.mem_of_getLast? hx)) _ (List.mem_map_of_mem hy)
  have htail : rest key (some (key x)) xs = (rest key cursor xs).drop n := by
    rw [hback]
    conv_lhs => rw [hsplit, List.filter_append, hfront, hlater, List.nil_append]
  rw [htail]
  exact hsplit

/-- The keys of a page are the page of the keys. -/
theorem page_keys : (page key n cursor xs).map key = page id n cursor (xs.map key) := by
  rw [page, page, List.map_take, rest, rest, List.filter_map]
  congr 2

/-! ## Positions -/

/-- In sorted order, the elements below a bound come first. -/
theorem Sorted.below_iff {P : K → Bool} (h : Sorted key xs)
    (hP : ∀ a b, a ≤ b → P b = true → P a = true) {i : ℕ} (hi : i < xs.length) :
    P (key xs[i]) = true ↔ i < xs.countP fun y => P (key y) := by
  induction xs generalizing i with
  | nil => exact absurd hi (by simp)
  | cons x xs ih =>
    rw [Sorted, List.map_cons, List.pairwise_cons] at h
    have hlast : P (key x) = false → xs.countP (fun y => P (key y)) = 0 := by
      intro hx
      refine List.countP_eq_zero.mpr fun y hy hy' => ?_
      rw [hP _ _ (h.1 _ (List.mem_map_of_mem hy)).le hy'] at hx
      exact absurd hx (by simp)
    cases i with
    | zero =>
      cases hx : P (key x) with
      | true => simp [hx]
      | false => simp [hx, hlast hx]
    | succ i =>
      have hi' : i < xs.length := by simpa using hi
      rw [List.getElem_cons_succ, ih h.2 hi', List.countP_cons]
      cases hx : P (key x) with
      | true => simp
      | false => simp [hlast hx]

/-- An element is on the page when fewer than `n` are between the cursor and it. -/
theorem mem_page_iff (h : Sorted key xs) : x ∈ page key n cursor xs ↔
    x ∈ rest key cursor xs ∧ (rest key cursor xs).countP (fun y => key y < key x) < n := by
  have hlt : ∀ a b : K, a ≤ b → decide (b < key x) = true → decide (a < key x) = true :=
    fun a b hab hb => decide_eq_true (hab.trans_lt (of_decide_eq_true hb))
  constructor
  · intro hx
    obtain ⟨i, hi, rfl⟩ := List.mem_take_iff_getElem.mp hx
    have hin : i < (rest key cursor xs).length := by omega
    refine ⟨List.getElem_mem hin, ?_⟩
    have hnot := mt (h.rest.below_iff hlt hin).mpr (by simp)
    omega
  · rintro ⟨hx, hcount⟩
    obtain ⟨i, hi, rfl⟩ := List.mem_iff_getElem.mp hx
    refine List.mem_take_iff_getElem.mpr ⟨i, ?_, rfl⟩
    cases i with
    | zero => omega
    | succ i =>
      have hstep : key (rest key cursor xs)[i] < key (rest key cursor xs)[i + 1] := by
        have hpair : (rest key cursor xs).Pairwise fun y z => key y < key z :=
          List.pairwise_map.mp h.rest
        exact List.pairwise_iff_getElem.mp hpair i (i + 1) (by omega) hi (by omega)
      have hbelow := (h.rest.below_iff hlt (by omega)).mp (decide_eq_true hstep)
      omega

/-! ## Walks -/

/-- When a walk goes on: not after a page that may be empty, and always when something is left. -/
structure Rule (key : α → K) (n : ℕ) where
  more : Option K → List α → Bool
  ends : ∀ {cursor xs}, more cursor xs = false → rest key cursor xs = page key n cursor xs
  goes : ∀ {cursor xs}, more cursor xs = true → page key n cursor xs ≠ []

/-- A walk that stops at a page that is not full. -/
def full (key : α → K) (hn : 0 < n) : Rule key n where
  more cursor xs := n ≤ (page key n cursor xs).length
  ends {cursor xs} h := by
    have hlen : (page key n cursor xs).length < n := not_le.mp (of_decide_eq_false h)
    rw [page, List.length_take] at hlen
    exact (List.take_of_length_le (by omega)).symm
  goes {cursor xs} h := by
    have hlen : n ≤ (page key n cursor xs).length := of_decide_eq_true h
    exact List.ne_nil_of_length_pos (hn.trans_le hlen)

/-- A walk that looks at the element after the page. -/
def lookAhead (key : α → K) (hn : 0 < n) : Rule key n where
  more cursor xs := n < (rest key cursor xs).length
  ends {cursor xs} h := by
    have hlen : (rest key cursor xs).length ≤ n := not_lt.mp (of_decide_eq_false h)
    exact (List.take_of_length_le hlen).symm
  goes {cursor xs} h := by
    have hlen : n < (rest key cursor xs).length := of_decide_eq_true h
    refine List.ne_nil_of_length_pos ?_
    rw [page, List.length_take]
    omega

/-- A walk that stops at an empty page. -/
def nonempty (key : α → K) (hn : 0 < n) : Rule key n where
  more cursor xs := (page key n cursor xs).isEmpty = false
  ends {cursor xs} h := by
    have hpage : page key n cursor xs = [] := by simpa using h
    rcases List.take_eq_nil_iff.mp hpage with h0 | hnil
    · exact absurd h0 hn.ne'
    · rw [hpage, hnil]
  goes {cursor xs} h := by simpa using h

/-- The look-ahead tells whether something is left after the page. -/
theorem lookAhead_iff {hn : 0 < n} (h : Sorted key xs) :
    (lookAhead key hn).more cursor xs = true ↔
      ∃ x ∈ rest key cursor xs, x ∉ page key n cursor xs := by
  constructor
  · intro hmore
    have hlen : n < (rest key cursor xs).length := of_decide_eq_true hmore
    have hne : (rest key cursor xs).drop n ≠ [] := by
      rw [Ne, List.drop_eq_nil_iff]
      omega
    obtain ⟨x, hx⟩ := List.exists_mem_of_ne_nil _ hne
    have hnodup : (rest key cursor xs).Nodup := List.Nodup.of_map key (h.rest.imp fun h => h.ne)
    exact ⟨x, List.mem_of_mem_drop hx, fun hpage => List.disjoint_take_drop hnodup le_rfl hpage hx⟩
  · rintro ⟨x, hx, hpage⟩
    by_contra hmore
    rw [(lookAhead key hn).ends (Bool.not_eq_true _ ▸ hmore)] at hx
    exact hpage hx

/-- A walk through the lists, one for each page, and the pages. -/
inductive Walk (R : Rule key n) : Option K → List (List α) → List (List α) → Prop
  | stop {cursor : Option K} {xs : List α} (h : R.more cursor xs = false) :
      Walk R cursor [xs] [page key n cursor xs]
  | go {cursor : Option K} {xs : List α} {lists pages : List (List α)} {x : α}
      (h : R.more cursor xs = true) (hx : (page key n cursor xs).getLast? = some x)
      (hw : Walk R (some (key x)) lists pages) :
      Walk R cursor (xs :: lists) (page key n cursor xs :: pages)

variable {R : Rule key n} {lists pages : List (List α)}

namespace Walk

/-- What is returned was in one of the lists. -/
theorem sound (h : Walk R cursor lists pages) (hx : x ∈ pages.flatten) :
    Past key cursor x ∧ ∃ xs ∈ lists, x ∈ xs := by
  induction h with
  | @stop cursor xs _ =>
    obtain ⟨hmem, hpast⟩ := mem_of_page (by simpa using hx)
    exact ⟨hpast, xs, by simp, hmem⟩
  | @go cursor xs lists pages z _ hz _ ih =>
    rw [List.flatten_cons, List.mem_append] at hx
    rcases hx with hx | hx
    · obtain ⟨hmem, hpast⟩ := mem_of_page hx
      exact ⟨hpast, xs, by simp, hmem⟩
    · obtain ⟨hpast, ys, hys, hmem⟩ := ih hx
      refine ⟨fun c hc => ?_, ys, List.mem_cons_of_mem _ hys, hmem⟩
      have hlast := (mem_of_page (List.mem_of_getLast? hz)).2 c hc
      exact hlast.trans (past_some.mp hpast)

/-- **In order, and nothing twice.** -/
theorem sorted (h : Walk R cursor lists pages) (hs : ∀ xs ∈ lists, Sorted key xs) :
    Sorted key pages.flatten := by
  induction h with
  | stop _ => simpa using (hs _ (by simp)).page
  | @go cursor xs lists pages z _ hz hw ih =>
    rw [List.forall_mem_cons] at hs
    rw [List.flatten_cons, Sorted, List.map_append, List.pairwise_append]
    refine ⟨hs.1.page, ih hs.2, fun a ha b hb => ?_⟩
    obtain ⟨x, hx, rfl⟩ := List.mem_map.mp ha
    obtain ⟨y, hy, rfl⟩ := List.mem_map.mp hb
    exact (hs.1.page.le_last hz hx).trans_lt (past_some.mp (hw.sound hy).1)

/-- **Nothing is missed** that is there all the time. -/
theorem complete (h : Walk R cursor lists pages) (hs : ∀ xs ∈ lists, Sorted key xs)
    (hpast : Past key cursor x) (hx : ∀ xs ∈ lists, x ∈ xs) : x ∈ pages.flatten := by
  induction h with
  | @stop cursor xs hstop =>
    have hmem : x ∈ rest key cursor xs := mem_rest.mpr ⟨hx xs (by simp), hpast⟩
    rw [R.ends hstop] at hmem
    simpa using hmem
  | @go cursor xs lists pages z _ hz _ ih =>
    rw [List.forall_mem_cons] at hs hx
    have hmem : x ∈ rest key cursor xs := mem_rest.mpr ⟨hx.1, hpast⟩
    rw [rest_eq hs.1 hz, List.mem_append] at hmem
    rw [List.flatten_cons, List.mem_append]
    rcases hmem with hmem | hmem
    · exact Or.inl hmem
    · exact Or.inr (ih hs.2 (mem_rest.mp hmem).2 hx.2)

/-- Of a list that does not change, a walk returns what is after its cursor. -/
theorem eq_rest (h : Walk R cursor lists pages) (hs : Sorted key xs) (hl : ∀ ys ∈ lists, ys = xs) :
    pages.flatten = rest key cursor xs := by
  induction h with
  | @stop cursor ys hstop =>
    obtain rfl := hl ys (by simp)
    simpa using (R.ends hstop).symm
  | @go cursor ys lists pages z _ hz _ ih =>
    rw [List.forall_mem_cons] at hl
    obtain rfl := hl.1
    rw [List.flatten_cons, ih hl.2, ← rest_eq hs hz]

/-- **A walk ends** when only finitely many keys ever occur. -/
theorem exists_of_finite (R : Rule key n) (lists : ℕ → List α) (U : Finset K)
    (hU : ∀ k, ∀ x ∈ lists k, key x ∈ U) (cursor : Option K) :
    ∃ m pages, Walk R cursor ((List.range (m + 1)).map lists) pages := by
  induction hcard : (U.filter fun u => ∀ c ∈ cursor, c < u).card using Nat.strong_induction_on
    generalizing lists cursor with
  | _ size ih =>
    cases hmore : R.more cursor (lists 0) with
    | false => exact ⟨0, _, .stop hmore⟩
    | true =>
      obtain ⟨x, hx⟩ := List.getLast?_isSome.mpr (R.goes hmore) |> Option.isSome_iff_exists.mp
      obtain ⟨hmem, hpast⟩ := mem_of_page (List.mem_of_getLast? hx)
      have hless : (U.filter fun u => ∀ c ∈ some (key x), c < u).card < size := by
        rw [← hcard]
        refine Finset.card_lt_card (Finset.ssubset_iff_subset_ne.mpr ⟨fun u hu => ?_, fun heq => ?_⟩)
        · rw [Finset.mem_filter] at hu ⊢
          exact ⟨hu.1, fun c hc => (hpast c hc).trans (hu.2 _ rfl)⟩
        · have hin : key x ∈ U.filter fun u => ∀ c ∈ cursor, c < u :=
            Finset.mem_filter.mpr ⟨hU 0 x hmem, hpast⟩
          rw [← heq, Finset.mem_filter] at hin
          exact lt_irrefl _ (hin.2 _ rfl)
      obtain ⟨m, pages, hw⟩ := ih _ hless (fun k => lists (k + 1)) (fun k => hU (k + 1)) _ rfl
      refine ⟨m + 1, page key n cursor (lists 0) :: pages, ?_⟩
      rw [List.range_succ_eq_map, List.map_cons, List.map_map]
      exact .go hmore hx hw

end Walk

/-! ## The cursors of a walk -/

/-- The cursors that a walk passes over a list that does not change. -/
inductive Passed (R : Rule key n) (xs : List α) : Option K → Prop
  | first : Passed R xs none
  | next {cursor : Option K} {x : α} (h : Passed R xs cursor) (hmore : R.more cursor xs = true)
      (hx : (page key n cursor xs).getLast? = some x) : Passed R xs (some (key x))

/-- A full page with something after it, at a position of the list. -/
theorem full_page {k : ℕ} (hn : 0 < n) (hs : Sorted key xs) (hk : rest key cursor xs = xs.drop (k * n))
    (hlt : (k + 1) * n < xs.length) :
    ∃ x, xs[(k + 1) * n - 1]? = some x ∧ (page key n cursor xs).getLast? = some x ∧
      rest key (some (key x)) xs = xs.drop ((k + 1) * n) := by
  have hsucc : (k + 1) * n = k * n + n := Nat.succ_mul k n
  have hlen : (page key n cursor xs).length = n := by
    rw [page, hk, List.length_take, List.length_drop]
    omega
  obtain ⟨x, hx⟩ := Option.isSome_iff_exists.mp
    (List.getLast?_isSome.mpr (List.ne_nil_of_length_pos (hn.trans_eq hlen.symm)))
  refine ⟨x, ?_, hx, ?_⟩
  · rw [List.getLast?_eq_getElem?, hlen, page, hk, List.getElem?_take_of_lt (by omega),
      List.getElem?_drop] at hx
    rw [← hx]
    congr 1
    omega
  · have hdrop : (page key n cursor xs ++ rest key (some (key x)) xs).drop
        (page key n cursor xs).length = rest key (some (key x)) xs := List.drop_left
    rw [← rest_eq hs hx, hlen, hk, List.drop_drop] at hdrop
    rw [← hdrop, hsucc]

/-- A walk passes the keys of the elements at the multiples of `n`. -/
theorem Passed.position {hn : 0 < n} (h : Passed (lookAhead key hn) xs cursor) (hs : Sorted key xs) :
    ∃ k, rest key cursor xs = xs.drop (k * n) ∧
      ∀ c ∈ cursor, 1 ≤ k ∧ k * n < xs.length ∧ ∃ x, xs[k * n - 1]? = some x ∧ c = key x := by
  induction h with
  | first => exact ⟨0, by simp [rest], fun c hc => nomatch hc⟩
  | @next cursor x _ hmore hx ih =>
    obtain ⟨k, hk, -⟩ := ih
    have hlen : n < (xs.drop (k * n)).length := hk ▸ of_decide_eq_true hmore
    have hsucc : (k + 1) * n = k * n + n := Nat.succ_mul k n
    rw [List.length_drop] at hlen
    obtain ⟨y, hy, hlast, hrest⟩ := full_page hn hs hk (by omega)
    obtain rfl := Option.some.inj (hx.symm.trans hlast)
    refine ⟨k + 1, hrest, fun c hc => ⟨by omega, by omega, x, hy, ?_⟩⟩
    exact (Option.some.inj hc).symm

theorem exists_passed (hn : 0 < n) (hs : Sorted key xs) (k : ℕ) (hk : k * n < xs.length ∨ k = 0) :
    ∃ cursor, Passed (lookAhead key hn) xs cursor ∧ rest key cursor xs = xs.drop (k * n) ∧
      (1 ≤ k → ∃ x, xs[k * n - 1]? = some x ∧ cursor = some (key x)) := by
  induction k with
  | zero => exact ⟨none, .first, by simp [rest], fun h => absurd h (by omega)⟩
  | succ k ih =>
    have hsucc : (k + 1) * n = k * n + n := Nat.succ_mul k n
    obtain ⟨cursor, hpassed, hrest, -⟩ := ih (Or.inl (by omega))
    obtain ⟨x, hx, hlast, hnext⟩ := full_page hn hs hrest (by omega)
    have hmore : (lookAhead key hn).more cursor xs = true := by
      refine decide_eq_true ?_
      rw [hrest, List.length_drop]
      omega
    exact ⟨_, .next hpassed hmore hlast, hnext, fun _ => ⟨x, hx, rfl⟩⟩

/-- **The cursors of a walk are within a bound** when there are as many elements within it as the full
pages of the walk hold. -/
theorem passed_le_iff (hn : 0 < n) (hs : Sorted key xs) (B : K) :
    (∀ c, Passed (lookAhead key hn) xs (some c) → c ≤ B) ↔
      (xs.length - 1) / n * n ≤ xs.countP fun x => key x ≤ B := by
  have hle : ∀ a b : K, a ≤ b → decide (b ≤ B) = true → decide (a ≤ B) = true :=
    fun a b hab hb => decide_eq_true (hab.trans (of_decide_eq_true hb))
  have hdiv : (xs.length - 1) / n * n ≤ xs.length - 1 := Nat.div_mul_le_self _ _
  constructor
  · intro h
    rcases Nat.eq_zero_or_pos ((xs.length - 1) / n) with h0 | hpos
    · rw [h0, Nat.zero_mul]
      exact Nat.zero_le _
    · have hfull : 1 ≤ (xs.length - 1) / n * n := Nat.mul_pos hpos hn
      obtain ⟨cursor, hpassed, -, hat⟩ :=
        exists_passed hn hs ((xs.length - 1) / n) (Or.inl (by omega))
      obtain ⟨x, hx, rfl⟩ := hat hpos
      obtain ⟨hlt, rfl⟩ := List.getElem?_eq_some_iff.mp hx
      have hbelow := (hs.below_iff hle hlt).mp (decide_eq_true (h _ hpassed))
      omega
  · intro h c hc
    obtain ⟨k, -, hat⟩ := hc.position hs
    obtain ⟨hk, hlt, x, hx, rfl⟩ := hat c rfl
    obtain ⟨hin, rfl⟩ := List.getElem?_eq_some_iff.mp hx
    have hfull : k ≤ (xs.length - 1) / n := (Nat.le_div_iff_mul_le hn).mpr (by omega)
    have hmul : k * n ≤ (xs.length - 1) / n * n := Nat.mul_le_mul_right n hfull
    have hk1 : 1 ≤ k * n := Nat.mul_pos hk hn
    exact of_decide_eq_true ((hs.below_iff hle hin).mpr (by omega))

end Paging
