import Mathlib.Data.Finset.Basic
import Mathlib.Data.Finset.Lattice.Basic
import Mathlib.Logic.Function.Basic

/-!
# Sets — a store of named sets

The set commands of a key-value store: a store maps every key to a finite set, and a key that was
never written holds the empty set.
-/

namespace SetStore

variable {K M : Type} [DecidableEq K] [DecidableEq M]

/-- The sets by key. -/
abbrev Sets (K M : Type) := K → Finset M

/-- `SMOVE src dst m`: nothing happens when `m` is not a member of `src`. -/
def smove (s : Sets K M) (src dst : K) (m : M) : Sets K M :=
  if m ∈ s src then
    let s₁ := Function.update s src ((s src).erase m)
    Function.update s₁ dst (insert m (s₁ dst))
  else s

/-- `SADD k m₁ m₂ ..`. -/
def sadd (s : Sets K M) (k : K) (ms : List M) : Sets K M :=
  Function.update s k (s k ∪ ms.toFinset)

/-- What is left after `SPOP k` answered `m`. -/
def spop (s : Sets K M) (k : K) (m : M) : Sets K M := Function.update s k ((s k).erase m)

/-- `DEL k`. -/
def del (s : Sets K M) (k : K) : Sets K M := Function.update s k ∅

/-- `SDIFFSTORE dst a b`. -/
def sdiffstore (s : Sets K M) (dst a b : K) : Sets K M := Function.update s dst (s a \ s b)

theorem smove_of_notMem {s : Sets K M} {src dst : K} {m : M} (h : m ∉ s src) :
    smove s src dst m = s := if_neg h

theorem mem_smove {s : Sets K M} {src dst k : K} {m x : M} (hne : src ≠ dst) :
    x ∈ smove s src dst m k ↔
      if x = m ∧ m ∈ s src then k = dst ∨ (k ≠ src ∧ x ∈ s k) else x ∈ s k := by
  unfold smove
  by_cases hm : m ∈ s src
  · by_cases hd : k = dst
    · subst hd
      simp only [hm, if_true, and_true, Function.update_self, Finset.mem_insert,
        Function.update_of_ne (Ne.symm hne)]
      split_ifs with hx <;> simp [hx]
    · by_cases hs : k = src
      · subst hs
        simp only [hm, if_true, and_true, Function.update_of_ne hd, Function.update_self,
          Finset.mem_erase]
        split_ifs with hx <;> simp [hx, hd]
      · simp only [hm, if_true, Function.update_of_ne hd, Function.update_of_ne hs]
        split_ifs with hx <;> simp [hd, hs]
  · simp [hm]

/-- What is in the target after a move. -/
theorem mem_smove_dst {s : Sets K M} {src dst : K} {m x : M} (hne : src ≠ dst) :
    x ∈ smove s src dst m dst ↔ x ∈ s dst ∨ x = m ∧ m ∈ s src := by
  rw [mem_smove hne]
  split_ifs with h
  · simp [h]
  · simp [h]

/-- What is left in the source. -/
theorem mem_smove_src {s : Sets K M} {src dst : K} {m x : M} (hne : src ≠ dst) :
    x ∈ smove s src dst m src ↔ x ∈ s src ∧ x ≠ m := by
  rw [mem_smove hne]
  split_ifs with h
  · simp [h, hne]
  · exact ⟨fun hx => ⟨hx, fun hm => h ⟨hm, hm ▸ hx⟩⟩, fun hx => hx.1⟩

/-- A member other than the moved one stays where it is. -/
theorem mem_smove_of_ne {s : Sets K M} {src dst k : K} {m x : M} (hx : x ≠ m) :
    x ∈ smove s src dst m k ↔ x ∈ s k := by
  have hsrc : x ∈ Function.update s src ((s src).erase m) k ↔ x ∈ s k := by
    by_cases hk : k = src
    · subst hk
      simp [hx]
    · rw [Function.update_of_ne hk]
  unfold smove
  split_ifs
  · by_cases hk : k = dst
    · subst hk
      simpa [hx] using hsrc
    · simpa [Function.update_of_ne hk] using hsrc
  · exact Iff.rfl

/-- The sets that are neither source nor target stay. -/
theorem smove_other {s : Sets K M} {src dst k : K} {m : M} (hs : k ≠ src) (hd : k ≠ dst) :
    smove s src dst m k = s k := by
  unfold smove
  split_ifs
  · simp [Function.update_of_ne hd, Function.update_of_ne hs]
  · rfl

@[simp] theorem mem_sadd {s : Sets K M} {k : K} {ms : List M} {x : M} :
    x ∈ sadd s k ms k ↔ x ∈ s k ∨ x ∈ ms := by
  simp [sadd]

theorem sadd_other {s : Sets K M} {k k' : K} {ms : List M} (h : k' ≠ k) :
    sadd s k ms k' = s k' := Function.update_of_ne h _ _

@[simp] theorem mem_spop {s : Sets K M} {k : K} {m x : M} :
    x ∈ spop s k m k ↔ x ≠ m ∧ x ∈ s k := by
  simp [spop]

theorem spop_other {s : Sets K M} {k k' : K} {m : M} (h : k' ≠ k) : spop s k m k' = s k' :=
  Function.update_of_ne h _ _

/-- Taking a member out of one set and moving it to another is undone by moving it back and adding it. -/
theorem sadd_smove_smove_spop {s : Sets K M} {k src dst : K} {m : M} (hs : src ≠ dst) (hk : k ≠ src)
    (hd : k ≠ dst) (hm : m ∈ s k) (hout : m ∉ s dst) :
    sadd (smove (smove (spop s k m) src dst m) dst src m) k [m] = s := by
  have hsrc : spop s k m src = s src := spop_other (Ne.symm hk)
  have hdst : spop s k m dst = s dst := spop_other (Ne.symm hd)
  funext j
  ext x
  by_cases hx : x = m
  · subst hx
    by_cases hjk : j = k
    · subst hjk
      simp [hm]
    · rw [sadd_other hjk]
      simp only [mem_smove (Ne.symm hs), mem_smove hs, hsrc]
      by_cases hin : x ∈ s src
      · by_cases hjs : j = src
        · simp [hin, hjs]
        · by_cases hjd : j = dst
          · subst hjd
            simp [hin, hjs, hout]
          · simp [hin, hjs, hjd, spop_other hjk]
      · simp [hin, hdst, hout, spop_other hjk]
  · by_cases hjk : j = k
    · subst hjk
      simp only [mem_sadd, mem_smove_of_ne hx, mem_spop]
      simp [hx]
    · rw [sadd_other hjk, mem_smove_of_ne hx, mem_smove_of_ne hx, spop_other hjk]

end SetStore
