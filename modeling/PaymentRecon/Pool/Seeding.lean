import PaymentRecon.Pool.Startup
import PaymentRecon.Requests.Allocate

/-!
# Seeding — the seeder of `amounts`, interrupted and started again

`is_exist_range_amount` takes a set that exists for a complete one.  A startup that is interrupted
between its first and its last batch leaves a part of the range that no later startup completes.
-/

namespace PaymentRecon

open Interleave SetStore Requests

namespace Pool

variable {p : Pid} {w w' w₀ : World} {cs : Calls} {css : List Calls} {start stop : Amount} {batch : ℕ}

/-! ## Parts of the range -/

theorem mem_intRange_take {start stop x : ℤ} {n : ℕ} :
    x ∈ ((List.range (stop + 1 - start).toNat).map fun k : ℕ => start + (k : ℤ)).take n ↔
      start ≤ x ∧ x ≤ stop ∧ x < start + n := by
  rw [← List.map_take, List.take_range]
  constructor
  · intro h
    obtain ⟨k, hk, rfl⟩ := List.mem_map.mp h
    rw [List.mem_range] at hk
    refine ⟨?_, ?_, ?_⟩ <;> omega
  · rintro ⟨hlo, hhi, hn⟩
    exact List.mem_map.mpr ⟨(x - start).toNat, List.mem_range.mpr (by omega), by omega⟩

theorem mem_amountRange_take {n : ℕ} {x : Amount} :
    x ∈ (amountRange start stop).take n ↔ start ≤ x ∧ x ≤ stop ∧ x < start + n := mem_intRange_take

/-- The slices one after the other are the front of the list. -/
theorem flatten_slices (xs : List Amount) (batch n : ℕ) :
    ((List.range n).map fun k => (xs.drop (k * batch)).take batch).flatten = xs.take (n * batch) := by
  induction n with
  | zero => simp
  | succ n ih =>
    rw [List.range_succ, List.map_append, List.flatten_append, ih, Nat.succ_mul, List.take_add]
    simp

/-- The first batches are the front of the range. -/
theorem flatten_batches (xs : List Amount) {n : ℕ} (hn : n ≤ (batches xs batch).length) :
    ((batches xs batch).take n).flatten = xs.take (n * batch) := by
  unfold batches at hn ⊢
  rw [List.length_map, List.length_range] at hn
  rw [← List.map_take, List.take_range, Nat.min_eq_left hn, flatten_slices]

/-- How many batches the range has. -/
def batchCount (start stop : Amount) (batch : ℕ) : ℕ := (batches (amountRange start stop) batch).length

/-- The set after the first `n` batches. -/
def part (start stop : Amount) (batch n : ℕ) : Finset Amount :=
  ((batches (amountRange start stop) batch).take n).flatten.toFinset

theorem mem_part {n : ℕ} (hn : n ≤ batchCount start stop batch) {x : Amount} :
    x ∈ part start stop batch n ↔ start ≤ x ∧ x ≤ stop ∧ x < start + (n * batch : ℕ) := by
  rw [part, List.mem_toFinset, flatten_batches _ hn, mem_amountRange_take]

theorem batchCount_eq : batchCount start stop batch =
    ((stop + 1 - start).toNat + batch - 1) / batch := by
  simp [batchCount, batches, amountRange]

/-- All batches have all amounts. -/
theorem part_all (hbatch : 0 < batch) :
    part start stop batch (batchCount start stop batch) = Finset.Icc start stop := by
  ext x
  rw [part, batchCount, List.take_length, List.mem_toFinset, List.mem_flatten, mem_batches hbatch,
    mem_amountRange, Finset.mem_Icc]

theorem part_zero : part start stop batch 0 = ∅ := rfl

theorem first_mem_part (hrange : start ≤ stop) (hbatch : 0 < batch) {n : ℕ} (h₀ : 0 < n)
    (hn : n ≤ batchCount start stop batch) : start ∈ part start stop batch n := by
  refine (mem_part hn).mpr ⟨le_rfl, hrange, ?_⟩
  have hpos : 0 < n * batch := Nat.mul_pos h₀ hbatch
  exact (lt_add_iff_pos_right start).mpr (by exact_mod_cast hpos)

/-- The batches before the last one do not come to the end. -/
theorem front_le {start stop : ℤ} {n : ℕ} (hbatch : 0 < batch)
    (hn : n < ((stop + 1 - start).toNat + batch - 1) / batch) : start + (n * batch : ℕ) ≤ stop := by
  rw [Nat.lt_div_iff_mul_lt hbatch] at hn
  generalize n * batch = k at hn ⊢
  omega

/-- The last amount comes with the last batch. -/
theorem last_notMem_part (hbatch : 0 < batch) {n : ℕ} (hn : n < batchCount start stop batch) :
    stop ∉ part start stop batch n := by
  rw [mem_part hn.le]
  rintro ⟨-, -, hlt⟩
  rw [batchCount_eq] at hn
  exact absurd hlt (not_lt.mpr (front_le hbatch hn))

/-! ## Interrupted startups -/

/-- The call added a batch, even if its answer was lost. -/
def adds : Call sig Exc → Bool
  | ⟨.failed, _, _⟩ => false
  | ⟨_, .sadd _ _, _⟩ => true
  | _ => false

/-- How many batches the startup added. -/
def added (cs : Calls) : ℕ := cs.countP adds

/-- Startups of the seeder, each interrupted anywhere, with nothing in between; `css` are their calls. -/
inductive Attempts (start stop : Amount) (batch : ℕ) : World → List Calls → World → Prop
  | none {w : World} : Attempts start stop batch w [] w
  | more {p : Pid} {w w₁ w₂ : World} {css : List Calls} {cs : Calls}
      (h : Attempts start stop batch w css w₁)
      (hb : Begun system p (isExistRangeAmount start stop batch) w₁ cs w₂) :
      Attempts start stop batch w (css ++ [cs]) (system.abort p w₂)

theorem sadd_effect {f : Fault} {b : List Amount} {r : Except Exc Unit}
    (h : system.exec f p (Op.sadd .amounts b) w r w') :
    w'.amounts = if f = .failed then w.amounts else w.amounts ∪ b.toFinset := by
  cases f with
  | done =>
    obtain ⟨-, rfl⟩ := h
    simp [World.amounts, SetStore.sadd]
  | failed =>
    obtain ⟨rfl, -⟩ := h
    rfl
  | lost =>
    obtain ⟨-, ⟨r₀, -, rfl⟩, -⟩ := h
    simp [World.amounts, SetStore.sadd]

/-- The loop adds a front of its batches. -/
theorem begun_seedLoop {bs : List (List Amount)}
    (h : Begun system p (Prog.forEach (fun b => await (.sadd .amounts b)) bs) w cs w') :
    added cs ≤ bs.length ∧ w'.amounts = w.amounts ∪ (bs.take (added cs)).flatten.toFinset := by
  induction bs generalizing w cs with
  | nil =>
    obtain ⟨rfl, rfl⟩ := begun_ret.mp h
    simp [added]
  | cons b bs ih =>
    rcases begun_perform.mp h with ⟨rfl, rfl⟩ | ⟨f, _, w₁, cs₁, hx, hrest, rfl⟩ | ⟨f, e, hx, rfl⟩
    · simp [added]
    · obtain ⟨rfl, -⟩ := exec_ok hx
      obtain ⟨hle, hamounts⟩ := ih hrest
      have hadded : added (⟨.done, .sadd .amounts b, .ok ()⟩ :: cs₁) = added cs₁ + 1 :=
        List.countP_cons_of_pos rfl
      rw [hadded, hamounts, sadd_effect hx]
      refine ⟨Nat.succ_le_succ hle, ?_⟩
      simp [Finset.union_assoc]
    · rw [sadd_effect hx]
      cases f with
      | done =>
        obtain ⟨he, -⟩ := hx
        cases he
      | failed => simp [added, adds]
      | lost => simp [added, adds]

/-- **An interrupted startup** leaves a set that exists as it is, and else a front of the range. -/
theorem begun_seed (h : Begun system p (isExistRangeAmount start stop batch) w cs w') :
    (w.amounts ≠ ∅ → added cs = 0 ∧ w'.amounts = w.amounts) ∧
      (w.amounts = ∅ → added cs ≤ batchCount start stop batch ∧
        w'.amounts = part start stop batch (added cs)) := by
  unfold isExistRangeAmount at h
  rcases begun_perform.mp h with ⟨rfl, rfl⟩ | ⟨f, existing, w₁, cs₁, hx, hrest, rfl⟩ | ⟨f, e, hx, rfl⟩
  · exact ⟨fun _ => ⟨rfl, rfl⟩, fun he => ⟨Nat.zero_le _, he⟩⟩
  · obtain ⟨rfl, hr, rfl⟩ := exec_ok hx
    have hadded : added (⟨.done, .exists .amounts, .ok existing⟩ :: cs₁) = added cs₁ :=
      List.countP_cons_of_neg (by simp [adds])
    obtain rfl := Except.ok.inj hr
    rw [hadded]
    by_cases hempty : w₁.amounts = ∅
    · have hnot : decide (w₁.sets .amounts ≠ ∅) = false := by simpa using hempty
      rw [hnot] at hrest
      obtain ⟨hle, hamounts⟩ := begun_seedLoop hrest
      refine ⟨fun hne => absurd hempty hne, fun _ => ⟨hle, ?_⟩⟩
      rw [hamounts, hempty, Finset.empty_union]
      rfl
    · have hex : decide (w₁.sets .amounts ≠ ∅) = true := by simpa using hempty
      rw [hex] at hrest
      obtain ⟨rfl, rfl⟩ := begun_ret.mp hrest
      exact ⟨fun _ => ⟨rfl, rfl⟩, fun he => absurd he hempty⟩
  · have hadded : added [⟨f, .exists .amounts, .error e⟩] = 0 := by
      cases f <;> simp [added, adds]
    have hsame : w' = w := by
      cases f with
      | done =>
        obtain ⟨he, -⟩ := hx
        cases he
      | failed => exact hx.1
      | lost =>
        obtain ⟨-, ⟨r₀, -, hw⟩, -⟩ := hx
        exact hw
    rw [hadded, hsame]
    exact ⟨fun _ => ⟨rfl, rfl⟩, fun he => ⟨Nat.zero_le _, he⟩⟩

/-! ## All startups -/

/-- None of its batches was added, or all of them. -/
def AllOrNone (start stop : Amount) (batch : ℕ) (cs : Calls) : Prop :=
  added cs = 0 ∨ added cs = batchCount start stop batch

/-- What the attempts left: nothing, the whole range, or a part of it that stays. -/
inductive Left (start stop : Amount) (batch : ℕ) (css : List Calls) (S : Finset Amount) : Prop
  | whole (h : ∀ cs ∈ css, AllOrNone start stop batch cs)
      (hS : S = ∅ ∨ S = part start stop batch (batchCount start stop batch))
  | broken (n : ℕ) (h : ¬ ∀ cs ∈ css, AllOrNone start stop batch cs) (hpos : 0 < n)
      (hlt : n < batchCount start stop batch) (hS : S = part start stop batch n)

theorem part_ne_empty (hrange : start ≤ stop) (hbatch : 0 < batch) {n : ℕ} (h₀ : 0 < n)
    (hn : n ≤ batchCount start stop batch) : part start stop batch n ≠ ∅ :=
  Finset.ne_empty_of_mem (first_mem_part hrange hbatch h₀ hn)

theorem forall_concat {P : Calls → Prop} : (∀ x ∈ css ++ [cs], P x) ↔ (∀ x ∈ css, P x) ∧ P cs := by
  simp [or_imp, forall_and]

/-- **Run lemma.** -/
theorem Attempts.left (hrange : start ≤ stop) (hbatch : 0 < batch) (h₀ : w₀.amounts = ∅)
    (h : Attempts start stop batch w₀ css w) : Left start stop batch css w.amounts := by
  induction h with
  | none => exact .whole (by simp) (Or.inl h₀)
  | @more p w₀ w₁ w₂ css cs _ hb ih =>
    show Left start stop batch (css ++ [cs]) w₂.amounts
    obtain ⟨hexists, hempty⟩ := begun_seed hb
    cases ih h₀ with
    | whole hall hS =>
      by_cases hw : w₁.amounts = ∅
      · obtain ⟨hle, hw₂⟩ := hempty hw
        rcases Nat.eq_zero_or_pos (added cs) with hzero | hpos
        · refine .whole (forall_concat.mpr ⟨hall, Or.inl hzero⟩) (Or.inl ?_)
          rw [hw₂, hzero, part_zero]
        · rcases hle.eq_or_lt with hfull | hlt
          · exact .whole (forall_concat.mpr ⟨hall, Or.inr hfull⟩) (Or.inr (hfull ▸ hw₂))
          · refine .broken (added cs) (fun h => ?_) hpos hlt hw₂
            exact (forall_concat.mp h).2.elim hpos.ne' hlt.ne
      · obtain ⟨hzero, hw₂⟩ := hexists hw
        exact .whole (forall_concat.mpr ⟨hall, Or.inl hzero⟩) (hw₂ ▸ hS)
    | broken n hnot hpos hlt hS =>
      have hw : w₁.amounts ≠ ∅ := hS ▸ part_ne_empty hrange hbatch hpos hlt.le
      exact .broken n (fun h => hnot (forall_concat.mp h).1) hpos hlt ((hexists hw).2.trans hS)

/-- A loop that comes to its end had no fault. -/
theorem runs_seedLoop_done {bs : List (List Amount)}
    (h : Executes p (Prog.forEach (fun b => await (.sadd .amounts b)) bs) w cs (.ok ()) w') :
    ∀ c ∈ cs, c.fault = .done := by
  induction bs generalizing w cs with
  | nil =>
    obtain ⟨rfl, -, -⟩ := runs_ret.mp h
    simp
  | cons b bs ih =>
    rcases runs_await.mp h with ⟨_, w₁, cs₁, -, hrest, rfl⟩ | ⟨f, e, -, -, he⟩
    · exact List.forall_mem_cons.mpr ⟨rfl, ih hrest⟩
    · exact absurd he (by simp)

/-- A startup that comes to its end fills an empty set. -/
theorem runs_seed (hbatch : 0 < batch)
    (h : Executes p (isExistRangeAmount start stop batch) w cs (.ok ()) w') :
    w'.amounts = seedOf start stop w.amounts := by
  have hdone : ∀ c ∈ cs, c.fault = .done := by
    unfold isExistRangeAmount at h
    rcases runs_await.mp h with ⟨existing, w₁, cs₁, -, hrest, rfl⟩ | ⟨f, e, -, -, he⟩
    · refine List.forall_mem_cons.mpr ⟨rfl, ?_⟩
      split_ifs at hrest
      · obtain ⟨rfl, -, -⟩ := runs_ret.mp hrest
        simp
      · exact runs_seedLoop_done hrest
    · exact absurd he (by simp)
  obtain ⟨-, rfl⟩ := (wp_isExistRangeAmount hbatch).runs h hdone
  simp [World.amounts]

/-- A startup can come to its end. -/
theorem seed_exists (hbatch : 0 < batch) (w : World) :
    ∃ cs w', Executes p (isExistRangeAmount start stop batch) w cs (.ok ()) w' := by
  obtain ⟨cs, r, w', hr, hdone⟩ := (wp_isExistRangeAmount hbatch).exists_runs
  obtain ⟨rfl, -⟩ := (wp_isExistRangeAmount hbatch).runs hr hdone
  exact ⟨cs, w', hr⟩

/-- **Seeding and interruptions.**  After interrupted startups of the seeder and one that comes to its
end, `amounts` is the whole range exactly when no startup was interrupted between its first and its last
batch. -/
theorem seeding_complete (hrange : start ≤ stop) (hbatch : 1 ≤ batch) (h₀ : w₀.amounts = ∅)
    (h : Attempts start stop batch w₀ css w)
    (hr : Executes p (isExistRangeAmount start stop batch) w cs (.ok ()) w') :
    w'.amounts = Finset.Icc start stop ↔
      ∀ cs ∈ css, added cs = 0 ∨ added cs = batchCount start stop batch := by
  rw [runs_seed hbatch hr]
  cases h.left hrange hbatch h₀ with
  | whole hall hS =>
    refine iff_of_true ?_ hall
    rcases hS with hS | hS
    · rw [hS, seedOf, if_pos rfl]
    · rw [hS, part_all hbatch, seedOf]
      split_ifs <;> rfl
  | broken n hnot hpos hlt hS =>
    refine iff_of_false (fun heq => ?_) hnot
    rw [hS, seedOf, if_neg (part_ne_empty hrange hbatch hpos hlt.le)] at heq
    exact last_notMem_part hbatch hlt (heq ▸ Finset.mem_Icc.mpr ⟨hrange, le_rfl⟩)

/-- The loop can be cut off after any number of its batches. -/
theorem seedLoop_cut (bs : List (List Amount)) {n : ℕ} (hn : n ≤ bs.length) (w : World) :
    ∃ cs w', Begun system 0 (Prog.forEach (fun b => await (.sadd .amounts b)) bs) w cs w' ∧
      added cs = n := by
  induction n generalizing bs w with
  | zero => exact ⟨[], w, .cut, rfl⟩
  | succ n ih =>
    cases bs with
    | nil => exact absurd hn (by simp)
    | cons b bs =>
      obtain ⟨cs, w', hbegun, hcs⟩ := ih bs (Nat.le_of_succ_le_succ hn)
        { w with sets := SetStore.sadd w.sets .amounts b }
      refine ⟨⟨.done, .sadd .amounts b, .ok ()⟩ :: cs, w', ?_, ?_⟩
      · exact begun_perform.mpr (Or.inr (Or.inl ⟨.done, (), _, _, ⟨rfl, rfl⟩, hbegun, rfl⟩))
      · rw [added, List.countP_cons_of_pos rfl]
        exact congrArg (· + 1) hcs

/-- A first startup that is interrupted after `n` batches. -/
theorem interrupted_after {n : ℕ} (hn : n ≤ batchCount start stop batch) : ∃ cs w,
    Attempts start stop batch World.empty [cs] w ∧ added cs = n ∧ w.amounts = part start stop batch n := by
  obtain ⟨cs, w, hloop, hcs⟩ := seedLoop_cut (batches (amountRange start stop) batch) hn World.empty
  have hbegun : Begun system 0 (isExistRangeAmount start stop batch) World.empty
      (⟨.done, .exists .amounts, .ok false⟩ :: cs) w :=
    begun_perform.mpr (Or.inr (Or.inl ⟨.done, false, _, _, ⟨rfl, rfl⟩, hloop, rfl⟩))
  have hadded : added (⟨.done, .exists .amounts, .ok false⟩ :: cs) = n :=
    (List.countP_cons_of_neg (by decide)).trans hcs
  have h : Attempts start stop batch World.empty ([] ++ [_]) _ := .more .none hbegun
  exact ⟨_, _, h, hadded, hadded ▸ ((begun_seed hbegun).2 rfl).2⟩

/-- The startup of the service, interrupted after all its six batches, and again before it reads. -/
theorem seeding_complete_sample : ∃ (css : List Calls) (w : World) (cs : Calls) (w' : World),
    Attempts 1500000 1550000 10000 World.empty css w ∧ css.map added = [6, 0] ∧
      Executes 0 (isExistRangeAmount 1500000 1550000 10000) w cs (.ok ()) w' ∧
      w'.amounts = Finset.Icc 1500000 1550000 := by
  have hcount : batchCount 1500000 1550000 10000 = 6 := batchCount_eq
  obtain ⟨cs₁, w₁, h₁, hcs₁, -⟩ := interrupted_after hcount.ge
  have h : Attempts 1500000 1550000 10000 World.empty ([cs₁] ++ [[]]) (system.abort 0 w₁) :=
    .more h₁ .cut
  have hnone : added [] = 0 := rfl
  obtain ⟨cs, w', hr⟩ : ∃ cs w', Executes 0 (isExistRangeAmount 1500000 1550000 10000)
      (system.abort 0 w₁) cs (.ok ()) w' := seed_exists (by decide) _
  refine ⟨_, _, cs, w', h, ?_, hr, (seeding_complete (by decide) (by decide) rfl h hr).mpr ?_⟩
  · simp [hcs₁, hnone]
  · simp [hcs₁, hnone, hcount]

/-- The startup of the service, interrupted after the first of its six batches. -/
theorem seeding_partial : ¬ ∀ (start stop : Amount) (batch : ℕ) (w₀ w w' : World) (css : List Calls)
    (p : Pid) (cs : Calls), start ≤ stop → 1 ≤ batch → w₀.amounts = ∅ →
      Attempts start stop batch w₀ css w →
      Executes p (isExistRangeAmount start stop batch) w cs (.ok ()) w' →
        w'.amounts = Finset.Icc start stop := by
  intro h
  have hrange : (1500000 : Amount) ≤ 1550000 := by decide
  have hcount : 1 < batchCount 1500000 1550000 10000 := by
    rw [batchCount_eq]
    decide
  obtain ⟨cs, w, hattempts, -, hw⟩ := interrupted_after hcount.le
  obtain ⟨cs', w', hr⟩ : ∃ cs' w', Executes 0 (isExistRangeAmount 1500000 1550000 10000) w cs'
      (.ok ()) w' := seed_exists (by decide) w
  have hall := h 1500000 1550000 10000 World.empty w w' [cs] 0 cs' hrange (by decide) rfl hattempts hr
  have hne : w.amounts ≠ ∅ := hw ▸ part_ne_empty hrange (by decide) one_pos hcount.le
  rw [runs_seed (by decide) hr, seedOf, if_neg hne, hw] at hall
  exact last_notMem_part (by decide) hcount (hall ▸ Finset.mem_Icc.mpr ⟨hrange, le_rfl⟩)

end Pool

end PaymentRecon
