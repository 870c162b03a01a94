import Mathlib.Data.List.Sort
import Mathlib.Order.Interval.Finset.Basic
import Mathlib.Data.Int.Interval
import PaymentRecon.Tables.Consistent

/-!
# Startup — what a startup computes

A startup that runs by itself seeds `amounts` when it is empty, and rebuilds `pending_orders` from the
PENDING intents and `free_amounts` from both.  The intents are read page by page; the buffer between
the pages and Redis is written at its own granularity.
-/

namespace PaymentRecon

open Interleave SetStore

namespace Pool

variable {p : Pid} {w : World}

/-- The range that startup seeds. -/
def seeded : Finset Amount := Finset.Icc 1500000 1550000

/-! ## The range and its batches -/

theorem mem_intRange {start stop x : ℤ} :
    x ∈ (List.range (stop + 1 - start).toNat).map (fun k : ℕ => start + (k : ℤ)) ↔
      start ≤ x ∧ x ≤ stop := by
  constructor
  · intro h
    obtain ⟨k, hk, rfl⟩ := List.mem_map.mp h
    rw [List.mem_range] at hk
    constructor <;> omega
  · rintro ⟨hlo, hhi⟩
    exact List.mem_map.mpr ⟨(x - start).toNat, List.mem_range.mpr (by omega), by omega⟩

theorem mem_amountRange {start stop x : Amount} :
    x ∈ amountRange start stop ↔ start ≤ x ∧ x ≤ stop := mem_intRange

theorem mem_batches {xs : List Amount} {n : ℕ} (hn : 0 < n) {x : Amount} :
    (∃ b ∈ batches xs n, x ∈ b) ↔ x ∈ xs := by
  unfold batches
  constructor
  · rintro ⟨b, hb, hx⟩
    obtain ⟨k, -, rfl⟩ := List.mem_map.mp hb
    exact List.mem_of_mem_drop (List.mem_of_mem_take hx)
  · intro hx
    obtain ⟨i, hi, rfl⟩ := List.mem_iff_getElem.mp hx
    -- the element at `i` is at `i % n` of slice `i / n`
    refine ⟨_, List.mem_map.mpr ⟨i / n, List.mem_range.mpr ?_, rfl⟩, ?_⟩
    · rw [Nat.div_lt_iff_lt_mul hn]
      have h := Nat.lt_div_mul_add (a := xs.length + n - 1) hn
      omega
    · have hdiv := Nat.div_add_mod i n
      rw [Nat.mul_comm] at hdiv
      have hmod := Nat.mod_lt i hn
      refine List.mem_iff_getElem.mpr ⟨i % n, ?_, ?_⟩
      · simp only [List.length_take, List.length_drop]
        omega
      · simp only [List.getElem_take, List.getElem_drop]
        congr 1

/-! ## The pages -/

/-- The PENDING intents above the cursor. -/
def Above (db : Db) (cursor : Id) : List PaymentIntent :=
  (db.intents.filter fun i => i.status = .PENDING ∧ cursor < i.id).mergeSort fun i j => i.id ≤ j.id

theorem mem_above {db : Db} {cursor : Id} {i : PaymentIntent} :
    i ∈ Above db cursor ↔ i ∈ db.intents ∧ i.status = .PENDING ∧ cursor < i.id := by
  simp [Above]

theorem above_sorted (db : Db) (cursor : Id) :
    (Above db cursor).Pairwise fun i j => i.id ≤ j.id := by
  have h := @List.pairwise_mergeSort _ (fun i j : PaymentIntent => decide (i.id ≤ j.id))
    (fun a b c hab hbc => by simp at *; exact hab.trans hbc)
    (fun a b => by simp [le_total]) (db.intents.filter fun i => i.status = .PENDING ∧ cursor < i.id)
  exact h.imp fun hle => by simpa using hle

/-- An intent above the cursor is on the page, or above the last intent of the page. -/
theorem page_covers {db : Db} (hnd : (db.intents.map (·.id)).Nodup) {cursor : Id} {limit : ℕ}
    {last : PaymentIntent} (hlast : (db.pendingPage cursor limit).getLast? = some last) :
    cursor < last.id ∧ ∀ i, i ∈ Above db cursor ↔ i ∈ db.pendingPage cursor limit ∨
      i ∈ Above db last.id := by
  have hpage : db.pendingPage cursor limit = (Above db cursor).take limit := rfl
  have hmem : last ∈ db.pendingPage cursor limit := List.mem_of_getLast? hlast
  have hpending := mem_above.mp (List.mem_of_mem_take (hpage ▸ hmem))
  refine ⟨hpending.2.2, ?_⟩
  intro i
  constructor
  · intro hi
    have hsplit := List.take_append_drop limit (Above db cursor)
    rw [← hsplit] at hi
    rcases List.mem_append.mp hi with hi | hi
    · exact Or.inl (hpage ▸ hi)
    · right
      have hsorted := above_sorted db cursor
      rw [← hsplit, List.pairwise_append] at hsorted
      have hle := hsorted.2.2 last (hpage ▸ hmem) i hi
      have hi' := mem_above.mp (List.mem_of_mem_drop hi)
      refine mem_above.mpr ⟨hi'.1, hi'.2.1, lt_of_le_of_ne hle fun heq => ?_⟩
      -- ids are distinct, so the last intent of the page is not below the page
      obtain rfl := List.inj_on_of_nodup_map hnd hpending.1 hi'.1 heq
      have hdisj : (Above db cursor).Nodup := by
        have hnodup : db.intents.Nodup := hnd.of_map
        exact (List.mergeSort_perm _ _).nodup_iff.mpr (hnodup.filter _)
      rw [← hsplit, List.nodup_append] at hdisj
      exact hdisj.2.2 last (hpage ▸ hmem) last hi rfl
  · rintro (hi | hi)
    · exact List.mem_of_mem_take (hpage ▸ hi)
    · obtain ⟨h1, h2, h3⟩ := mem_above.mp hi
      exact mem_above.mpr ⟨h1, h2, hpending.2.2.trans h3⟩

/-- A page is empty when nothing is above the cursor. -/
theorem page_nil {db : Db} {cursor : Id} {limit : ℕ} (hlimit : 0 < limit)
    (h : (db.pendingPage cursor limit).getLast? = none) : Above db cursor = [] := by
  have hnil : (Above db cursor).take limit = [] := List.getLast?_eq_none_iff.mp h
  rcases List.take_eq_nil_iff.mp hnil with h0 | h0
  · omega
  · exact h0

/-- Fewer intents are above the last one of a page. -/
theorem above_length {db : Db} {cursor : Id} {limit : ℕ} {last : PaymentIntent}
    (hlast : (db.pendingPage cursor limit).getLast? = some last) :
    (Above db last.id).length < (Above db cursor).length := by
  have hmem : last ∈ Above db cursor := List.mem_of_mem_take (List.mem_of_getLast? hlast)
  obtain ⟨hl1, hl2, hl3⟩ := mem_above.mp hmem
  have hfilter : db.intents.filter (fun i => i.status = .PENDING ∧ last.id < i.id) =
      (db.intents.filter fun i => i.status = .PENDING ∧ cursor < i.id).filter
        fun i => last.id < i.id := by
    rw [List.filter_filter]
    refine List.filter_congr fun i _ => ?_
    rw [Bool.eq_iff_iff]
    simp only [Bool.and_eq_true, decide_eq_true_eq]
    exact ⟨fun h => ⟨h.2, h.1, hl3.trans h.2⟩, fun h => ⟨h.2.1, h.1⟩⟩
  simp only [Above, List.length_mergeSort, hfilter]
  refine List.length_filter_lt_length_iff_exists.mpr ⟨last, ?_, by simp⟩
  simpa using ⟨hl1, hl2, hl3⟩

/-! ## Weakest preconditions of the startup -/

/-- The PENDING amounts. -/
def reserved (db : Db) : Finset Amount :=
  ((db.intents.filter fun i => i.status = .PENDING).map (·.exactAmount)).toFinset

theorem mem_reserved {db : Db} {a : Amount} :
    a ∈ reserved db ↔ ∃ i ∈ db.intents, i.Holds a := by
  simp [reserved, PaymentIntent.Holds, and_assoc]

/-- An operation with one answer. -/
theorem wp_await {op : Op} {post : Except Exc op.Ret → World → Prop} {w' : World} {u : op.Ret}
    (hrun : ∀ r w₁, op.run p w r w₁ ↔ r = .ok u ∧ w₁ = w') (h : post (.ok u) w') :
    Wp system p (await op) post w := by
  refine Wp.perform ⟨.ok u, w', (hrun _ _).mpr ⟨rfl, rfl⟩⟩ ?_
  intro r w₁ hx
  obtain ⟨rfl, rfl⟩ := (hrun r w₁).mp hx
  exact h

theorem wp_await_bind {β : Type} {op : Op} {f : op.Ret → App β}
    {post : Except Exc β → World → Prop} {w' : World} {u : op.Ret}
    (hrun : ∀ r w₁, op.run p w r w₁ ↔ r = .ok u ∧ w₁ = w') (h : Wp system p (f u) post w') :
    Wp system p (await op >>= f) post w := by
  refine Wp.bind (m := fun r w₁ => r = .ok u ∧ w₁ = w') (wp_await hrun ⟨rfl, rfl⟩) ?_ ?_
  · rintro a w₁ ⟨ha, rfl⟩
    obtain rfl : a = u := by simpa using ha
    exact h
  · rintro e w₁ ⟨he, -⟩
    exact absurd he (by simp)

/-- What `add_pending_orders` leaves: the set it wrote to, and the rest in the buffer. -/
def Added (w : World) (cursor : Id) (buffer : List Amount) (r : Except Exc (List Amount))
    (w' : World) : Prop :=
  ∃ rest S, r = .ok rest ∧ w' = withSets w (Function.update w.sets .pendingOrders S) ∧
    ∀ a, (a ∈ S ∨ a ∈ rest) ↔
      a ∈ w.pending ∨ a ∈ buffer ∨ ∃ i ∈ Above w.db cursor, i.exactAmount = a

/-- **Paging**: with enough fuel every PENDING intent above the cursor is added. -/
theorem wp_addPendingOrders {limit : ℕ} (hlimit : 0 < limit) (redisBuffer fuel : ℕ) {cursor : Id}
    {buffer : List Amount} (hnd : (w.db.intents.map (·.id)).Nodup)
    (hfuel : (Above w.db cursor).length < fuel) :
    Wp system p (addPendingOrders limit redisBuffer fuel cursor buffer) (Added w cursor buffer) w := by
  induction fuel generalizing cursor buffer w with
  | zero => omega
  | succ fuel ih =>
    unfold addPendingOrders
    refine wp_await_bind (u := w.db.pendingPage cursor limit) (fun _ _ => Iff.rfl) ?_
    cases hlast : (w.db.pendingPage cursor limit).getLast? with
    | none =>
      refine ⟨buffer, w.pending, rfl, ?_, ?_⟩
      · rw [Function.update_eq_self]
        rfl
      · intro a
        simp [page_nil hlimit hlast]
    | some last =>
      obtain ⟨-, hcover⟩ := page_covers hnd hlast
      have hless := above_length hlast
      -- the amounts above the cursor are those of the page and those above its last intent
      have hamounts : ∀ a, (∃ i ∈ Above w.db cursor, i.exactAmount = a) ↔
          a ∈ (w.db.pendingPage cursor limit).map (·.exactAmount) ∨
            ∃ i ∈ Above w.db last.id, i.exactAmount = a := by
        intro a
        simp only [hcover, List.mem_map]
        constructor
        · rintro ⟨i, hi | hi, ha⟩
          · exact Or.inl ⟨i, hi, ha⟩
          · exact Or.inr ⟨i, hi, ha⟩
        · rintro (⟨i, hi, ha⟩ | ⟨i, hi, ha⟩)
          · exact ⟨i, Or.inl hi, ha⟩
          · exact ⟨i, Or.inr hi, ha⟩
      simp only
      split_ifs
      · refine wp_await_bind (u := ()) (fun _ _ => Iff.rfl) ?_
        refine (ih (w := withSets w (SetStore.sadd w.sets .pendingOrders _)) hnd (by
          exact lt_of_lt_of_le hless (Nat.lt_succ_iff.mp hfuel))).mono ?_
        rintro r w' ⟨rest, S, rfl, rfl, hS⟩
        refine ⟨rest, S, rfl, ?_, ?_⟩
        · simp only [withSets_sets, withSets_withSets, SetStore.sadd, Function.update_idem]
        · intro a
          rw [hS, hamounts]
          simp only [World.pending, withSets_sets, mem_sadd, List.mem_append, List.not_mem_nil,
            false_or, withSets_db]
          tauto
      · refine (ih hnd (lt_of_lt_of_le hless (Nat.lt_succ_iff.mp hfuel))).mono ?_
        rintro r w' ⟨rest, S, rfl, rfl, hS⟩
        refine ⟨rest, S, rfl, rfl, ?_⟩
        intro a
        rw [hS, hamounts]
        simp only [List.mem_append]
        tauto

/-- The sets after a rebuild. -/
def rebuilt (w : World) : Sets SetKey Amount
  | .amounts => w.amounts
  | .pendingOrders => reserved w.db
  | .freeAmounts => w.amounts \ reserved w.db

theorem wp_rebuildPool {limit : ℕ} (hlimit : 0 < limit) (redisBuffer : ℕ) {fuel : ℕ}
    (hnd : (w.db.intents.map (·.id)).Nodup) (hpos : ∀ i ∈ w.db.intents, 1 ≤ i.id)
    (hfuel : w.db.intents.length < fuel) :
    Wp system p (rebuildPool limit redisBuffer fuel)
      (fun r w' => r = .ok () ∧ w' = withSets w (rebuilt w)) w := by
  unfold rebuildPool
  refine wp_await_bind (u := ()) (fun _ _ => Iff.rfl) ?_
  have hlen : (Above w.db 0).length < fuel := by
    refine lt_of_le_of_lt ?_ hfuel
    rw [Above, List.length_mergeSort]
    exact List.length_filter_le _ _
  refine Wp.bind (wp_addPendingOrders (w := withSets w (SetStore.del w.sets .pendingOrders)) hlimit
    redisBuffer fuel hnd hlen) ?_ ?_
  · rintro rest w' ⟨rest', S, hrest, rfl, hS⟩
    obtain rfl : rest = rest' := by simpa using hrest
    -- the set and the buffer together are the PENDING amounts
    have hall : ∀ a, (a ∈ S ∨ a ∈ rest) ↔ a ∈ reserved w.db := by
      intro a
      rw [hS, mem_reserved]
      simp only [World.pending, withSets_sets, SetStore.del, Function.update_self, Finset.notMem_empty,
        List.not_mem_nil, false_or, mem_above, withSets_db, PaymentIntent.Holds]
      constructor
      · rintro ⟨i, ⟨hi, hst, -⟩, ha⟩
        exact ⟨i, hi, hst, ha⟩
      · rintro ⟨i, hi, hst, ha⟩
        exact ⟨i, ⟨hi, hst, Int.lt_iff_add_one_le.mpr (hpos i hi)⟩, ha⟩
    have hfinal : ∀ T : Finset Amount, (∀ a, a ∈ T ↔ a ∈ S ∨ a ∈ rest) →
        Function.update (Function.update w.sets .pendingOrders T) .freeAmounts (w.amounts \ T) =
          rebuilt w := by
      intro T hT
      obtain rfl : T = reserved w.db := Finset.ext fun a => (hT a).trans (hall a)
      funext k
      cases k <;> rfl
    simp only [withSets_sets, withSets_withSets, SetStore.del, Function.update_idem]
    split_ifs with hrest
    · refine wp_await_bind (u := ()) (fun _ _ => Iff.rfl) ?_
      refine wp_await (u := ()) (fun _ _ => Iff.rfl) ⟨rfl, ?_⟩
      rw [← hfinal (S ∪ rest.toFinset) (by simp)]
      simp [SetStore.sadd, SetStore.sdiffstore, withSets, World.amounts]
    · obtain rfl : rest = [] := by simpa using hrest
      refine wp_await (u := ()) (fun _ _ => Iff.rfl) ⟨rfl, ?_⟩
      rw [← hfinal S (by simp)]
      simp [SetStore.sdiffstore, withSets, World.amounts]
  · rintro e w' ⟨rest, S, h, -⟩
    exact absurd h (by simp)

/-- The seeding loop adds every batch. -/
theorem wp_seedLoop (bs : List (List Amount)) :
    Wp system p (Prog.forEach (fun b => await (.sadd .amounts b)) bs)
      (fun r w' => r = .ok () ∧ ∃ S, w' = withSets w (Function.update w.sets .amounts S) ∧
        ∀ a, a ∈ S ↔ a ∈ w.amounts ∨ ∃ b ∈ bs, a ∈ b) w := by
  induction bs generalizing w with
  | nil =>
    refine ⟨rfl, w.amounts, ?_, by simp⟩
    rw [Function.update_eq_self]
    rfl
  | cons b bs ih =>
    refine wp_await_bind (u := ()) (fun _ _ => Iff.rfl) ?_
    refine (ih (w := withSets w (SetStore.sadd w.sets .amounts b))).mono ?_
    rintro r w' ⟨rfl, S, rfl, hS⟩
    refine ⟨rfl, S, ?_, ?_⟩
    · simp [SetStore.sadd]
    · intro a
      rw [hS]
      simp [World.amounts, or_assoc]

/-- The set `amounts` after the seeding. -/
def seedOf (start stop : Amount) (s : Finset Amount) : Finset Amount :=
  if s = ∅ then Finset.Icc start stop else s

theorem wp_isExistRangeAmount {start stop : Amount} {batch : ℕ} (hbatch : 0 < batch) :
    Wp system p (isExistRangeAmount start stop batch)
      (fun r w' => r = .ok () ∧
        w' = withSets w (Function.update w.sets .amounts (seedOf start stop w.amounts))) w := by
  unfold isExistRangeAmount
  refine wp_await_bind (u := decide (w.sets .amounts ≠ ∅)) (fun _ _ => Iff.rfl) ?_
  by_cases hempty : w.amounts = ∅
  · have hdec : decide (w.sets .amounts ≠ ∅) = false := by simpa using hempty
    rw [hdec]
    refine (wp_seedLoop _).mono ?_
    rintro r w' ⟨rfl, S, rfl, hS⟩
    refine ⟨rfl, ?_⟩
    rw [seedOf, if_pos hempty]
    congr 2
    ext a
    rw [hS, hempty, mem_batches hbatch, mem_amountRange]
    simp
  · have hdec : decide (w.sets .amounts ≠ ∅) = true := by simpa using hempty
    rw [hdec]
    refine ⟨rfl, ?_⟩
    rw [seedOf, if_neg hempty, Function.update_eq_self]
    rfl

/-- The sets after a startup. -/
def restarted (w : World) : Sets SetKey Amount
  | .amounts => seedOf 1500000 1550000 w.amounts
  | .pendingOrders => reserved w.db
  | .freeAmounts => seedOf 1500000 1550000 w.amounts \ reserved w.db

/-- `lifespan` with a page limit and a size of the buffer. -/
def lifespanWith (limit redisBuffer fuel : ℕ) : App Response := do
  isExistRangeAmount 1500000 1550000 10000
  rebuildPool limit redisBuffer fuel
  pure .started

theorem lifespan_eq (fuel : ℕ) : lifespan fuel = lifespanWith 100 1000 fuel := rfl

/-- **Startup**: with enough fuel it comes to its end and leaves `restarted`. -/
theorem wp_lifespanWith {limit : ℕ} (hlimit : 0 < limit) (redisBuffer : ℕ) {fuel : ℕ}
    (hnd : (w.db.intents.map (·.id)).Nodup) (hpos : ∀ i ∈ w.db.intents, 1 ≤ i.id)
    (hfuel : w.db.intents.length < fuel) :
    Wp system p (lifespanWith limit redisBuffer fuel)
      (fun r w' => r = .ok .started ∧ w' = withSets w (restarted w)) w := by
  unfold lifespanWith
  refine Wp.bind (wp_isExistRangeAmount (by decide)) ?_ ?_
  · rintro _ w' ⟨-, rfl⟩
    refine Wp.bind (wp_rebuildPool (w := withSets w _) hlimit redisBuffer hnd hpos hfuel) ?_ ?_
    · rintro _ w' ⟨-, rfl⟩
      refine ⟨rfl, ?_⟩
      rw [withSets_withSets]
      have hsets : rebuilt (withSets w (Function.update w.sets .amounts
          (seedOf 1500000 1550000 w.amounts))) = restarted w := by
        funext k
        cases k <;> simp [rebuilt, restarted, World.amounts]
      rw [hsets]
    · rintro e w' ⟨h, -⟩
      exact absurd h (by simp)
  · rintro e w' ⟨h, -⟩
    exact absurd h (by simp)

theorem wp_lifespan {fuel : ℕ} (hnd : (w.db.intents.map (·.id)).Nodup)
    (hpos : ∀ i ∈ w.db.intents, 1 ≤ i.id) (hfuel : w.db.intents.length < fuel) :
    Wp system p (lifespan fuel)
      (fun r w' => r = .ok .started ∧ w' = withSets w (restarted w)) w := by
  rw [lifespan_eq]
  exact wp_lifespanWith (by decide) 1000 hnd hpos hfuel

/-- The first startup on an empty store leaves this world. -/
def firstStarted : World := withSets World.empty (restarted World.empty)

theorem firstStarted_sets (k : SetKey) :
    firstStarted.sets k = if k = .pendingOrders then ∅ else seeded := by
  cases k <;> rfl

end Pool

end PaymentRecon
