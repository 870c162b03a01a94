import Mathlib.Algebra.BigOperators.Group.List.Basic
import Mathlib.Data.List.Nodup
import Mathlib.Data.List.Perm.Basic

/-!
# Book — what a payment reconciliation is for

A book has bills and transfers.  Bills that await payment are told apart by their amounts alone, so that a
transfer says by its amount which bill it pays; a transfer pays one bill, of its own amount.  A `Book`
carries these rules as fields: a book that breaks them cannot be written.  `Posts` are the four entries
that keep them.
-/

namespace Ledger

variable {β τ α : Type}

/-- How a bill stands. -/
inductive Standing (τ : Type)
  | awaiting
  | failed
  | shelved
  | waived
  | paidBy (t : τ)

structure Bill (β τ α : Type) where
  id : β
  amount : α
  standing : Standing τ

/-- The bill gets another standing when it is `id`. -/
def Bill.restand [DecidableEq β] (id : β) (s : Standing τ) (b : Bill β τ α) : Bill β τ α :=
  if b.id = id then { b with standing := s } else b

@[simp] theorem Bill.restand_id [DecidableEq β] (id : β) (s : Standing τ) (b : Bill β τ α) :
    (b.restand id s).id = b.id := by
  unfold Bill.restand
  split_ifs <;> rfl

structure Transfer (τ α : Type) where
  id : τ
  amount : α

structure Book (β τ α : Type) where
  bills : List (Bill β τ α)
  transfers : List (Transfer τ α)
  billIds : (bills.map (·.id)).Nodup
  transferIds : (transfers.map (·.id)).Nodup
  distinct : ∀ b ∈ bills, ∀ b' ∈ bills, b.standing = .awaiting → b'.standing = .awaiting →
    b.amount = b'.amount → b = b'
  covered : ∀ b ∈ bills, ∀ t, b.standing = .paidBy t →
    ∃ x ∈ transfers, x.id = t ∧ x.amount = b.amount
  once : ∀ b ∈ bills, ∀ b' ∈ bills, ∀ t, b.standing = .paidBy t → b'.standing = .paidBy t → b = b'

namespace Book

/-- No bill, no transfer. -/
def empty : Book β τ α :=
  ⟨[], [], List.nodup_nil, List.nodup_nil, by simp, by simp, by simp⟩

/-- The bills with one id are one bill. -/
theorem bill_eq (B : Book β τ α) {b b' : Bill β τ α} (hb : b ∈ B.bills) (hb' : b' ∈ B.bills)
    (h : b.id = b'.id) : b = b' := List.inj_on_of_nodup_map B.billIds hb hb' h

/-! ## Entries -/

/-- A bill of an amount that no other bill awaits. -/
def place (B : Book β τ α) (id : β) (a : α) (hid : ∀ b ∈ B.bills, b.id ≠ id)
    (hfree : ∀ b ∈ B.bills, b.standing = .awaiting → b.amount ≠ a) : Book β τ α where
  bills := B.bills ++ [⟨id, a, .awaiting⟩]
  transfers := B.transfers
  billIds := by
    rw [List.map_append, List.nodup_append]
    refine ⟨B.billIds, by simp, ?_⟩
    rintro x hx y hy rfl
    obtain ⟨b, hb, rfl⟩ := List.mem_map.mp hx
    exact hid b hb (by simpa using hy)
  transferIds := B.transferIds
  distinct b hb b' hb' hs hs' ha := by
    rcases List.mem_append.mp hb with hb | hb <;> rcases List.mem_append.mp hb' with hb' | hb'
    · exact B.distinct b hb b' hb' hs hs' ha
    · obtain rfl := List.mem_singleton.mp hb'
      exact absurd ha (hfree b hb hs)
    · obtain rfl := List.mem_singleton.mp hb
      exact absurd ha.symm (hfree b' hb' hs')
    · rw [List.mem_singleton.mp hb, List.mem_singleton.mp hb']
  covered b hb t hs := by
    rcases List.mem_append.mp hb with hb | hb
    · exact B.covered b hb t hs
    · rw [List.mem_singleton.mp hb] at hs
      cases hs
  once b hb b' hb' t hs hs' := by
    rcases List.mem_append.mp hb with hb | hb <;> rcases List.mem_append.mp hb' with hb' | hb'
    · exact B.once b hb b' hb' t hs hs'
    · rw [List.mem_singleton.mp hb'] at hs'
      cases hs'
    · rw [List.mem_singleton.mp hb] at hs
      cases hs
    · rw [List.mem_singleton.mp hb, List.mem_singleton.mp hb']

/-- A transfer with a new id. -/
def receive (B : Book β τ α) (t : τ) (a : α) (ht : ∀ x ∈ B.transfers, x.id ≠ t) : Book β τ α where
  bills := B.bills
  transfers := B.transfers ++ [⟨t, a⟩]
  billIds := B.billIds
  transferIds := by
    rw [List.map_append, List.nodup_append]
    refine ⟨B.transferIds, by simp, ?_⟩
    rintro x hx y hy rfl
    obtain ⟨z, hz, rfl⟩ := List.mem_map.mp hx
    exact ht z hz (by simpa using hy)
  distinct := B.distinct
  covered b hb t hs := by
    obtain ⟨x, hx, hid⟩ := B.covered b hb t hs
    exact ⟨x, List.mem_append_left _ hx, hid⟩
  once := B.once

section Restand

variable [DecidableEq β]

/-- A bill that does not await payment any more makes room for others. -/
theorem restand_distinct (B : Book β τ α) {id : β} {s : Standing τ} (hs : s ≠ .awaiting) :
    ∀ b ∈ B.bills.map (Bill.restand id s), ∀ b' ∈ B.bills.map (Bill.restand id s),
      b.standing = .awaiting → b'.standing = .awaiting → b.amount = b'.amount → b = b' := by
  have hold : ∀ b : Bill β τ α, (Bill.restand id s b).standing = .awaiting →
      Bill.restand id s b = b := by
    intro b hb
    unfold Bill.restand at hb ⊢
    split_ifs at hb ⊢ with hid
    · exact absurd hb hs
    · rfl
  intro b hb b' hb' h h' ha
  obtain ⟨c, hc, rfl⟩ := List.mem_map.mp hb
  obtain ⟨c', hc', rfl⟩ := List.mem_map.mp hb'
  have hc₁ := hold c h
  have hc₂ := hold c' h'
  rw [hc₁] at h ha ⊢
  rw [hc₂] at h' ha ⊢
  exact B.distinct c hc c' hc' h h' ha

theorem restand_ids (B : Book β τ α) (id : β) (s : Standing τ) :
    (B.bills.map (Bill.restand id s)).map (·.id) = B.bills.map (·.id) := by
  rw [List.map_map]
  exact List.map_congr_left fun b _ => Bill.restand_id id s b

/-- The bill is paid by a transfer of its amount that paid nothing yet. -/
def settle (B : Book β τ α) {b₀ : Bill β τ α} {x₀ : Transfer τ α} (hb₀ : b₀ ∈ B.bills)
    (hx₀ : x₀ ∈ B.transfers) (ha : x₀.amount = b₀.amount)
    (hunused : ∀ b ∈ B.bills, b.standing ≠ .paidBy x₀.id) : Book β τ α where
  bills := B.bills.map (Bill.restand b₀.id (.paidBy x₀.id))
  transfers := B.transfers
  billIds := by
    rw [restand_ids]
    exact B.billIds
  transferIds := B.transferIds
  distinct := B.restand_distinct (by simp)
  covered b hb t hs := by
    obtain ⟨c, hc, rfl⟩ := List.mem_map.mp hb
    unfold Bill.restand at hs ⊢
    split_ifs at hs ⊢ with hid
    · obtain rfl := B.bill_eq hc hb₀ hid
      cases hs
      exact ⟨x₀, hx₀, rfl, ha⟩
    · exact B.covered c hc t hs
  once b hb b' hb' t hs hs' := by
    obtain ⟨c, hc, rfl⟩ := List.mem_map.mp hb
    obtain ⟨c', hc', rfl⟩ := List.mem_map.mp hb'
    unfold Bill.restand at hs hs' ⊢
    split_ifs at hs hs' ⊢ with hid hid'
    · rw [B.bill_eq hc hc' (hid.trans hid'.symm)]
    · cases hs
      exact absurd hs' (hunused c' hc')
    · cases hs'
      exact absurd hs (hunused c hc)
    · rw [B.once c hc c' hc' t hs hs']

/-- The bill is taken as paid without a transfer. -/
def waive (B : Book β τ α) (id : β) : Book β τ α where
  bills := B.bills.map (Bill.restand id .waived)
  transfers := B.transfers
  billIds := by
    rw [restand_ids]
    exact B.billIds
  transferIds := B.transferIds
  distinct := B.restand_distinct (by simp)
  covered b hb t hs := by
    obtain ⟨c, hc, rfl⟩ := List.mem_map.mp hb
    unfold Bill.restand at hs ⊢
    split_ifs at hs ⊢
    exact B.covered c hc t hs
  once b hb b' hb' t hs hs' := by
    obtain ⟨c, hc, rfl⟩ := List.mem_map.mp hb
    obtain ⟨c', hc', rfl⟩ := List.mem_map.mp hb'
    unfold Bill.restand at hs hs' ⊢
    split_ifs at hs hs' ⊢
    rw [B.once c hc c' hc' t hs hs']

end Restand

end Book

inductive Entry (β τ α : Type)
  | place (id : β) (a : α)
  | receive (t : τ) (a : α)
  | settle (id : β) (t : τ)
  | waive (id : β)

/-- One entry: a bill is paid by a transfer while it awaits payment, and waived while it awaits payment or
after its payment failed. -/
inductive Posts [DecidableEq β] : Book β τ α → Entry β τ α → Book β τ α → Prop
  | place {B : Book β τ α} {id : β} {a : α} (hid : ∀ b ∈ B.bills, b.id ≠ id)
      (hfree : ∀ b ∈ B.bills, b.standing = .awaiting → b.amount ≠ a) :
      Posts B (.place id a) (B.place id a hid hfree)
  | receive {B : Book β τ α} {t : τ} {a : α} (ht : ∀ x ∈ B.transfers, x.id ≠ t) :
      Posts B (.receive t a) (B.receive t a ht)
  | settle {B : Book β τ α} {b : Bill β τ α} {x : Transfer τ α} (hb : b ∈ B.bills)
      (hwait : b.standing = .awaiting) (hx : x ∈ B.transfers) (ha : x.amount = b.amount)
      (hunused : ∀ b ∈ B.bills, b.standing ≠ .paidBy x.id) :
      Posts B (.settle b.id x.id) (B.settle hb hx ha hunused)
  | waive {B : Book β τ α} {b : Bill β τ α} (hb : b ∈ B.bills)
      (hopen : b.standing = .awaiting ∨ b.standing = .failed) : Posts B (.waive b.id) (B.waive b.id)

/-! ## Money -/

namespace Book

/-- The transfer that paid a bill, with the amount of the bill. -/
def payment (b : Bill β τ α) : Option (τ × α) :=
  match b.standing with
  | .paidBy t => some (t, b.amount)
  | _ => none

theorem payment_eq {b : Bill β τ α} {t : τ} {a : α} :
    payment b = some (t, a) ↔ b.standing = .paidBy t ∧ b.amount = a := by
  unfold payment
  split
  · rename_i t' ht
    simp [ht]
  · rename_i hno
    simp only [reduceCtorEq, false_iff, not_and]
    exact fun ht => absurd ht (hno t)

/-- The transfer paid a bill. -/
def Used (B : Book β τ α) (x : Transfer τ α) : Prop := ∃ b ∈ B.bills, b.standing = .paidBy x.id

/-- The payments of a book are the transfers that paid a bill. -/
theorem payments_perm (B : Book β τ α) [DecidablePred B.Used] :
    (B.bills.filterMap payment).Perm
      ((B.transfers.filter fun x => B.Used x).map fun x => (x.id, x.amount)) := by
  have hbills : (B.bills.filterMap payment).Nodup := by
    refine List.pairwise_filterMap.mpr ((B.billIds.of_map _).imp_of_mem ?_)
    rintro b b' hb hb' hne ⟨t, a⟩ hy y' hy' rfl
    exact hne (B.once b hb b' hb' t (payment_eq.mp hy).1 (payment_eq.mp hy').1)
  have htransfers : ((B.transfers.filter fun x => B.Used x).map fun x => (x.id, x.amount)).Nodup := by
    refine List.Nodup.of_map Prod.fst ?_
    rw [List.map_map]
    exact B.transferIds.sublist (List.filter_sublist.map _)
  rw [List.perm_ext_iff_of_nodup hbills htransfers]
  rintro ⟨t, a⟩
  rw [List.mem_filterMap, List.mem_map]
  constructor
  · rintro ⟨b, hb, hp⟩
    obtain ⟨hs, rfl⟩ := payment_eq.mp hp
    obtain ⟨x, hx, rfl, ha⟩ := B.covered b hb t hs
    exact ⟨x, List.mem_filter.mpr ⟨hx, decide_eq_true ⟨b, hb, hs⟩⟩, by rw [ha]⟩
  · rintro ⟨x, hx, heq⟩
    cases heq
    obtain ⟨hx, hused⟩ := List.mem_filter.mp hx
    obtain ⟨b, hb, hs⟩ := of_decide_eq_true hused
    obtain ⟨x', hx', hid, ha⟩ := B.covered b hb _ hs
    rw [List.inj_on_of_nodup_map B.transferIds hx' hx hid] at ha
    exact ⟨b, hb, payment_eq.mpr ⟨hs, ha.symm⟩⟩

/-- **The books balance**: the bills that transfers paid add up to the transfers that paid them. -/
theorem balance [AddCommMonoid α] (B : Book β τ α) [DecidablePred B.Used] :
    ((B.bills.filterMap payment).map Prod.snd).sum =
      ((B.transfers.filter fun x => B.Used x).map (·.amount)).sum := by
  rw [(B.payments_perm.map Prod.snd).sum_eq, List.map_map]
  rfl

end Book

end Ledger
