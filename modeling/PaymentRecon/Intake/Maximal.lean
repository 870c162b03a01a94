import PaymentRecon.Intake.Rendering

/-!
# Maximal — the numbers of a notification are whole

The pattern has no word boundaries.  An amount that started within a longer numeral would not be the
leftmost match; and what follows a numeral, white space or the next phrase, has no digits and no commas.
-/

namespace PaymentRecon

open Regex Splits

namespace Intake

variable {content traceId : String} {s : SmsData} {before rest xs ys : List Char} {m : Parts}

theorem spaces_not_numeral (h : IsSpaces xs) : ∀ c ∈ xs, isNumeral c = false :=
  fun c hc => Notice.not_numeral_of_space (h c hc)

theorem phrase_not_numeral : ∀ c ∈ phrase, isNumeral c = false :=
  forall_of_all (P := fun c => isNumeral c = false) (by decide +kernel)

theorem label_not_numeral : ∀ c ∈ label, isNumeral c = false :=
  forall_of_all (P := fun c => isNumeral c = false) (by decide +kernel)

theorem currency_not_numeral : ∀ c ∈ currency, isNumeral c = false :=
  forall_of_all (P := fun c => isNumeral c = false) (by decide +kernel)

/-- A numeral ends where white space and a phrase without digits follow. -/
theorem ends_numeral (hxs : IsSpaces xs) (hne : ys ≠ []) (hys : ∀ c ∈ ys, isNumeral c = false)
    {zs : List Char} : Ends isNumeral (xs ++ (ys ++ zs)) :=
  ends_append (spaces_not_numeral hxs) (ends_of_ne_nil hne hys)

/-- A longer amount would have matched before. -/
theorem Found.left (h : Found content before m rest) :
    ∀ c ∈ before.getLast?, isNumeral c = false := by
  intro c hc
  by_contra hnum
  have hnum : isNumeral c = true := by simpa using hnum
  obtain ⟨before', rfl⟩ := List.getLast?_eq_some_iff.mp hc
  let longer : Parts := { m with amount := c :: m.amount }
  have hamount : IsNumeral (c :: m.amount) :=
    ⟨by simp, List.forall_mem_cons.mpr ⟨hnum, h.ok.amount.2⟩⟩
  have hlonger : longer.Ok := { h.ok with amount := hamount }
  refine h.first before' (longer.text ++ rest) ?_ (by simp) ?_
  · rw [h.text, List.append_assoc]
    rfl
  · exact ⟨rest, longer.captures, matches_sms.mpr ⟨longer, hlonger, rfl, rfl⟩⟩

/-- **The matcher never truncates a number.**  The amount is a maximal run of digits and commas before
the phrase of a deposit, in the leftmost match; the inventory is one after a later label. -/
theorem never_truncates (h : parseSmsTransaction content traceId = .ok (some s)) :
    ∃ before amount gap middle gap' inventory after,
      clean content = before ++ (amount ++ (gap ++ (phrase ++ (middle ++ (label ++ (gap' ++
        (inventory ++ after))))))) ∧
      MaximalRun isNumeral before amount (gap ++ (phrase ++ (middle ++ (label ++ (gap' ++
        (inventory ++ after)))))) ∧
      IsSpaces gap ∧ s.smsAmount = some (numberOf amount : ℤ) ∧
      (∀ before' here, clean content = before' ++ here → before'.length < before.length →
        ¬ smsPattern.MatchesAt here) ∧
      MaximalRun isNumeral (before ++ (amount ++ (gap ++ (phrase ++ (middle ++ (label ++ gap'))))))
        inventory after ∧
      IsSpaces gap' ∧ s.smsInventory = some (numberOf inventory : ℤ) := by
  obtain ⟨before, m, rest, hf, -, -, rfl⟩ := parse_ok_iff.mp h
  let tail := m.beforeTime ++ (m.time ++ (m.beforeDate ++ (m.date ++ rest)))
  refine ⟨before, m.amount, m.afterAmount, m.afterPhrase, m.afterLabel, m.inventory,
    m.afterInventory ++ (currency ++ tail), ?_, ⟨hf.ok.amount.1, hf.ok.amount.2, hf.left, ?_⟩,
    hf.ok.afterAmount, rfl, hf.first, ⟨hf.ok.inventory.1, hf.ok.inventory.2, ?_, ?_⟩,
    hf.ok.afterLabel, rfl⟩
  · rw [hf.text]
    simp only [Parts.text, Parts.tail, tail, List.append_assoc]
  · exact ends_numeral hf.ok.afterAmount (by decide) phrase_not_numeral
  · -- the label and white space stand before the inventory
    have hleft : ∀ c ∈ ((before ++ (m.amount ++ (m.afterAmount ++ (phrase ++ m.afterPhrase)))) ++
        (label ++ m.afterLabel)).getLast?, isNumeral c = false := by
      refine left_append (by simp [label]) fun c hc => ?_
      rcases List.mem_append.mp hc with hc | hc
      · exact label_not_numeral c hc
      · exact spaces_not_numeral hf.ok.afterLabel c hc
    simpa only [List.append_assoc] using hleft
  · exact ends_numeral hf.ok.afterInventory (by decide) currency_not_numeral

theorem never_truncates_sample :
    parseSmsTransaction (deposit "1,760,021" "9") "tx_1" =
        .ok (some (depositData "1,760,021" "9" 1760021 9)) ∧
      ∃ before amount after, clean (deposit "1,760,021" "9") = before ++ (amount ++ after) ∧
        MaximalRun isNumeral before amount after ∧ numberOf amount = 1760021 := by
  have hparse : parseSmsTransaction (deposit "1,760,021" "9") "tx_1" =
      .ok (some (depositData "1,760,021" "9" 1760021 9)) := by decide +kernel
  obtain ⟨before, amount, gap, middle, gap', inventory, after, htext, hrun, -, hvalue, -⟩ :=
    never_truncates hparse
  refine ⟨hparse, before, amount, _, htext, hrun, ?_⟩
  have hvalue : (1760021 : ℤ) = numberOf amount := Option.some.inj hvalue
  omega

end Intake

end PaymentRecon
