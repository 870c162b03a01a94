import PaymentRecon.Intake.Validators
import PaymentRecon.Lib.Positional

/-!
# Notification — what `parse_sms_transaction` makes of a text

`Parts` are the pieces of a full match of the pattern.  `parse_ok_iff` says when a text is accepted, and
with which values: when the numerals of the leftmost match have digits, and not too many of them.
-/

namespace PaymentRecon

open Interleave Regex

namespace Intake

variable {content content' traceId traceId' : String} {s : SmsData} {xs : List Char}
  {data : Captures}

/-- A property of the characters of a list, by computation. -/
theorem forall_of_all {P : Char → Prop} [DecidablePred P]
    (h : (xs.all fun c => decide (P c)) = true) : ∀ c ∈ xs, P c := by
  simpa using h

/-! ## Numerals -/

/-- The values of the digits of a text. -/
def digitsOf (xs : List Char) : List ℕ := xs.filterMap digitValue

theorem digitValue_lt {c : Char} {d : ℕ} (h : digitValue c = some d) : d < 10 := by
  obtain ⟨z, hz, rfl⟩ := Option.map_eq_some_iff.mp h
  have hrange : z ≤ c.toNat ∧ c.toNat < z + 10 := by simpa using List.find?_some hz
  omega

theorem digitsOf_lt {d : ℕ} (h : d ∈ digitsOf xs) : d < 10 := by
  obtain ⟨c, -, hc⟩ := List.mem_filterMap.mp h
  exact digitValue_lt hc

theorem digitValue_comma : digitValue ',' = none := by decide

theorem mapM_numeral (h : ∀ c ∈ xs, isNumeral c = true) :
    (xs.filter (· ≠ ',')).mapM digitValue = some (digitsOf xs) := by
  induction xs with
  | nil => rfl
  | cons c xs ih =>
    rw [List.forall_mem_cons] at h
    by_cases hc : c = ','
    · subst hc
      have hskip : digitsOf (',' :: xs) = digitsOf xs := by
        rw [digitsOf, List.filterMap_cons_none digitValue_comma]
        rfl
      rw [hskip, List.filter_cons_of_neg (by simp)]
      exact ih h.2
    · obtain ⟨d, hd⟩ : ∃ d, digitValue c = some d := by
        simpa [isNumeral, isDigit, hc, Option.isSome_iff_exists] using h.1
      have hkeep : digitsOf (c :: xs) = d :: digitsOf xs := by
        rw [digitsOf, List.filterMap_cons_some hd]
        rfl
      rw [hkeep, List.filter_cons_of_pos (by simpa using hc), List.mapM_cons, hd, ih h.2]
      rfl

/-- The numeral can be converted: it has a digit, and not too many. -/
def Convertible (xs : List Char) : Prop :=
  digitsOf xs ≠ [] ∧ (digitsOf xs).length ≤ intMaxStrDigits

instance (xs : List Char) : Decidable (Convertible xs) := inferInstanceAs (Decidable (_ ∧ _))

/-- The number that the digits of the text denote. -/
def numberOf (xs : List Char) : ℕ := Positional.value 10 (digitsOf xs)

/-- What becomes of a captured numeral. -/
theorem pyInt_numeral (h : ∀ c ∈ xs, isNumeral c = true) : pyInt (xs.filter (· ≠ ',')) =
    if Convertible xs then .ok (numberOf xs) else .error ValueError := by
  unfold pyInt
  rw [mapM_numeral h]
  have hneg : (digitsOf xs = [] ∨ intMaxStrDigits < (digitsOf xs).length) ↔ ¬ Convertible xs := by
    rw [Convertible, not_and_or, not_not, not_le]
  by_cases hc : Convertible xs
  · rw [if_pos hc]
    simp only [hneg, hc, not_true_eq_false, if_false]
    rfl
  · rw [if_neg hc]
    simp only [hneg, hc, not_false_eq_true, if_true]

/-! ## Full matches -/

/-- The text after the amount. -/
def phrase : List Char := "ریال به حساب شما نشست.".toList

/-- The text before the inventory. -/
def label : List Char := "موجودی:".toList

/-- The text after the inventory. -/
def currency : List Char := "ریال".toList

/-- The pieces of a full match, in order. -/
structure Parts where
  amount : List Char
  afterAmount : List Char
  afterPhrase : List Char
  afterLabel : List Char
  inventory : List Char
  afterInventory : List Char
  beforeTime : List Char
  time : List Char
  beforeDate : List Char
  date : List Char

/-- One digit or comma, or more. -/
def IsNumeral (xs : List Char) : Prop := xs ≠ [] ∧ ∀ c ∈ xs, isNumeral c = true

def IsSpaces (xs : List Char) : Prop := ∀ c ∈ xs, isSpace c = true

instance (xs : List Char) : Decidable (IsSpaces xs) := inferInstanceAs (Decidable (∀ c ∈ xs, _))

/-- `n` digits. -/
def IsDigits (n : ℕ) (xs : List Char) : Prop := xs.length = n ∧ ∀ c ∈ xs, isDigit c = true

def IsTime (xs : List Char) : Prop :=
  ∃ hh mm, IsDigits 2 hh ∧ IsDigits 2 mm ∧ xs = hh ++ ':' :: mm

def IsDate (xs : List Char) : Prop :=
  ∃ yy mm dd, IsDigits 4 yy ∧ IsDigits 2 mm ∧ IsDigits 2 dd ∧ xs = yy ++ '.' :: (mm ++ '.' :: dd)

namespace Parts

variable (m : Parts)

/-- From the inventory on. -/
def tail : List Char :=
  m.inventory ++ (m.afterInventory ++ (currency ++ (m.beforeTime ++ (m.time ++ (m.beforeDate ++ m.date)))))

/-- The matched text. -/
def text : List Char :=
  m.amount ++ (m.afterAmount ++ (phrase ++ (m.afterPhrase ++ (label ++ (m.afterLabel ++ m.tail)))))

/-- The groups of the match. -/
def captures : Captures :=
  [("date", m.date), ("time", m.time), ("inventory", m.inventory), ("amount", m.amount)]

/-- The pieces are what the pattern asks for. -/
structure Ok : Prop where
  amount : IsNumeral m.amount
  afterAmount : IsSpaces m.afterAmount
  afterLabel : IsSpaces m.afterLabel
  inventory : IsNumeral m.inventory
  afterInventory : IsSpaces m.afterInventory
  time : IsTime m.time
  date : IsDate m.date

end Parts

theorem matches_digits {n : ℕ} {text rest : List Char} {caps caps' : Captures} :
    Matches (times isDigit n) text caps rest caps' ↔
      ∃ xs, IsDigits (n + 1) xs ∧ text = xs ++ rest ∧ caps' = caps := by
  rw [matches_times]
  constructor
  · rintro ⟨xs, hlen, hxs, htext, hcaps⟩
    exact ⟨xs, ⟨hlen, hxs⟩, htext, hcaps⟩
  · rintro ⟨xs, ⟨hlen, hxs⟩, htext, hcaps⟩
    exact ⟨xs, hlen, hxs, htext, hcaps⟩

theorem matches_time {text rest : List Char} {caps caps' : Captures} :
    Matches timePattern text caps rest caps' ↔ ∃ xs, IsTime xs ∧ text = xs ++ rest ∧ caps' = caps := by
  simp only [timePattern, matches_seq, matches_literal, matches_digits]
  constructor
  · rintro ⟨_, _, ⟨hh, hhh, rfl, rfl⟩, _, rfl, mm, hmm, rfl, rfl⟩
    exact ⟨hh ++ ':' :: mm, ⟨hh, mm, hhh, hmm, rfl⟩, by simp, rfl⟩
  · rintro ⟨_, ⟨hh, mm, hhh, hmm, rfl⟩, rfl, rfl⟩
    exact ⟨':' :: (mm ++ rest), _, ⟨hh, hhh, by simp, rfl⟩, mm ++ rest, rfl, mm, hmm, rfl, rfl⟩

theorem matches_date {text rest : List Char} {caps caps' : Captures} :
    Matches datePattern text caps rest caps' ↔ ∃ xs, IsDate xs ∧ text = xs ++ rest ∧ caps' = caps := by
  simp only [datePattern, matches_seq, matches_literal, matches_digits]
  constructor
  · rintro ⟨_, _, ⟨yy, hyy, rfl, rfl⟩, _, rfl, _, _, ⟨mm, hmm, rfl, rfl⟩, _, rfl, dd, hdd, rfl, rfl⟩
    exact ⟨yy ++ '.' :: (mm ++ '.' :: dd), ⟨yy, mm, dd, hyy, hmm, hdd, rfl⟩, by simp, rfl⟩
  · rintro ⟨_, ⟨yy, mm, dd, hyy, hmm, hdd, rfl⟩, rfl, rfl⟩
    refine ⟨'.' :: (mm ++ '.' :: (dd ++ rest)), _, ⟨yy, hyy, by simp, rfl⟩, _, rfl, ?_⟩
    exact ⟨'.' :: (dd ++ rest), _, ⟨mm, hmm, rfl, rfl⟩, _, rfl, dd, hdd, rfl, rfl⟩

/-- A group around what its pattern matches. -/
theorem matches_captured {x : Pattern} {P : List Char → Prop} {name : String}
    (hx : ∀ {text rest caps caps'}, Matches x text caps rest caps' ↔
      ∃ xs, P xs ∧ text = xs ++ rest ∧ caps' = caps) {text rest : List Char} {caps caps' : Captures} :
    Matches (.group name x) text caps rest caps' ↔
      ∃ xs, P xs ∧ text = xs ++ rest ∧ caps' = (name, xs) :: caps := by
  rw [matches_group]
  constructor
  · rintro ⟨xs, caps₁, htext, hm, rfl⟩
    obtain ⟨ys, hys, hys', rfl⟩ := hx.mp hm
    obtain rfl := List.append_cancel_right (htext.symm.trans hys')
    exact ⟨xs, hys, htext, rfl⟩
  · rintro ⟨xs, hxs, htext, rfl⟩
    exact ⟨xs, caps, htext, hx.mpr ⟨xs, hxs, htext, rfl⟩, rfl⟩

theorem matches_numeral {text rest : List Char} {caps caps' : Captures} :
    Matches (plus isNumeral) text caps rest caps' ↔
      ∃ xs, IsNumeral xs ∧ text = xs ++ rest ∧ caps' = caps := by
  rw [matches_plus]
  exact exists_congr fun xs => and_assoc.symm

theorem matches_spaces {text rest : List Char} {caps caps' : Captures} :
    Matches spaces text caps rest caps' ↔ ∃ xs, IsSpaces xs ∧ text = xs ++ rest ∧ caps' = caps :=
  matches_many

theorem matches_anything {text rest : List Char} {caps caps' : Captures} :
    Matches anything text caps rest caps' ↔ ∃ xs, text = xs ++ rest ∧ caps' = caps := by
  rw [anything, matches_many]
  exact exists_congr fun xs => and_iff_right fun _ _ => rfl

/-- **What the pattern of a notification matches.** -/
theorem matches_sms {here rest : List Char} : Matches smsPattern here [] rest data ↔
    ∃ m : Parts, m.Ok ∧ here = m.text ++ rest ∧ data = m.captures := by
  simp only [smsPattern, afterAmount, matches_seq, matches_literal, matches_captured matches_numeral,
    matches_captured matches_time, matches_captured matches_date, matches_spaces, matches_anything]
  constructor
  · rintro ⟨_, _, ⟨amount, hamount, rfl, rfl⟩, _, _, ⟨s₁, hs₁, rfl, rfl⟩, _, rfl, _, _,
      ⟨g₁, rfl, rfl⟩, _, rfl, _, _, ⟨s₂, hs₂, rfl, rfl⟩, _, _, ⟨inventory, hinv, rfl, rfl⟩, _, _,
      ⟨s₃, hs₃, rfl, rfl⟩, _, rfl, _, _, ⟨g₂, rfl, rfl⟩, _, _, ⟨time, htime, rfl, rfl⟩, _, _,
      ⟨g₃, rfl, rfl⟩, date, hdate, rfl, rfl⟩
    refine ⟨⟨amount, s₁, g₁, s₂, inventory, s₃, g₂, time, g₃, date⟩,
      ⟨hamount, hs₁, hs₂, hinv, hs₃, htime, hdate⟩, ?_, rfl⟩
    simp only [Parts.text, Parts.tail, List.append_assoc]
    rfl
  · rintro ⟨m, hm, rfl, rfl⟩
    simp only [Parts.text, Parts.tail, List.append_assoc]
    exact ⟨_, _, ⟨m.amount, hm.amount, rfl, rfl⟩, _, _, ⟨m.afterAmount, hm.afterAmount, rfl, rfl⟩, _,
      rfl, _, _, ⟨m.afterPhrase, rfl, rfl⟩, _, rfl, _, _, ⟨m.afterLabel, hm.afterLabel, rfl, rfl⟩, _, _,
      ⟨m.inventory, hm.inventory, rfl, rfl⟩, _, _, ⟨m.afterInventory, hm.afterInventory, rfl, rfl⟩, _,
      rfl, _, _, ⟨m.beforeTime, rfl, rfl⟩, _, _, ⟨m.time, hm.time, rfl, rfl⟩, _, _,
      ⟨m.beforeDate, rfl, rfl⟩, m.date, hm.date, rfl, rfl⟩

/-! ## The record -/

/-- The text that is searched. -/
def clean (content : String) : List Char := content.toList.map persianToEng

/-- What the parser returns for a match. -/
def record (content traceId : String) (m : Parts) : SmsData :=
  ⟨some traceId, some (numberOf m.amount), some (numberOf m.inventory), some (String.ofList m.date),
    some (String.ofList m.time), some content⟩

/-- The leftmost match of the pattern in the text of `content`. -/
structure Found (content : String) (before : List Char) (m : Parts) (rest : List Char) : Prop where
  ok : m.Ok
  search : smsPattern.search (clean content) = some m.captures
  text : clean content = before ++ (m.text ++ rest)
  first : ∀ before' here', clean content = before' ++ here' → before'.length < before.length →
    ¬ smsPattern.MatchesAt here'

theorem found_of_search (h : smsPattern.search (clean content) = some data) :
    ∃ before m rest, Found content before m rest ∧ data = m.captures := by
  obtain ⟨before, here, rest, htext, hm, hfirst⟩ := search_first h
  obtain ⟨m, hok, rfl, rfl⟩ := matches_sms.mp hm
  exact ⟨before, m, rest, ⟨hok, h, htext, hfirst⟩, rfl⟩

theorem parse_found {before rest : List Char} {m : Parts} (h : Found content before m rest) :
    parseSmsTransaction content traceId =
      if Convertible m.amount ∧ Convertible m.inventory then .ok (some (record content traceId m))
      else .error ValueError := by
  have hparse : parseSmsTransaction content traceId = (do
      let amount ← pyInt (m.amount.filter (· ≠ ','))
      let inventory ← pyInt (m.inventory.filter (· ≠ ','))
      pure (some ⟨some traceId, some amount, some inventory, some (String.ofList m.date),
        some (String.ofList m.time), some content⟩)) := by
    simp only [parseSmsTransaction]
    rw [show content.toList.map persianToEng = clean content from rfl, h.search]
    rfl
  rw [hparse, pyInt_numeral h.ok.amount.2, pyInt_numeral h.ok.inventory.2]
  by_cases ha : Convertible m.amount
  · by_cases hi : Convertible m.inventory
    · rw [if_pos ha, if_pos hi, if_pos ⟨ha, hi⟩]
      rfl
    · rw [if_pos ha, if_neg hi, if_neg fun h => hi h.2]
      rfl
  · rw [if_neg ha, if_neg fun h : Convertible m.amount ∧ Convertible m.inventory => ha h.1]
    rfl

theorem parse_none (h : smsPattern.search (clean content) = none) :
    parseSmsTransaction content traceId = .ok none := by
  simp only [parseSmsTransaction]
  rw [show content.toList.map persianToEng = clean content from rfl, h]

/-- **What is accepted.** -/
theorem parse_ok_iff : parseSmsTransaction content traceId = .ok (some s) ↔
    ∃ before m rest, Found content before m rest ∧ Convertible m.amount ∧ Convertible m.inventory ∧
      s = record content traceId m := by
  constructor
  · intro h
    cases hs : smsPattern.search (clean content) with
    | none => exact absurd ((parse_none hs).symm.trans h) (by simp)
    | some data =>
      obtain ⟨before, m, rest, hf, -⟩ := found_of_search hs
      rw [parse_found hf] at h
      split_ifs at h with hc
      exact ⟨before, m, rest, hf, hc.1, hc.2, (Option.some.inj (Except.ok.inj h)).symm⟩
  · rintro ⟨before, m, rest, hf, ha, hi, rfl⟩
    rw [parse_found hf, if_pos ⟨ha, hi⟩]

/-! ## The columns -/

/-- The numeral, without leading zeros, is at most 2147483647: it is shorter, or as long and not
later in the order of the digits. -/
def FitsColumn (xs : List Char) : Prop :=
  (Positional.significant (digitsOf xs)).length < 10 ∨
    (Positional.significant (digitsOf xs)).length = 10 ∧
      Positional.NotLater (Positional.significant (digitsOf xs)) [2, 1, 4, 7, 4, 8, 3, 6, 4, 7]

instance (xs : List Char) : Decidable (FitsColumn xs) := inferInstanceAs (Decidable (_ ∨ _ ∧ _))

theorem inInt4_numberOf : inInt4 (numberOf xs) ↔ FitsColumn xs := by
  have hle : Positional.value 10 (digitsOf xs) ≤ Positional.value 10 [2, 1, 4, 7, 4, 8, 3, 6, 4, 7] ↔
      FitsColumn xs :=
    Positional.value_le_iff (by decide) (fun d hd => digitsOf_lt hd) (by decide) (by decide)
  have hval : Positional.value 10 [2, 1, 4, 7, 4, 8, 3, 6, 4, 7] = 2147483647 := by decide
  rw [hval] at hle
  refine Iff.trans ?_ hle
  unfold inInt4 numberOf
  omega

end Intake

end PaymentRecon
