import PaymentRecon.Intake.Notification
import PaymentRecon.Requests.Confirm

/-!
# Parsed — where the parser and what follows it disagree

The parser takes every number, the columns do not; it takes every digit, and translates the Persian ones
only; and its pattern takes a numeral without digits, which `int()` does not.  Each theorem says for which
texts it goes well.
-/

namespace PaymentRecon

open Interleave Regex Requests

namespace Intake

variable {content content' traceId traceId' : String} {s : SmsData} {xs : List Char}
  {before rest : List Char} {m : Parts} {data : Captures}

/-! ## The range of the columns -/

theorem length_time (h : IsTime xs) : xs.length = 5 := by
  obtain ⟨hh, mm, hhh, hmm, rfl⟩ := h
  simp [hhh.1, hmm.1]

theorem length_date (h : IsDate xs) : xs.length = 10 := by
  obtain ⟨yy, mm, dd, hyy, hmm, hdd, rfl⟩ := h
  simp [hyy.1, hmm.1, hdd.1]

/-- A value is refused as out of range exactly when an amount does not fit its column. -/
theorem createTransaction_dataError (hm : m.Ok) :
    (∃ p w cs w', Executes p (createTransactionService (record content traceId m)) w cs
      (.error DataError) w') ↔ ¬ (FitsColumn m.amount ∧ FitsColumn m.inventory) := by
  rw [← inInt4_numberOf, ← inInt4_numberOf]
  have hdate : (String.ofList m.date).length ≤ 10 := by
    rw [String.length_ofList, length_date hm.date]
  have htime : (String.ofList m.time).length ≤ 5 := by
    rw [String.length_ofList, length_time hm.time]
  constructor
  · rintro ⟨p, w, cs, w', h⟩ ⟨ha, hi⟩
    have hx : ∃ cs w₁, Executes p (await (.insertSms (numberOf m.amount) (numberOf m.inventory)
        (String.ofList m.date) (String.ofList m.time) content)) w cs (.error DataError) w₁ := by
      rcases runs_tryCatch.mp h with ⟨_, -, hr⟩ | ⟨e, w₁, cs₁, cs₂, hins, hcatch, -⟩
      · cases hr
      · split_ifs at hcatch
        · obtain ⟨-, hr, -⟩ := runs_raise.mp hcatch
          exact absurd hr (by simp [DataError])
        · obtain ⟨-, hr, -⟩ := runs_raise.mp hcatch
          obtain rfl := Except.error.inj hr
          exact ⟨cs₁, w₁, hins⟩
    obtain ⟨cs, w₁, hins⟩ := hx
    obtain ⟨f, hexec, -⟩ := runs_perform.mp hins
    have hfails : ∀ e, (Op.insertSms (numberOf m.amount) (numberOf m.inventory)
        (String.ofList m.date) (String.ofList m.time) content).Fails e → e ≠ DataError := by
      rintro e (rfl | rfl) <;> decide
    rcases exec_cases hexec with hrun | ⟨-, e, he, hr⟩ | ⟨-, -, -, e, he, hr⟩
    · simp only [Op.run] at hrun
      rw [if_pos ⟨ha, hi, hdate, htime⟩] at hrun
      rcases hrun.2 with ⟨-, hr, -⟩ | ⟨-, hr, -⟩
      · exact absurd hr (by simp [DataError, IntegrityError])
      · exact absurd hr (by simp)
    · exact hfails e he (Except.error.inj hr).symm
    · exact hfails e he (Except.error.inj hr).symm
  · intro hneg
    let op : Op := .insertSms (numberOf m.amount) (numberOf m.inventory) (String.ofList m.date)
      (String.ofList m.time) content
    have hexec : exec .done 0 op World.empty (.error DataError) World.empty := by
      simp only [op, exec, Op.run]
      rw [if_neg fun h => hneg ⟨h.1, h.2.1⟩]
      trivial
    refine ⟨0, World.empty, [⟨.done, op, .error DataError⟩], World.empty, ?_⟩
    refine Runs.call hexec ?_
    exact .raise

/-- **The values of an accepted SMS fit their columns exactly when its numerals do.**  Then, and only
then, no insertion of the SMS is refused because of a range. -/
theorem sms_fits_columns (h : parseSmsTransaction content traceId = .ok (some s)) :
    ((∃ amount inventory, s.smsAmount = some amount ∧ s.smsInventory = some inventory ∧
        inInt4 amount ∧ inInt4 inventory) ∧
      ∀ p w cs r w', Executes p (createTransactionService s) w cs r w' → r ≠ .error DataError) ↔
    ∀ data, smsPattern.search (clean content) = some data →
      FitsColumn (groupOf data "amount") ∧ FitsColumn (groupOf data "inventory") := by
  obtain ⟨before, m, rest, hf, -, -, rfl⟩ := parse_ok_iff.mp h
  have hcond : (∀ data, smsPattern.search (clean content) = some data →
      FitsColumn (groupOf data "amount") ∧ FitsColumn (groupOf data "inventory")) ↔
        FitsColumn m.amount ∧ FitsColumn m.inventory := by
    rw [hf.search]
    simp only [Option.some.injEq, forall_eq']
    rfl
  rw [hcond]
  constructor
  · intro hgood
    by_contra hneg
    obtain ⟨p, w, cs, w', hx⟩ : ∃ p w cs w', Executes p (createTransactionService
        (record content traceId m)) w cs (.error DataError) w' :=
      (createTransaction_dataError hf.ok).mpr hneg
    exact hgood.2 p w cs _ w' hx rfl
  · intro hfits
    refine ⟨⟨_, _, rfl, rfl, inInt4_numberOf.mpr hfits.1, inInt4_numberOf.mpr hfits.2⟩, ?_⟩
    rintro p w cs r w' hx rfl
    exact (createTransaction_dataError hf.ok).mp ⟨p, w, cs, w', hx⟩ hfits

/-- A notification of the bank, with these numerals. -/
def deposit (amount inventory : String) : String :=
  amount ++ "ریال به حساب شما نشست.\nموجودی: " ++ inventory ++ " ریال\n۱۱:۴۸\n۱۴۰۵.۰۳.۱۲"

/-- What the parser makes of it. -/
def depositData (amount inventory : String) (a i : ℤ) : SmsData :=
  ⟨some "tx_1", some a, some i, some "1405.03.12", some "11:48", some (deposit amount inventory)⟩

theorem sms_fits_columns_sample :
    parseSmsTransaction (deposit "1760021" "۱۲۴۱۲۴۲۲۱۰") "tx_1" =
        .ok (some (depositData "1760021" "۱۲۴۱۲۴۲۲۱۰" 1760021 1241242210)) ∧
      ∀ p w cs r w', Executes p (createTransactionService
        (depositData "1760021" "۱۲۴۱۲۴۲۲۱۰" 1760021 1241242210)) w cs r w' → r ≠ .error DataError := by
  have hparse : parseSmsTransaction (deposit "1760021" "۱۲۴۱۲۴۲۲۱۰") "tx_1" =
      .ok (some (depositData "1760021" "۱۲۴۱۲۴۲۲۱۰" 1760021 1241242210)) := by decide +kernel
  have hfits : ∀ data, smsPattern.search (clean (deposit "1760021" "۱۲۴۱۲۴۲۲۱۰")) = some data →
      FitsColumn (groupOf data "amount") ∧ FitsColumn (groupOf data "inventory") := by
    have hall : ∀ data ∈ smsPattern.search (clean (deposit "1760021" "۱۲۴۱۲۴۲۲۱۰")),
        FitsColumn (groupOf data "amount") ∧ FitsColumn (groupOf data "inventory") := by
      decide +kernel
    exact fun data h => hall data h
  exact ⟨hparse, ((sms_fits_columns hparse).mpr hfits).2⟩

/-- A balance of three billion is accepted, and refused by the table. -/
theorem large_balance_refused : ∃ (p : Pid) (w : World) (cs : Requests.Calls) (w' : World),
    parseSmsTransaction (deposit "1760021" "۳۰۰۰۰۰۰۰۰۰") "tx_1" =
        .ok (some (depositData "1760021" "۳۰۰۰۰۰۰۰۰۰" 1760021 3000000000)) ∧
      ¬ inInt4 3000000000 ∧
      Executes p (createTransactionService (depositData "1760021" "۳۰۰۰۰۰۰۰۰۰" 1760021 3000000000)) w cs
        (.error DataError) w' := by
  refine ⟨0, World.empty, [⟨.done, .insertSms 1760021 3000000000 "1405.03.12" "11:48"
    (deposit "1760021" "۳۰۰۰۰۰۰۰۰۰"), .error DataError⟩], World.empty, by decide +kernel, by decide, ?_⟩
  refine Runs.call ⟨rfl, rfl⟩ ?_
  exact .raise

/-! ## Malformed texts -/

/-- The numerals are as long as the text at most. -/
theorem Found.length_digits (h : Found content before m rest) :
    (digitsOf m.amount).length ≤ content.length ∧ (digitsOf m.inventory).length ≤ content.length := by
  have hlen : content.length = (clean content).length := by rw [clean, List.length_map, String.length_toList]
  have hdigits : ∀ xs : List Char, (digitsOf xs).length ≤ xs.length := fun xs =>
    List.length_filterMap_le _ _
  have ha := hdigits m.amount
  have hi := hdigits m.inventory
  rw [hlen, h.text]
  simp only [Parts.text, Parts.tail, List.length_append]
  omega

/-- A request that raises ends with what it raised. -/
theorem runs_withDb_throw {p : Pid} {w w' : World} {cs : Requests.Calls} {e : Exc}
    {r : Except Exc Response} (h : Executes p (withDb (throw e)) w cs r w') : r = .error e := by
  rcases runs_tryCatch.mp h with ⟨_, hbody, -⟩ | ⟨e', w₁, cs₁, cs₂, hbody, hcatch, -⟩
  · cases hbody
  · obtain ⟨-, he, -⟩ := runs_raise.mp hbody
    obtain rfl := Except.error.inj he
    rcases runs_bind.mp hcatch with ⟨_, w₂, cs₃, cs₄, -, hraise, -⟩ | ⟨x, hroll, -⟩
    · exact (runs_raise.mp hraise).2.1
    · obtain ⟨f, hx, -⟩ := runs_perform.mp hroll
      cases (exec_rollback hx).2.1

/-- **A text is rejected properly exactly when its numerals have digits**: unless the pattern matches
it with a numeral of commas alone, a text of at most 4300 characters is parsed without exception, and
answered with 400 when nothing comes of it. -/
theorem malformed_rejected (hlen : content.length ≤ intMaxStrDigits) :
    ((∃ r, parseSmsTransaction content traceId = .ok r) ∧
      (content ≠ "" → (∀ s, parseSmsTransaction content traceId ≠ .ok (some s)) →
        ∀ p w cs r w', Executes p (receiveContent true content traceId) w cs r w' →
          ∃ detail, r = .error (httpException 400 detail))) ↔
    ∀ data, smsPattern.search (clean content) = some data →
      digitsOf (groupOf data "amount") ≠ [] ∧ digitsOf (groupOf data "inventory") ≠ [] := by
  cases hs : smsPattern.search (clean content) with
  | none =>
    refine iff_of_true ⟨⟨none, parse_none hs⟩, fun hne _ p w cs r w' h => ?_⟩ fun _ h => by simp at h
    refine ⟨"The sms format isn't valid", ?_⟩
    simp only [receiveContent, hne, parse_none hs] at h
    exact runs_withDb_throw h
  | some data =>
    obtain ⟨before, m, rest, hf, rfl⟩ := found_of_search hs
    have hcond : Convertible m.amount ∧ Convertible m.inventory ↔
        digitsOf m.amount ≠ [] ∧ digitsOf m.inventory ≠ [] := by
      have hle := hf.length_digits
      exact and_congr (and_iff_left (hle.1.trans hlen)) (and_iff_left (hle.2.trans hlen))
    simp only [Option.some.injEq, forall_eq']
    rw [show groupOf m.captures "amount" = m.amount from rfl,
      show groupOf m.captures "inventory" = m.inventory from rfl, ← hcond]
    constructor
    · rintro ⟨⟨r, hr⟩, -⟩
      rw [parse_found hf] at hr
      split_ifs at hr with hc
      exact hc
    · intro hc
      have hparse : parseSmsTransaction content traceId = .ok (some (record content traceId m)) := by
        rw [parse_found hf, if_pos hc]
      exact ⟨⟨_, hparse⟩, fun _ hnone => absurd hparse (hnone _)⟩

/-- A greeting is answered with 400. -/
theorem malformed_rejected_sample : smsPattern.search (clean "سلام") = none ∧ ∀ p w cs r w',
    Executes p (receiveContent true "سلام" "tx_1") w cs r w' →
      ∃ detail, r = .error (httpException 400 detail) := by
  have hnone : smsPattern.search (clean "سلام") = none := by decide +kernel
  have hiff := @malformed_rejected "سلام" "tx_1" (by decide)
  refine ⟨hnone, (hiff.mpr fun data h => ?_).2 (by decide) fun s h => ?_⟩
  · rw [hnone] at h
    cases h
  · rw [parse_none hnone] at h
    cases h

/-- A comma for an amount raises, and the request ends with the exception. -/
theorem comma_raises : ∃ (content : String) (cs : Requests.Calls) (w' : World),
    content.length ≤ 4300 ∧ content ≠ "" ∧
      parseSmsTransaction content "tx_1" = .error ValueError ∧
      Executes 0 (receiveContent true content "tx_1") World.empty cs (.error ValueError) w' := by
  have hparse : parseSmsTransaction (deposit "," "۱") "tx_1" = .error ValueError := by decide +kernel
  refine ⟨deposit "," "۱", [⟨.done, .rollback, .ok ()⟩], World.empty.rollback 0, by decide, by decide,
    hparse, ?_⟩
  have hne : deposit "," "۱" ≠ "" := by decide
  simp only [receiveContent, hne, hparse]
  refine Runs.call ⟨rfl, rfl⟩ ?_
  exact .raise

/-! ## Scripts -/

/-- The zeros of the ASCII, the Arabic-Indic and the Persian digits. -/
def scripts : List ℕ := [0x30, 0x660, 0x6F0]

/-- The same character, or digits of the same value in one of the three scripts. -/
def SameDigit (a b : Char) : Prop :=
  a = b ∨ ∃ z ∈ scripts, ∃ z' ∈ scripts, ∃ d < 10, a.toNat = z + d ∧ b.toNat = z' + d

instance (a b : Char) : Decidable (SameDigit a b) := inferInstanceAs (Decidable (_ ∨ _))

/-- A digit that the parser does not translate. -/
def isArabicIndic (c : Char) : Bool := 0x660 ≤ c.toNat ∧ c.toNat ≤ 0x669

/-- The character of a digit. -/
theorem eq_ofNat {c : Char} {n : ℕ} (h : c.toNat = n) : c = Char.ofNat n := by
  rw [← h, Char.ofNat_toNat]

theorem digit_facts {c : Char} {z d : ℕ} (hz : z ∈ scripts) (hd : d < 10) (h : c.toNat = z + d) :
    digitValue c = some d ∧ isSpace c = false ∧
      (persianToEng c).toNat = (if z = 0x6F0 then 0x30 else z) + d := by
  obtain rfl := eq_ofNat h
  have hall : ∀ z ∈ scripts, ∀ d < 10, digitValue (Char.ofNat (z + d)) = some d ∧
      isSpace (Char.ofNat (z + d)) = false ∧
      (persianToEng (Char.ofNat (z + d))).toNat = (if z = 0x6F0 then 0x30 else z) + d := by
    decide +kernel
  exact hall z hz d hd

theorem SameDigit.digitValue {a b : Char} (h : SameDigit a b) : digitValue a = digitValue b := by
  rcases h with rfl | ⟨z, hz, z', hz', d, hd, ha, hb⟩
  · rfl
  · rw [(digit_facts hz hd ha).1, (digit_facts hz' hd hb).1]

theorem SameDigit.isSpace {a b : Char} (h : SameDigit a b) : isSpace a = isSpace b := by
  rcases h with rfl | ⟨z, hz, z', hz', d, hd, ha, hb⟩
  · rfl
  · rw [(digit_facts hz hd ha).2.1, (digit_facts hz' hd hb).2.1]

/-- A character that is no digit. -/
theorem SameDigit.eq_iff {a b c : Char} (h : SameDigit a b) (hc : PaymentRecon.digitValue c = none) :
    a = c ↔ b = c := by
  rcases h with rfl | ⟨z, hz, z', hz', d, hd, ha, hb⟩
  · rfl
  · refine iff_of_false ?_ ?_ <;> rintro rfl
    · exact absurd ((digit_facts hz hd ha).1.symm.trans hc) (by simp)
    · exact absurd ((digit_facts hz' hd hb).1.symm.trans hc) (by simp)

theorem SameDigit.clean {a b : Char} (h : SameDigit a b) :
    SameDigit (persianToEng a) (persianToEng b) := by
  rcases h with rfl | ⟨z, hz, z', hz', d, hd, ha, hb⟩
  · exact Or.inl rfl
  · have hmem : ∀ z ∈ scripts, (if z = 0x6F0 then 0x30 else z) ∈ scripts := by decide
    exact Or.inr ⟨_, hmem z hz, _, hmem z' hz', d, hd, (digit_facts hz hd ha).2.2,
      (digit_facts hz' hd hb).2.2⟩

theorem SameDigit.isNumeral {a b : Char} (h : SameDigit a b) : isNumeral a = isNumeral b := by
  unfold PaymentRecon.isNumeral isDigit
  rw [h.digitValue, decide_eq_decide.mpr (h.eq_iff digitValue_comma)]

theorem SameDigit.isDigit {a b : Char} (h : SameDigit a b) : isDigit a = isDigit b := by
  unfold PaymentRecon.isDigit
  rw [h.digitValue]

/-- The pattern does not tell the scripts apart. -/
theorem smsPattern_respects : smsPattern.Respects SameDigit := by
  have hd : ∀ a b, SameDigit a b → isDigit a = isDigit b := fun _ _ h => h.isDigit
  have hs : ∀ a b, SameDigit a b → isSpace a = isSpace b := fun _ _ h => h.isSpace
  have hn : (plus isNumeral).Respects SameDigit := respects_plus fun _ _ h => h.isNumeral
  have hany : anything.Respects SameDigit := fun _ _ _ => rfl
  have literals : ∀ {cs : List Char} {x : Pattern}, (∀ c ∈ cs, digitValue c = none) →
      x.Respects SameDigit → (literal cs x).Respects SameDigit := fun hcs hx =>
    respects_literal (fun c hc _ _ h => h.eq_iff (hcs c hc)) hx
  have htime : timePattern.Respects SameDigit :=
    ⟨respects_times hd 1, literals (forall_of_all (by decide)) (respects_times hd 1)⟩
  have hdate : datePattern.Respects SameDigit :=
    ⟨respects_times hd 3, literals (forall_of_all (by decide)) ⟨respects_times hd 1,
      literals (forall_of_all (by decide)) (respects_times hd 1)⟩⟩
  refine ⟨hn, hs, literals (forall_of_all (by decide)) ⟨hany,
    literals (forall_of_all (by decide)) ⟨hs, hn, hs,
      literals (forall_of_all (by decide)) ⟨hany, htime, hany, hdate⟩⟩⟩⟩

theorem clean_related (h : List.Forall₂ SameDigit content.toList content'.toList) :
    List.Forall₂ SameDigit (clean content) (clean content') := by
  rw [clean, clean, List.forall₂_map_left_iff, List.forall₂_map_right_iff]
  exact h.imp fun _ _ => SameDigit.clean

theorem digitsOf_related {ys : List Char} (h : List.Forall₂ SameDigit xs ys) :
    digitsOf xs = digitsOf ys := by
  induction h with
  | nil => rfl
  | cons hab _ ih =>
    rw [digitsOf, digitsOf, List.filterMap_cons, List.filterMap_cons, hab.digitValue,
      show List.filterMap digitValue _ = _ from ih]
    rfl

/-- A Persian digit. -/
def IsPersian (c : Char) : Prop := 0x6F0 ≤ c.toNat ∧ c.toNat ≤ 0x6F9

instance (c : Char) : Decidable (IsPersian c) := inferInstanceAs (Decidable (_ ∧ _))

theorem not_persian {c : Char} (h : c ∈ clean content) : ¬ IsPersian c := by
  obtain ⟨c₀, -, rfl⟩ := List.mem_map.mp h
  unfold persianToEng IsPersian
  split_ifs with hc
  · have hall : ∀ d < 10, (Char.ofNat (d + 0x30)).toNat = d + 0x30 := by decide
    have hnat := hall (c₀.toNat - 0x6F0) (by omega)
    rw [hnat]
    omega
  · exact hc

/-- Where no digit is Persian, a digit is known by its value and its script. -/
theorem SameDigit.eq_iff_arabic {a b : Char} (h : SameDigit a b) (ha : ¬ IsPersian a)
    (hb : ¬ IsPersian b) : a = b ↔ isArabicIndic a = isArabicIndic b := by
  refine ⟨fun heq => heq ▸ rfl, fun heq => ?_⟩
  rcases h with rfl | ⟨z, hz, z', hz', d, hd, hza, hzb⟩
  · rfl
  · have hzeros : ∀ z ∈ scripts, z = 0x30 ∨ z = 0x660 ∨ z = 0x6F0 := by decide
    have hsame : z = z' := by
      have hflag := decide_eq_decide.mp heq
      unfold IsPersian at ha hb
      rcases hzeros z hz with rfl | rfl | rfl <;> rcases hzeros z' hz' with rfl | rfl | rfl <;> omega
    rw [eq_ofNat hza, eq_ofNat hzb, hsame]

theorem eq_iff_arabic {ys : List Char} (h : List.Forall₂ SameDigit xs ys)
    (hx : ∀ c ∈ xs, ¬ IsPersian c) (hy : ∀ c ∈ ys, ¬ IsPersian c) :
    xs = ys ↔ xs.map isArabicIndic = ys.map isArabicIndic := by
  induction h with
  | nil => simp
  | cons hab _ ih =>
    rw [List.forall_mem_cons] at hx hy
    rw [List.map_cons, List.map_cons, List.cons.injEq, List.cons.injEq, ih hx.2 hy.2,
      hab.eq_iff_arabic hx.1 hy.1]

theorem Found.mem_date (h : Found content before m rest) {c : Char} (hc : c ∈ m.date) :
    c ∈ clean content := by
  rw [h.text]
  simp [Parts.text, Parts.tail, hc]

theorem Found.mem_time (h : Found content before m rest) {c : Char} (hc : c ∈ m.time) :
    c ∈ clean content := by
  rw [h.text]
  simp [Parts.text, Parts.tail, hc]

/-- Related matches have related groups. -/
theorem related_captures {R : Char → Char → Prop} {m' : Parts}
    (h : Captures.Related R m.captures m'.captures) :
    List.Forall₂ R m.amount m'.amount ∧ List.Forall₂ R m.inventory m'.inventory ∧
      List.Forall₂ R m.date m'.date ∧ List.Forall₂ R m.time m'.time := by
  simp only [Captures.Related, Parts.captures, List.forall₂_cons, true_and] at h
  obtain ⟨hdate, htime, hinv, hamount, -⟩ := h
  exact ⟨hamount, hinv, hdate, htime⟩

/-- The group has its Arabic-Indic digits in the same places. -/
def SamePlaces (data data' : Captures) (name : String) : Prop :=
  (groupOf data name).map isArabicIndic = (groupOf data' name).map isArabicIndic

/-- **Digits in another script.**  When an SMS is accepted, the same text with digits of other scripts is
accepted with the same amounts; and it has the same date and time, so that it is recognised, exactly when
the Arabic-Indic digits of these stand in the same places. -/
theorem key_script_independent (h : List.Forall₂ SameDigit content.toList content'.toList)
    (hs : parseSmsTransaction content traceId = .ok (some s)) :
    (∃ s', parseSmsTransaction content' traceId' = .ok (some s') ∧ s'.smsAmount = s.smsAmount ∧
        s'.smsInventory = s.smsInventory) ∧
      ((∃ s', parseSmsTransaction content' traceId' = .ok (some s') ∧ s'.smsAmount = s.smsAmount ∧
          s'.smsInventory = s.smsInventory ∧ s'.smsDate = s.smsDate ∧ s'.smsTime = s.smsTime) ↔
        ∀ data data', smsPattern.search (clean content) = some data →
          smsPattern.search (clean content') = some data' →
          SamePlaces data data' "date" ∧ SamePlaces data data' "time") := by
  obtain ⟨before, m, rest, hf, ha, hi, rfl⟩ := parse_ok_iff.mp hs
  have hrel := search_related smsPattern_respects (clean_related h)
  rw [hf.search] at hrel
  obtain ⟨data', hs', hcaps⟩ : ∃ data', smsPattern.search (clean content') = some data' ∧
      Captures.Related SameDigit m.captures data' := by
    generalize smsPattern.search (clean content') = found at hrel
    cases hrel with
    | some hcaps => exact ⟨_, rfl, hcaps⟩
  obtain ⟨before', m', rest', hf', rfl⟩ := found_of_search hs'
  obtain ⟨hamount, hinv, hdate, htime⟩ := related_captures hcaps
  have hda := digitsOf_related hamount
  have hdi := digitsOf_related hinv
  have hparse : parseSmsTransaction content' traceId' = .ok (some (record content' traceId' m')) := by
    rw [parse_found hf', if_pos]
    unfold Convertible at ha hi ⊢
    rw [← hda, ← hdi]
    exact ⟨ha, hi⟩
  have hsameA : numberOf m'.amount = numberOf m.amount := congrArg (Positional.value 10) hda.symm
  have hsameI : numberOf m'.inventory = numberOf m.inventory := congrArg (Positional.value 10) hdi.symm
  have hsame : (record content' traceId' m').smsAmount = (record content traceId m).smsAmount ∧
      (record content' traceId' m').smsInventory = (record content traceId m).smsInventory := by
    simp [record, hsameA, hsameI]
  refine ⟨⟨_, hparse, hsame⟩, ?_⟩
  have hplaces : (∀ data data', smsPattern.search (clean content) = some data →
      smsPattern.search (clean content') = some data' →
      SamePlaces data data' "date" ∧ SamePlaces data data' "time") ↔
        m.date = m'.date ∧ m.time = m'.time := by
    rw [hf.search, hf'.search,
      eq_iff_arabic hdate (fun _ hc => not_persian (hf.mem_date hc)) fun _ hc => not_persian (hf'.mem_date hc),
      eq_iff_arabic htime (fun _ hc => not_persian (hf.mem_time hc)) fun _ hc => not_persian (hf'.mem_time hc)]
    constructor
    · exact fun h => h _ _ rfl rfl
    · intro h data data' hdata hdata'
      obtain rfl := Option.some.inj hdata
      obtain rfl := Option.some.inj hdata'
      exact h
  rw [hplaces]
  constructor
  · rintro ⟨s', hp, -, -, hd, ht⟩
    obtain rfl := Option.some.inj (Except.ok.inj (hparse.symm.trans hp))
    have hd := Option.some.inj hd
    have ht := Option.some.inj ht
    exact ⟨(String.ofList_injective hd).symm, (String.ofList_injective ht).symm⟩
  · rintro ⟨hd, ht⟩
    exact ⟨_, hparse, hsame.1, hsame.2, by simp [record, hd], by simp [record, ht]⟩

/-- The amount in Arabic-Indic digits. -/
theorem key_script_independent_sample : ∃ s s' : SmsData,
    parseSmsTransaction (deposit "1760021" "9") "tx_1" = .ok (some s) ∧
      parseSmsTransaction (deposit "١٧٦٠٠٢١" "9") "tx_2" = .ok (some s') ∧
      s'.smsAmount = s.smsAmount ∧ s'.smsInventory = s.smsInventory ∧ s'.smsDate = s.smsDate ∧
      s'.smsTime = s.smsTime := by
  have hparse : parseSmsTransaction (deposit "1760021" "9") "tx_1" =
      .ok (some (depositData "1760021" "9" 1760021 9)) := by decide +kernel
  have hsame : List.Forall₂ SameDigit (deposit "1760021" "9").toList
      (deposit "١٧٦٠٠٢١" "9").toList := by decide +kernel
  have hplaces : ∀ data ∈ smsPattern.search (clean (deposit "1760021" "9")),
      ∀ data' ∈ smsPattern.search (clean (deposit "١٧٦٠٠٢١" "9")),
        (groupOf data "date").map isArabicIndic = (groupOf data' "date").map isArabicIndic ∧
          (groupOf data "time").map isArabicIndic = (groupOf data' "time").map isArabicIndic := by
    decide +kernel
  obtain ⟨s', hs'⟩ := (@key_script_independent _ _ _ "tx_2" _ hsame hparse).2.mpr
    fun data data' h h' => hplaces data h data' h'
  exact ⟨_, s', hparse, hs'⟩

/-- A notification with the time in the digits given. -/
def depositAt (time : String) : String :=
  "1760021ریال به حساب شما نشست.\nموجودی: 9 ریال\n" ++ time ++ "\n1405.03.12"

/-- The time in Arabic-Indic digits is another time. -/
theorem arabic_time_differs : ∃ s s' : SmsData,
    List.Forall₂ SameDigit (depositAt "11:48").toList (depositAt "١١:٤٨").toList ∧
      parseSmsTransaction (depositAt "11:48") "tx_1" = .ok (some s) ∧
      parseSmsTransaction (depositAt "١١:٤٨") "tx_2" = .ok (some s') ∧ s.smsTime ≠ s'.smsTime :=
  ⟨⟨some "tx_1", some 1760021, some 9, some "1405.03.12", some "11:48", some (depositAt "11:48")⟩,
    ⟨some "tx_2", some 1760021, some 9, some "1405.03.12", some "١١:٤٨", some (depositAt "١١:٤٨")⟩,
    by decide +kernel, by decide +kernel, by decide +kernel, by decide⟩

end Intake

end PaymentRecon
