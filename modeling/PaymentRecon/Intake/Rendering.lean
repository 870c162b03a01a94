import Mathlib.Data.Fin.VecNotation
import PaymentRecon.Intake.Parsed
import PaymentRecon.Lib.Splits

/-!
# Rendering — parsing undoes writing

A `Notice` is what a notification says; `Renders` are the ways to write it down, in ASCII and Persian
digits and after any header that lacks the phrase.  The pattern matches such a text in one way from its
leftmost place, so that the parser reads back what was written.
-/

namespace PaymentRecon

open Regex Splits

namespace Intake

variable {content traceId : String} {xs ys : List Char} {n k : ℕ}

/-! ## Numerals -/

def asciiDigit (d : ℕ) : Char := Char.ofNat (0x30 + d)

def persianDigit (d : ℕ) : Char := Char.ofNat (0x6F0 + d)

/-- The decimal numeral. -/
def numeral (n : ℕ) : List Char := (Positional.digits 10 n).map asciiDigit

/-- A comma after every three characters, but not at the end. -/
def groupsOfThree : List Char → List Char
  | a :: b :: c :: d :: xs => a :: b :: c :: ',' :: groupsOfThree (d :: xs)
  | xs => xs

/-- Thousands commas. -/
def thousands (xs : List Char) : List Char := (groupsOfThree xs.reverse).reverse

/-- A number with or without thousands commas. -/
def written (commas : Bool) (n : ℕ) : List Char :=
  if commas then thousands (numeral n) else numeral n

theorem digitValue_ascii {d : ℕ} (hd : d < 10) : digitValue (asciiDigit d) = some d := by
  have hall : ∀ d < 10, digitValue (asciiDigit d) = some d := by decide
  exact hall d hd

theorem digitsOf_numeral (n : ℕ) : digitsOf (numeral n) = Positional.digits 10 n := by
  rw [digitsOf, numeral, List.filterMap_map]
  refine (List.filterMap_congr fun d hd => ?_).trans List.filterMap_some
  exact digitValue_ascii (Positional.digits_lt (by decide) hd)

theorem digitsOf_groupsOfThree (xs : List Char) : digitsOf (groupsOfThree xs) = digitsOf xs := by
  fun_induction groupsOfThree xs with
  | case1 a b c d xs ih =>
    have hcons : ∀ (x : Char) {ys zs : List Char}, digitsOf ys = digitsOf zs →
        digitsOf (x :: ys) = digitsOf (x :: zs) := fun x ys zs h => by
      rw [digitsOf, digitsOf, List.filterMap_cons, List.filterMap_cons,
        show List.filterMap digitValue ys = List.filterMap digitValue zs from h]
    refine hcons a (hcons b (hcons c ?_))
    rw [← ih, digitsOf, List.filterMap_cons_none digitValue_comma]
    rfl
  | case2 xs => rfl

theorem mem_groupsOfThree {x : Char} (h : x ∈ groupsOfThree xs) : x = ',' ∨ x ∈ xs := by
  fun_induction groupsOfThree xs with
  | case1 a b c d xs ih =>
    simp only [List.mem_cons] at h ih ⊢
    rcases h with h | h | h | h | h
    · exact Or.inr (Or.inl h)
    · exact Or.inr (Or.inr (Or.inl h))
    · exact Or.inr (Or.inr (Or.inr (Or.inl h)))
    · exact Or.inl h
    · exact (ih h).imp_right fun h => Or.inr (Or.inr (Or.inr h))
  | case2 xs => exact Or.inr h

theorem digitsOf_reverse (xs : List Char) : digitsOf xs.reverse = (digitsOf xs).reverse :=
  List.filterMap_reverse

theorem digitsOf_written (commas : Bool) (n : ℕ) :
    digitsOf (written commas n) = Positional.digits 10 n := by
  cases commas with
  | false => exact digitsOf_numeral n
  | true =>
    show digitsOf (thousands (numeral n)) = _
    rw [thousands, digitsOf_reverse, digitsOf_groupsOfThree, digitsOf_reverse, List.reverse_reverse,
      digitsOf_numeral]

theorem mem_written {commas : Bool} {x : Char} (h : x ∈ written commas n) :
    x = ',' ∨ ∃ d < 10, x = asciiDigit d := by
  have hdigit : ∀ x ∈ numeral n, ∃ d < 10, x = asciiDigit d := by
    intro x hx
    obtain ⟨d, hd, rfl⟩ := List.mem_map.mp hx
    exact ⟨d, Positional.digits_lt (by decide) hd, rfl⟩
  cases commas with
  | false => exact Or.inr (hdigit x h)
  | true =>
    have hx : x ∈ groupsOfThree (numeral n).reverse := List.mem_reverse.mp h
    exact (mem_groupsOfThree hx).imp_right fun hx => hdigit x (List.mem_reverse.mp hx)

theorem isNumeral_written (commas : Bool) (n : ℕ) : IsNumeral (written commas n) := by
  constructor
  · intro hnil
    have hdigits := digitsOf_written commas n
    rw [hnil] at hdigits
    exact Positional.digits_ne_nil 10 n hdigits.symm
  · intro x hx
    rcases mem_written hx with rfl | ⟨d, hd, rfl⟩
    · rfl
    · simp [isNumeral, isDigit, digitValue_ascii hd]

theorem numberOf_written (commas : Bool) (n : ℕ) : numberOf (written commas n) = n := by
  rw [numberOf, digitsOf_written, Positional.value_digits]

theorem convertible_written {commas : Bool} (h : (Positional.digits 10 n).length ≤ intMaxStrDigits) :
    Convertible (written commas n) := by
  rw [Convertible, digitsOf_written]
  exact ⟨Positional.digits_ne_nil 10 n, h⟩

/-! ## Notifications -/

/-- The time `hh:mm` with these digits. -/
def timeText (t : Fin 4 → Fin 10) : List Char :=
  [asciiDigit (t 0), asciiDigit (t 1), ':', asciiDigit (t 2), asciiDigit (t 3)]

/-- The date `dddd.dd.dd` with these digits. -/
def dateText (d : Fin 8 → Fin 10) : List Char :=
  [asciiDigit (d 0), asciiDigit (d 1), asciiDigit (d 2), asciiDigit (d 3), '.', asciiDigit (d 4),
    asciiDigit (d 5), '.', asciiDigit (d 6), asciiDigit (d 7)]

/-- What a notification says, and how its numerals and spaces are set. -/
structure Notice where
  header : List Char
  amount : ℕ
  amountCommas : Bool
  afterAmount : List Char
  inventory : ℕ
  inventoryCommas : Bool
  afterInventory : List Char
  time : Fin 4 → Fin 10
  date : Fin 8 → Fin 10

namespace Notice

variable (n : Notice)

/-- The header ends a line and lacks the phrase; the numbers are not too long for `int()`. -/
structure Ok : Prop where
  line : n.header.getLast? = some '\n'
  phrase : ¬ phrase <:+: n.header
  amount : (Positional.digits 10 n.amount).length ≤ 4300
  inventory : (Positional.digits 10 n.inventory).length ≤ 4300
  afterAmount : IsSpaces n.afterAmount
  afterInventory : IsSpaces n.afterInventory

/-- The pieces of the match, in ASCII digits. -/
def parts : Parts :=
  ⟨written n.amountCommas n.amount, n.afterAmount, ['\n'], [' '],
    written n.inventoryCommas n.inventory, n.afterInventory, ['\n'], timeText n.time, ['\n'],
    dateText n.date⟩

/-- The four lines below the header, in ASCII digits. -/
def body : List Char :=
  written n.amountCommas n.amount ++ (n.afterAmount ++ "ریال به حساب شما نشست.\n".toList) ++
    ("موجودی: ".toList ++ written n.inventoryCommas n.inventory ++
      (n.afterInventory ++ "ریال\n".toList)) ++
    (timeText n.time ++ ['\n']) ++ dateText n.date

/-- `c` is the character `a`, or the Persian digit for the ASCII digit `a`. -/
def Spells (a c : Char) : Prop := c = a ∨ ∃ d < 10, a = asciiDigit d ∧ c = persianDigit d

instance (a c : Char) : Decidable (Spells a c) := inferInstanceAs (Decidable (_ ∨ _))

/-- The texts that say what the notice says: each digit is an ASCII or a Persian one. -/
def Renders (content : String) : Prop :=
  ∃ text, List.Forall₂ Spells n.body text ∧ content.toList = n.header ++ text

theorem body_eq : n.body = n.parts.text := by
  have hphrase : "ریال به حساب شما نشست.\n".toList = phrase ++ ['\n'] := by decide
  have hlabel : "موجودی: ".toList = label ++ [' '] := by decide
  have hcurrency : "ریال\n".toList = currency ++ ['\n'] := by decide
  simp only [body, Parts.text, Parts.tail, parts, hphrase, hlabel, hcurrency, List.append_assoc]

theorem isTime_timeText (t : Fin 4 → Fin 10) : IsTime (timeText t) := by
  have hdigit : ∀ d : Fin 10, isDigit (asciiDigit d) = true := by decide
  exact ⟨[_, _], [_, _], ⟨rfl, by simp [hdigit]⟩, ⟨rfl, by simp [hdigit]⟩, rfl⟩

theorem isDate_dateText (d : Fin 8 → Fin 10) : IsDate (dateText d) := by
  have hdigit : ∀ d : Fin 10, isDigit (asciiDigit d) = true := by decide
  exact ⟨[_, _, _, _], [_, _], [_, _], ⟨rfl, by simp [hdigit]⟩, ⟨rfl, by simp [hdigit]⟩,
    ⟨rfl, by simp [hdigit]⟩, rfl⟩

theorem parts_ok (h : n.Ok) : n.parts.Ok :=
  ⟨isNumeral_written _ _, h.afterAmount, by simp [parts, IsSpaces, isSpace], isNumeral_written _ _, h.afterInventory,
    isTime_timeText _, isDate_dateText _⟩

/-! ## The text that is searched -/

theorem not_persian_of_space {c : Char} (h : isSpace c = true) : ¬ IsPersian c := by
  unfold isSpace at h
  unfold IsPersian
  simp only [decide_eq_true_eq] at h
  omega

theorem not_persian_of_written {commas : Bool} {k : ℕ} {c : Char} (h : c ∈ written commas k) :
    ¬ IsPersian c := by
  rcases mem_written h with rfl | ⟨d, hd, rfl⟩
  · decide
  · have hall : ∀ d < 10, ¬ IsPersian (asciiDigit d) := by decide
    exact hall d hd

theorem not_persian_parts {n : Notice} (h : n.Ok) : ∀ c ∈ n.parts.text, ¬ IsPersian c := by
  have hdigit : ∀ d : Fin 10, ¬ IsPersian (asciiDigit d) := by decide
  have htime : ∀ c ∈ timeText n.time, ¬ IsPersian c := by
    have hcolon : ¬ IsPersian ':' := by decide
    simp [timeText, hdigit, hcolon]
  have hdate : ∀ c ∈ dateText n.date, ¬ IsPersian c := by
    have hpoint : ¬ IsPersian '.' := by decide
    simp [dateText, hdigit, hpoint]
  simp only [Parts.text, Parts.tail, parts, List.forall_mem_append]
  exact ⟨fun _ => not_persian_of_written, fun c hc => not_persian_of_space (h.afterAmount c hc),
    forall_of_all (by decide), forall_of_all (by decide), forall_of_all (by decide),
    forall_of_all (by decide), fun _ => not_persian_of_written,
    fun c hc => not_persian_of_space (h.afterInventory c hc), forall_of_all (by decide),
    forall_of_all (by decide), htime, forall_of_all (by decide),
    hdate⟩

theorem Spells.clean {a c : Char} (h : Spells a c) (ha : ¬ IsPersian a) : persianToEng c = a := by
  rcases h with rfl | ⟨d, hd, rfl, rfl⟩
  · exact if_neg ha
  · have hall : ∀ d < 10, persianToEng (persianDigit d) = asciiDigit d := by decide
    exact hall d hd

theorem map_spells (h : List.Forall₂ Spells xs ys) (hxs : ∀ a ∈ xs, ¬ IsPersian a) :
    ys.map persianToEng = xs := by
  induction h with
  | nil => rfl
  | cons hab _ ih =>
    rw [List.forall_mem_cons] at hxs
    rw [List.map_cons, hab.clean hxs.1, ih hxs.2]

/-- The parser searches the header and the pieces of the notice. -/
theorem Renders.clean (hn : n.Ok) (h : n.Renders content) :
    Intake.clean content = n.header.map persianToEng ++ n.parts.text := by
  obtain ⟨text, hspells, htext⟩ := h
  rw [Intake.clean, htext, List.map_append, map_spells hspells, body_eq]
  rw [body_eq]
  exact not_persian_parts hn

/-- A character that the parser leaves as it is has always been itself. -/
theorem eq_of_clean {a c : Char} (h : persianToEng c = a) (ha : ∀ d < 10, a ≠ asciiDigit d) :
    c = a := by
  unfold persianToEng at h
  split_ifs at h with hc
  · refine absurd h.symm ?_
    have hd := ha (c.toNat - 0x6F0) (by omega)
    rwa [asciiDigit, Nat.add_comm] at hd
  · exact h

theorem map_eq_iff_of_clean (hys : ∀ a ∈ ys, ∀ d < 10, a ≠ asciiDigit d)
    (h : xs.map persianToEng = ys) : xs = ys := by
  induction xs generalizing ys with
  | nil => exact h
  | cons x xs ih =>
    subst h
    rw [List.map_cons, List.forall_mem_cons] at hys
    rw [List.map_cons, ← ih hys.2 rfl, ← eq_of_clean rfl hys.1]

/-- Cleaning the header brings about no phrase. -/
theorem phrase_not_infix (h : ¬ phrase <:+: xs) : ¬ phrase <:+: xs.map persianToEng := by
  rintro ⟨us, vs, heq⟩
  refine h ?_
  obtain ⟨us', vs', rfl, hus, -⟩ := List.map_eq_append_iff.mp heq.symm
  obtain ⟨us₁, us₂, rfl, -, hphrase⟩ := List.map_eq_append_iff.mp hus
  have hplain : ∀ a ∈ phrase, ∀ d < 10, a ≠ asciiDigit d := forall_of_all (by decide)
  obtain rfl := map_eq_iff_of_clean hplain hphrase
  exact ⟨us₁, vs', rfl⟩

/-! ## One way to match -/

/-- The first letter of the phrase, and of the currency. -/
def reh : Char := 'ر'

/-- The phrase without its first letter. -/
def phraseRest : List Char := "یال به حساب شما نشست.".toList

theorem phrase_eq : phrase = reh :: phraseRest := by decide

/-- **The phrase occurs once**: in a text that lacks it above the line, and below the line has its first
letter at the head of the phrase and of a currency at the end of a line only. -/
theorem phrase_unique {us vs us' vs' ls rs : List Char} (hhead : ¬ phrase <:+: xs)
    (hus : reh ∉ us) (hls : reh ∉ phraseRest ++ ls) (hrs : reh ∉ "یال\n".toList ++ rs)
    (hvs : vs = ls ++ (currency ++ '\n' :: rs))
    (h : xs ++ '\n' :: (us ++ (phrase ++ vs)) = us' ++ (phrase ++ vs')) :
    us' = xs ++ '\n' :: us ∧ vs' = vs := by
  have hlong : xs.length < us'.length := by
    by_contra hle
    exact hhead (infix_left_of (by decide) h (not_lt.mp hle))
  obtain ⟨as, rfl, htail⟩ : ∃ as, us' = xs ++ '\n' :: as ∧ us ++ (phrase ++ vs) = as ++ (phrase ++ vs') := by
    rcases List.append_eq_append_iff.mp h with ⟨as, rfl, htail⟩ | ⟨as, rfl, -⟩
    · cases as with
      | nil => simp at hlong
      | cons a as =>
        obtain ⟨rfl, htail'⟩ := List.cons.inj htail
        exact ⟨as, rfl, htail'⟩
    · simp at hlong
  have hsame : as = us := by
    rw [phrase_eq, List.cons_append, List.cons_append] at htail
    rcases List.append_eq_append_iff.mp htail with ⟨bs, rfl, hrest⟩ | ⟨bs, rfl, hrest⟩
    · cases bs with
      | nil => rw [List.append_nil]
      | cons b bs =>
        -- the next first letter is the one of the currency
        obtain ⟨rfl, hrest'⟩ := List.cons.inj hrest
        have hsplit : (phraseRest ++ ls) ++ reh :: ("یال\n".toList ++ rs) =
            bs ++ reh :: (phraseRest ++ vs') := by
          rw [show bs ++ reh :: (phraseRest ++ vs') = phraseRest ++ vs from hrest'.symm, hvs,
            List.append_assoc]
          rfl
        obtain ⟨-, hafter⟩ := mark_unique hsplit hls hrs
        have hline : "یال\n".toList = ['ی', 'ا', 'ل', '\n'] := by decide
        have hphrase : phraseRest = 'ی' :: 'ا' :: 'ل' :: ' ' :: "به حساب شما نشست.".toList := by decide
        rw [hline, hphrase] at hafter
        have hfourth := (List.cons.inj (List.cons.inj (List.cons.inj (List.cons.inj hafter).2).2).2).1
        exact absurd hfourth (by decide)
    · cases bs with
      | nil => rw [List.append_nil]
      | cons b bs =>
        obtain ⟨rfl, -⟩ := List.cons.inj hrest
        exact absurd (List.mem_append_right as List.mem_cons_self) hus
  subst hsame
  exact ⟨rfl, (List.append_cancel_left (List.append_cancel_left htail)).symm⟩

/-- The code points of white space. -/
def spaceCodes : List ℕ :=
  List.range' 9 5 ++ List.range' 28 5 ++ [0x85, 0xA0, 0x1680] ++ List.range' 0x2000 11 ++
    [0x2028, 0x2029, 0x202F, 0x205F, 0x3000]

/-- No space is a digit or a comma. -/
theorem not_numeral_of_space {c : Char} (h : isSpace c = true) : isNumeral c = false := by
  have hall : ∀ k ∈ spaceCodes, isNumeral (Char.ofNat k) = false := by decide +kernel
  have hcode : c.toNat ∈ spaceCodes := by
    unfold isSpace at h
    simp only [decide_eq_true_eq] at h
    simp only [spaceCodes, List.mem_append, List.mem_range'_1, List.mem_cons, List.not_mem_nil, or_false]
    omega
  have hc := hall c.toNat hcode
  rwa [Char.ofNat_toNat] at hc

theorem not_space_of_numeral {c : Char} (h : isNumeral c = true) : isSpace c = false := by
  by_contra hs
  rw [not_numeral_of_space (by simpa using hs)] at h
  exact absurd h (by simp)

theorem not_mem_numeral {c : Char} (hc : isNumeral c = false) (h : IsNumeral xs) : c ∉ xs :=
  fun hmem => absurd ((h.2 c hmem).symm.trans hc) (by simp)

theorem not_mem_spaces {c : Char} (hc : isSpace c = false) (h : IsSpaces xs) : c ∉ xs :=
  fun hmem => absurd ((h c hmem).symm.trans hc) (by simp)

variable {before rest us vs : List Char} {m : Parts}

/-- The amount, from a place that is not below the first one. -/
theorem amount_unique (hm : m.Ok) (hxs : IsNumeral xs) (hys : IsSpaces ys)
    (h : before ++ (m.amount ++ m.afterAmount) = us ++ '\n' :: (xs ++ ys))
    (hlen : before.length ≤ us.length + 1) : m.amount = xs := by
  have hspaces : Ends isNumeral m.afterAmount :=
    ends_of_forall fun c hc => not_numeral_of_space (hm.afterAmount c hc)
  have hspaces' : Ends isNumeral ys := ends_of_forall fun c hc => not_numeral_of_space (hys c hc)
  have hsplit : before ++ (m.amount ++ m.afterAmount) = (us ++ ['\n']) ++ (xs ++ ys) := by
    rw [h, List.append_assoc, List.singleton_append]
  have same : m.amount ++ m.afterAmount = xs ++ ys → m.amount = xs := fun heq =>
    (span_unique hm.amount.2 hspaces hxs.2 hspaces' heq).1
  rcases List.append_eq_append_iff.mp hsplit with ⟨as, hhead, htail⟩ | ⟨as, rfl, htail⟩
  · rcases List.eq_nil_or_concat as with rfl | ⟨as, a, rfl⟩
    · exact same htail
    · -- the match would reach over the end of the line
      rw [List.concat_eq_append] at hhead htail
      obtain ⟨-, ha⟩ := List.append_inj' (hhead.trans (List.append_assoc ..).symm) rfl
      obtain rfl : '\n' = a := (List.cons.inj ha).1
      rw [List.append_assoc, List.singleton_append] at htail
      have hafter := after_span hm.amount.2 htail (by decide)
      obtain ⟨x, hx⟩ := List.exists_mem_of_ne_nil xs hxs.1
      have hspace := hm.afterAmount x (hafter x (List.mem_append_left ys hx))
      exact absurd ((not_numeral_of_space hspace).symm.trans (hxs.2 x hx)) (by simp)
  · rw [List.length_append, List.length_append, List.length_singleton] at hlen
    obtain rfl : as = [] := List.length_eq_zero_iff.mp (by omega)
    exact same htail.symm

/-- The inventory. -/
theorem inventory_unique (hm : m.Ok) (hxs : IsNumeral xs) (hys : IsSpaces ys)
    (hvs : 'م' ∉ vs) (h : '\n' :: (label ++ ' ' :: (xs ++ (ys ++ (currency ++ vs)))) =
      m.afterPhrase ++ (label ++ (m.afterLabel ++ (m.inventory ++ (m.afterInventory ++
        (currency ++ rest)))))) : m.inventory = xs ∧ rest = vs := by
  have hlabel : label = 'م' :: "وجودی:".toList := by decide
  have hrest : 'م' ∉ "وجودی:".toList ++ ' ' :: (xs ++ (ys ++ (currency ++ vs))) := by
    have hfixed : 'م' ∉ "وجودی:".toList ++ [' '] ++ currency := by decide
    have hx := not_mem_numeral (c := 'م') (by decide) hxs
    have hy := not_mem_spaces (c := 'م') (by decide) hys
    simp only [List.mem_append, List.mem_cons, not_or] at hfixed ⊢
    exact ⟨hfixed.1.1, hfixed.1.2.1, hx, hy, hfixed.2, hvs⟩
  have hmark : ['\n'] ++ 'م' :: ("وجودی:".toList ++ ' ' :: (xs ++ (ys ++ (currency ++ vs)))) =
      m.afterPhrase ++ 'م' :: ("وجودی:".toList ++ (m.afterLabel ++ (m.inventory ++ (m.afterInventory ++
        (currency ++ rest))))) := by
    rw [hlabel] at h
    exact h
  obtain ⟨-, hafter⟩ := mark_unique hmark (by decide) hrest
  have hafter := List.append_cancel_left hafter
  have space : ∀ {zs : List Char}, IsNumeral zs → ∀ {ws}, Ends isSpace (zs ++ ws) := fun hzs _ =>
    ends_of_ne_nil hzs.1 fun c hc => not_space_of_numeral (hzs.2 c hc)
  have hcurrency : ∀ {ws : List Char}, Ends isNumeral (currency ++ ws) :=
    ends_of_ne_nil (by decide) (forall_of_all (by decide))
  have hcurrency' : ∀ {ws : List Char}, Ends isSpace (currency ++ ws) :=
    ends_of_ne_nil (by decide) (forall_of_all (by decide))
  have hblank : ∀ c ∈ [' '], isSpace c = true := forall_of_all (by decide)
  obtain ⟨-, hnum⟩ := span_unique hblank (space hxs) hm.afterLabel (space hm.inventory) hafter
  obtain ⟨rfl, hmore⟩ := span_unique hxs.2
    (ends_append (fun c hc => not_numeral_of_space (hys c hc)) hcurrency) hm.inventory.2
    (ends_append (fun c hc => not_numeral_of_space (hm.afterInventory c hc)) hcurrency) hnum
  obtain ⟨-, hlast⟩ := span_unique hys hcurrency' hm.afterInventory hcurrency' hmore
  exact ⟨rfl, (List.append_cancel_left hlast).symm⟩

/-- The time and the date. -/
theorem time_date_unique (hm : m.Ok) {t : Fin 4 → Fin 10} {d : Fin 8 → Fin 10}
    (h : '\n' :: (timeText t ++ '\n' :: dateText d) =
      m.beforeTime ++ (m.time ++ (m.beforeDate ++ (m.date ++ rest)))) :
    m.time = timeText t ∧ m.date = dateText d := by
  obtain ⟨hh, mm, hhh, hmm, htime⟩ := hm.time
  have hcolon : ∀ d : Fin 10, ':' ≠ asciiDigit d := by decide
  have hmark : ['\n', asciiDigit (t 0), asciiDigit (t 1)] ++
      ':' :: ([asciiDigit (t 2), asciiDigit (t 3)] ++ '\n' :: dateText d) =
      (m.beforeTime ++ hh) ++ ':' :: (mm ++ (m.beforeDate ++ (m.date ++ rest))) := by
    rw [htime] at h
    simpa [timeText] using h
  obtain ⟨hhour, hafter⟩ := mark_unique hmark (by simp [hcolon]) (by simp [hcolon, dateText])
  have hline : ['\n'] ++ [asciiDigit (t 0), asciiDigit (t 1)] = m.beforeTime ++ hh := hhour
  obtain ⟨-, hhour⟩ := List.append_inj' hline hhh.1.symm
  obtain ⟨hminute, hdate⟩ := List.append_inj hafter hmm.1.symm
  refine ⟨by rw [htime, ← hhour, ← hminute]; rfl, ?_⟩
  have hlen := length_date hm.date
  cases hgap : m.beforeDate with
  | nil =>
    -- a date does not begin with the end of a line
    obtain ⟨yy, mm', dd, hyy, -, -, hd⟩ := hm.date
    rw [hgap, hd, List.nil_append] at hdate
    cases yy with
    | nil => exact absurd hyy.1 (by simp)
    | cons y yy =>
      have hy := hyy.2 y List.mem_cons_self
      rw [← (List.cons.inj hdate).1] at hy
      exact absurd hy (by decide)
  | cons x gap =>
    rw [hgap] at hdate
    have htail : dateText d = gap ++ (m.date ++ rest) := (List.cons.inj hdate).2
    have htotal := congrArg List.length htail
    simp only [dateText, List.length_append, List.length_cons, List.length_nil, hlen] at htotal
    obtain rfl : gap = [] := List.length_eq_zero_iff.mp (by omega)
    obtain rfl : rest = [] := List.length_eq_zero_iff.mp (by omega)
    simpa using htail.symm

/-- **One way to match** the pieces of a notice below a header that lacks the phrase. -/
theorem captures_unique {n : Notice} (hn : n.Ok) (hm : m.Ok) (hhead : ¬ phrase <:+: us)
    (h : us ++ '\n' :: n.parts.text = before ++ (m.text ++ rest)) (hlen : before.length ≤ us.length + 1) :
    m.captures = n.parts.captures := by
  have hnum : IsNumeral (written n.inventoryCommas n.inventory) := isNumeral_written _ _
  have hreh : ∀ {zs}, IsNumeral zs → reh ∉ zs := not_mem_numeral (by decide)
  have hreh' : ∀ {zs}, IsSpaces zs → reh ∉ zs := not_mem_spaces (by decide)
  have hdigit : ∀ d : Fin 10, reh ≠ asciiDigit d ∧ 'م' ≠ asciiDigit d := by decide
  have htail : ∀ c ∈ [reh, 'م'], c ∉ timeText n.time ++ '\n' :: dateText n.date := by
    intro c hc hmem
    have hneq : ∀ d : Fin 10, c ≠ asciiDigit d := by
      intro d
      rcases List.mem_pair.mp hc with rfl | rfl
      · exact (hdigit d).1
      · exact (hdigit d).2
    have hmarks : c ≠ ':' ∧ c ≠ '.' ∧ c ≠ '\n' := by
      rcases List.mem_pair.mp hc with rfl | rfl <;> decide
    simp [timeText, dateText, hneq, hmarks] at hmem
  -- the phrase
  let ls := '\n' :: (label ++ ' ' :: (written n.inventoryCommas n.inventory ++ n.afterInventory))
  let rs := timeText n.time ++ '\n' :: dateText n.date
  have hls : reh ∉ phraseRest ++ ls := by
    have hfixed : reh ∉ phraseRest ++ '\n' :: (label ++ [' ']) := by decide
    simp only [ls, List.mem_append, List.mem_cons, not_or] at hfixed ⊢
    exact ⟨hfixed.1, hfixed.2.1, hfixed.2.2.1, hfixed.2.2.2.1, hreh hnum, hreh' hn.afterInventory⟩
  have hrs : reh ∉ "یال\n".toList ++ rs := by
    have hfixed : reh ∉ "یال\n".toList := by decide
    rw [List.mem_append, not_or]
    exact ⟨hfixed, htail reh (by simp)⟩
  have hsplit : us ++ '\n' :: ((written n.amountCommas n.amount ++ n.afterAmount) ++ (phrase ++
      (ls ++ (currency ++ '\n' :: rs)))) = (before ++ (m.amount ++ m.afterAmount)) ++ (phrase ++
        (m.afterPhrase ++ (label ++ (m.afterLabel ++ (m.tail ++ rest))))) := by
    simpa [Parts.text, Parts.tail, parts, ls, rs, List.append_assoc] using h
  have hus : reh ∉ written n.amountCommas n.amount ++ n.afterAmount := by
    rw [List.mem_append, not_or]
    exact ⟨hreh (isNumeral_written _ _), hreh' hn.afterAmount⟩
  obtain ⟨hfirst, hrest⟩ := phrase_unique hhead hus hls hrs rfl hsplit
  -- the pieces around it
  have hamount := amount_unique hm (isNumeral_written _ _) hn.afterAmount hfirst hlen
  have hlines : '\n' :: (label ++ ' ' :: (written n.inventoryCommas n.inventory ++
      (n.afterInventory ++ (currency ++ '\n' :: rs)))) = m.afterPhrase ++ (label ++ (m.afterLabel ++
        (m.inventory ++ (m.afterInventory ++ (currency ++
          (m.beforeTime ++ (m.time ++ (m.beforeDate ++ (m.date ++ rest))))))))) := by
    simpa [Parts.tail, ls, List.append_assoc] using hrest.symm
  have hmeem : 'م' ∉ '\n' :: rs := by
    have hm' := htail 'م' (by simp)
    simpa [rs] using hm'
  obtain ⟨hinv, hafter⟩ := inventory_unique hm hnum hn.afterInventory hmeem hlines
  obtain ⟨htime, hdate⟩ := time_date_unique hm hafter.symm
  simp only [Parts.captures, hamount, hinv, htime, hdate]
  rfl

/-- What the parser returns for the notice. -/
def data (n : Notice) (content traceId : String) : SmsData :=
  ⟨some traceId, some n.amount, some n.inventory, some (String.ofList (dateText n.date)),
    some (String.ofList (timeText n.time)), some content⟩

/-- **Parsing undoes writing**: whatever the header, the digits, the commas and the spaces, the parser
returns what the notice says, and the text itself. -/
theorem parse_rendered {n : Notice} (hn : n.Ok) (h : n.Renders content) (traceId : String) :
    parseSmsTransaction content traceId = .ok (some (n.data content traceId)) := by
  obtain ⟨lines, hheader⟩ := List.getLast?_eq_some_iff.mp hn.line
  let us := lines.map persianToEng
  have hclean : clean content = us ++ '\n' :: n.parts.text := by
    rw [Renders.clean n hn h, hheader, List.map_append, List.append_assoc]
    rfl
  have hhead : ¬ phrase <:+: us := by
    refine phrase_not_infix fun hin => hn.phrase ?_
    rw [hheader]
    exact hin.trans (List.prefix_append lines ['\n']).isInfix
  have hat : smsPattern.MatchesAt n.parts.text := by
    refine ⟨[], n.parts.captures, matches_sms.mpr ⟨n.parts, parts_ok n hn, ?_, rfl⟩⟩
    rw [List.append_nil]
  have hsplit : clean content = (us ++ ['\n']) ++ n.parts.text := by
    rw [hclean, List.append_assoc]
    rfl
  obtain ⟨caps, hs⟩ := Option.isSome_iff_exists.mp (search_isSome.mpr ⟨_, _, hsplit, hat⟩)
  obtain ⟨before, m, rest, hf, -⟩ := found_of_search hs
  have hlen : before.length ≤ us.length + 1 := by
    by_contra hlate
    refine hf.first _ _ hsplit ?_ hat
    rw [List.length_append, List.length_singleton]
    omega
  have hcaps := captures_unique hn hf.ok hhead (hclean.symm.trans hf.text) hlen
  simp only [Parts.captures, List.cons.injEq, Prod.mk.injEq, true_and, and_true] at hcaps
  obtain ⟨hdate, htime, hinv, hamount⟩ := hcaps
  have ha : m.amount = written n.amountCommas n.amount := hamount
  have hi : m.inventory = written n.inventoryCommas n.inventory := hinv
  rw [parse_found hf, ha, hi, if_pos ⟨convertible_written hn.amount, convertible_written hn.inventory⟩]
  simp only [record, data, ha, hi, htime, hdate, numberOf_written]
  rfl

/-- The notification of the bank in the tests. -/
def testNotice : Notice where
  header := "بلو \nواریز پول\nمحمد عزیز\n".toList
  amount := 1760021
  amountCommas := false
  afterAmount := []
  inventory := 1241242210
  inventoryCommas := false
  afterInventory := [' ']
  time := ![1, 1, 4, 8]
  date := ![1, 4, 0, 5, 0, 3, 1, 2]

/-- Its text. -/
def testLines : String :=
  "1760021ریال به حساب شما نشست.\nموجودی: ۱۲۴۱۲۴۲۲۱۰ ریال\n۱۱:۴۸\n۱۴۰۵.۰۳.۱۲"

theorem testNotice_renders : testNotice.Renders ("بلو \nواریز پول\nمحمد عزیز\n" ++ testLines) := by
  have hspells : List.Forall₂ Spells testNotice.body testLines.toList := by decide +kernel
  exact ⟨_, hspells, String.toList_append⟩

theorem parse_rendered_sample :
    parseSmsTransaction ("بلو \nواریز پول\nمحمد عزیز\n" ++ testLines) "tx_1" =
      .ok (some (testNotice.data ("بلو \nواریز پول\nمحمد عزیز\n" ++ testLines) "tx_1")) := by
  have hok : testNotice.Ok :=
    ⟨by decide, by decide, by decide, by decide, forall_of_all (by decide), forall_of_all (by decide)⟩
  exact parse_rendered hok testNotice_renders "tx_1"

end Notice

end Intake

end PaymentRecon
