import Mathlib.Data.List.Forall2

/-!
# Regex — the search of a backtracking engine

Patterns are sequences of characters of a class, of greedy or lazy repetitions of a class, and of named
groups.  `exec` tries the matches of a pattern at one position in the order of a backtracking engine and
passes each to a continuation, until one is accepted; `search` moves the start to the right until a
match is found.  `Matches` says what a match is, in whatever order it is found.
-/

namespace Regex

inductive Pattern
  | one (p : Char → Bool)
  | many (p : Char → Bool) (greedy : Bool)
  | seq (x y : Pattern)
  | group (name : String) (x : Pattern)

/-- The text of the groups that matched, the last one first. -/
abbrev Captures := List (String × List Char)

/-! ## Patterns -/

/-- One character or more, as many as possible. -/
def plus (p : Char → Bool) : Pattern := .seq (.one p) (.many p true)

/-- The text itself. -/
def literal : List Char → Pattern → Pattern
  | [], rest => rest
  | c :: cs, rest => .seq (.one fun x => x = c) (literal cs rest)

/-- Exactly `n + 1` characters of the class. -/
def times (p : Char → Bool) : ℕ → Pattern
  | 0 => .one p
  | n + 1 => .seq (.one p) (times p n)

/-! ## Search -/

variable {α : Type}

/-- Repetitions of the class `p`: the longest first when greedy, the shortest first when lazy. -/
def execMany (p : Char → Bool) (greedy : Bool) (k : List Char → Option α) : List Char → Option α
  | [] => k []
  | c :: cs =>
    if p c then
      if greedy then (execMany p greedy k cs).or (k (c :: cs))
      else (k (c :: cs)).or (execMany p greedy k cs)
    else k (c :: cs)

/-- The first match of the pattern at the head of the text that the continuation accepts. -/
def Pattern.exec : Pattern → List Char → Captures → (List Char → Captures → Option α) → Option α
  | .one p, text, caps, k =>
    match text with
    | [] => none
    | c :: cs => if p c then k cs caps else none
  | .many p greedy, text, caps, k => execMany p greedy (fun rest => k rest caps) text
  | .seq x y, text, caps, k => x.exec text caps fun rest caps' => y.exec rest caps' k
  | .group name x, text, caps, k => x.exec text caps fun rest caps' =>
    k rest ((name, text.take (text.length - rest.length)) :: caps')

/-- The groups of the first match. -/
def Pattern.search (x : Pattern) : List Char → Option Captures
  | [] => x.exec [] [] fun _ caps => some caps
  | c :: cs => (x.exec (c :: cs) [] fun _ caps => some caps).or (x.search cs)

/-! ## Matches -/

/-- The pattern matches the text up to `rest`. -/
inductive Matches : Pattern → List Char → Captures → List Char → Captures → Prop
  | one {p : Char → Bool} {c : Char} {rest : List Char} {caps : Captures} (h : p c = true) :
      Matches (.one p) (c :: rest) caps rest caps
  | many {p : Char → Bool} {greedy : Bool} {xs rest : List Char} {caps : Captures}
      (h : ∀ c ∈ xs, p c = true) : Matches (.many p greedy) (xs ++ rest) caps rest caps
  | seq {x y : Pattern} {text mid rest : List Char} {caps caps' caps'' : Captures}
      (hx : Matches x text caps mid caps') (hy : Matches y mid caps' rest caps'') :
      Matches (.seq x y) text caps rest caps''
  | group {name : String} {x : Pattern} {xs rest : List Char} {caps caps' : Captures}
      (h : Matches x (xs ++ rest) caps rest caps') :
      Matches (.group name x) (xs ++ rest) caps rest ((name, xs) :: caps')

variable {x y : Pattern} {text rest : List Char} {caps caps' : Captures}

theorem matches_one {p : Char → Bool} : Matches (.one p) text caps rest caps' ↔
    ∃ c, p c = true ∧ text = c :: rest ∧ caps' = caps := by
  constructor
  · rintro ⟨hc⟩
    exact ⟨_, hc, rfl, rfl⟩
  · rintro ⟨c, hc, rfl, rfl⟩
    exact .one hc

theorem matches_many {p : Char → Bool} {greedy : Bool} : Matches (.many p greedy) text caps rest caps' ↔
    ∃ xs, (∀ c ∈ xs, p c = true) ∧ text = xs ++ rest ∧ caps' = caps := by
  constructor
  · intro h
    cases h with
    | many hxs => exact ⟨_, hxs, rfl, rfl⟩
  · rintro ⟨xs, hxs, rfl, rfl⟩
    exact .many hxs

theorem matches_seq : Matches (.seq x y) text caps rest caps' ↔
    ∃ mid caps₁, Matches x text caps mid caps₁ ∧ Matches y mid caps₁ rest caps' := by
  constructor
  · intro h
    cases h with
    | seq hx hy => exact ⟨_, _, hx, hy⟩
  · rintro ⟨mid, caps₁, hx, hy⟩
    exact .seq hx hy

theorem matches_group {name : String} : Matches (.group name x) text caps rest caps' ↔
    ∃ xs caps₁, text = xs ++ rest ∧ Matches x text caps rest caps₁ ∧ caps' = (name, xs) :: caps₁ := by
  constructor
  · intro h
    cases h with
    | group hx => exact ⟨_, _, rfl, hx, rfl⟩
  · rintro ⟨xs, caps₁, rfl, hx, rfl⟩
    exact .group hx

/-- What `plus` matches. -/
theorem matches_plus {p : Char → Bool} : Matches (plus p) text caps rest caps' ↔
    ∃ xs, xs ≠ [] ∧ (∀ c ∈ xs, p c = true) ∧ text = xs ++ rest ∧ caps' = caps := by
  rw [plus, matches_seq]
  constructor
  · rintro ⟨mid, caps₁, hone, hmany⟩
    obtain ⟨c, hc, rfl, rfl⟩ := matches_one.mp hone
    obtain ⟨xs, hxs, rfl, rfl⟩ := matches_many.mp hmany
    exact ⟨c :: xs, by simp, by simpa [hc] using hxs, rfl, rfl⟩
  · rintro ⟨xs, hne, hxs, rfl, rfl⟩
    cases xs with
    | nil => exact absurd rfl hne
    | cons c xs =>
      rw [List.forall_mem_cons] at hxs
      exact ⟨xs ++ rest, caps', .one hxs.1, .many hxs.2⟩

/-- What `literal` matches. -/
theorem matches_literal {cs : List Char} : Matches (literal cs y) text caps rest caps' ↔
    ∃ mid, text = cs ++ mid ∧ Matches y mid caps rest caps' := by
  induction cs generalizing text with
  | nil =>
    constructor
    · exact fun h => ⟨text, rfl, h⟩
    · rintro ⟨mid, rfl, h⟩
      exact h
  | cons c cs ih =>
    rw [literal, matches_seq]
    constructor
    · rintro ⟨mid, caps₁, hone, hrest⟩
      obtain ⟨c', hc, rfl, rfl⟩ := matches_one.mp hone
      obtain rfl : c' = c := of_decide_eq_true hc
      obtain ⟨mid', rfl, h⟩ := ih.mp hrest
      exact ⟨mid', rfl, h⟩
    · rintro ⟨mid, rfl, h⟩
      exact ⟨cs ++ mid, caps, .one (decide_eq_true rfl), ih.mpr ⟨mid, rfl, h⟩⟩

/-- What `times` matches. -/
theorem matches_times {p : Char → Bool} {n : ℕ} : Matches (times p n) text caps rest caps' ↔
    ∃ xs, xs.length = n + 1 ∧ (∀ c ∈ xs, p c = true) ∧ text = xs ++ rest ∧ caps' = caps := by
  induction n generalizing text with
  | zero =>
    rw [times, matches_one]
    constructor
    · rintro ⟨c, hc, rfl, rfl⟩
      exact ⟨[c], rfl, by simpa using hc, rfl, rfl⟩
    · rintro ⟨xs, hlen, hxs, rfl, rfl⟩
      obtain ⟨c, rfl⟩ := List.length_eq_one_iff.mp hlen
      exact ⟨c, hxs c (List.mem_singleton_self c), rfl, rfl⟩
  | succ n ih =>
    rw [times, matches_seq]
    constructor
    · rintro ⟨mid, caps₁, hone, hrest⟩
      obtain ⟨c, hc, rfl, rfl⟩ := matches_one.mp hone
      obtain ⟨xs, hlen, hxs, rfl, rfl⟩ := ih.mp hrest
      exact ⟨c :: xs, congrArg Nat.succ hlen, List.forall_mem_cons.mpr ⟨hc, hxs⟩, rfl, rfl⟩
    · rintro ⟨xs, hlen, hxs, rfl, rfl⟩
      cases xs with
      | nil => exact absurd hlen (by simp)
      | cons c xs =>
        rw [List.forall_mem_cons] at hxs
        exact ⟨xs ++ rest, caps', .one hxs.1, ih.mpr ⟨xs, Nat.succ.inj hlen, hxs.2, rfl, rfl⟩⟩

/-- What a match leaves is a suffix of the text. -/
theorem Matches.suffix (h : Matches x text caps rest caps') : ∃ xs, text = xs ++ rest := by
  induction h with
  | @one p c rest caps h => exact ⟨[c], rfl⟩
  | @many p greedy xs rest caps h => exact ⟨xs, rfl⟩
  | seq _ _ ihx ihy =>
    obtain ⟨xs, rfl⟩ := ihx
    obtain ⟨ys, rfl⟩ := ihy
    exact ⟨xs ++ ys, by rw [List.append_assoc]⟩
  | @group name x xs rest caps caps' h ih => exact ⟨xs, rfl⟩

theorem execMany_sound {p : Char → Bool} {greedy : Bool} {k : List Char → Option α} {a : α}
    (h : execMany p greedy k text = some a) :
    ∃ xs rest, text = xs ++ rest ∧ (∀ c ∈ xs, p c = true) ∧ k rest = some a := by
  induction text with
  | nil => exact ⟨[], [], rfl, by simp, h⟩
  | cons c cs ih =>
    have here : k (c :: cs) = some a → ∃ xs rest, c :: cs = xs ++ rest ∧
        (∀ c ∈ xs, p c = true) ∧ k rest = some a := fun hk => ⟨[], c :: cs, rfl, by simp, hk⟩
    have later : p c = true → execMany p greedy k cs = some a → ∃ xs rest, c :: cs = xs ++ rest ∧
        (∀ c ∈ xs, p c = true) ∧ k rest = some a := by
      intro hp hm
      obtain ⟨xs, rest, rfl, hxs, hk⟩ := ih hm
      exact ⟨c :: xs, rest, rfl, by simpa [hp] using hxs, hk⟩
    simp only [execMany] at h
    split_ifs at h with hp hg
    · rcases Option.or_eq_some_iff.mp h with hm | ⟨-, hk⟩
      · exact later hp hm
      · exact here hk
    · rcases Option.or_eq_some_iff.mp h with hk | ⟨-, hm⟩
      · exact here hk
      · exact later hp hm
    · exact here h

/-- What the engine finds is a match. -/
theorem exec_sound {k : List Char → Captures → Option α} {a : α} (h : x.exec text caps k = some a) :
    ∃ rest caps', Matches x text caps rest caps' ∧ k rest caps' = some a := by
  induction x generalizing text caps k with
  | one p =>
    cases text with
    | nil => exact absurd h (by simp [Pattern.exec])
    | cons c cs =>
      simp only [Pattern.exec] at h
      split_ifs at h with hp
      exact ⟨cs, caps, .one hp, h⟩
  | many p greedy =>
    obtain ⟨xs, rest, rfl, hxs, hk⟩ := execMany_sound h
    exact ⟨rest, caps, .many hxs, hk⟩
  | seq x y ihx ihy =>
    obtain ⟨mid, caps₁, hx, hk⟩ := ihx h
    obtain ⟨rest, caps₂, hy, hk⟩ := ihy hk
    exact ⟨rest, caps₂, .seq hx hy, hk⟩
  | group name x ih =>
    obtain ⟨rest, caps', hx, hk⟩ := ih h
    obtain ⟨xs, rfl⟩ := hx.suffix
    refine ⟨rest, _, .group hx, ?_⟩
    rw [← hk, List.length_append, Nat.add_sub_cancel, List.take_left]

/-- What a search finds is a match somewhere in the text. -/
theorem search_sound (h : x.search text = some caps) :
    ∃ before here rest, text = before ++ here ∧ Matches x here [] rest caps := by
  induction text with
  | nil =>
    obtain ⟨rest, caps', hm, hk⟩ := exec_sound h
    obtain rfl := Option.some.inj hk
    exact ⟨[], [], rest, rfl, hm⟩
  | cons c cs ih =>
    rcases Option.or_eq_some_iff.mp h with hx | ⟨-, hs⟩
    · obtain ⟨rest, caps', hm, hk⟩ := exec_sound hx
      obtain rfl := Option.some.inj hk
      exact ⟨[], c :: cs, rest, rfl, hm⟩
    · obtain ⟨before, here, rest, rfl, hm⟩ := ih hs
      exact ⟨c :: before, here, rest, rfl, hm⟩

/-! ## Completeness -/

theorem execMany_complete {p : Char → Bool} {greedy : Bool} {k : List Char → Option α} {xs : List Char}
    (hxs : ∀ c ∈ xs, p c = true) (hk : (k rest).isSome) :
    (execMany p greedy k (xs ++ rest)).isSome := by
  induction xs with
  | nil =>
    cases rest with
    | nil => exact hk
    | cons c cs =>
      rw [List.nil_append]
      simp only [execMany]
      split_ifs <;> simp [hk]
  | cons c xs ih =>
    rw [List.forall_mem_cons] at hxs
    have hmore := ih hxs.2
    simp only [List.cons_append, execMany, hxs.1, if_true]
    split_ifs <;> simp [hmore]

/-- The engine finds a match when there is one that the continuation accepts. -/
theorem exec_complete {k : List Char → Captures → Option α} (h : Matches x text caps rest caps')
    (hk : (k rest caps').isSome) : (x.exec text caps k).isSome := by
  induction h generalizing k with
  | one hp => simpa [Pattern.exec, hp] using hk
  | many hxs => exact execMany_complete hxs hk
  | seq _ _ ihx ihy => exact ihx (ihy hk)
  | @group name x xs rest caps caps' _ ih =>
    refine ih ?_
    rw [List.length_append, Nat.add_sub_cancel, List.take_left]
    exact hk

/-- There is a match at the head of the text. -/
def Pattern.MatchesAt (x : Pattern) (here : List Char) : Prop :=
  ∃ rest caps, Matches x here [] rest caps

theorem exec_isSome : (x.exec text [] fun _ caps => some caps).isSome ↔ x.MatchesAt text := by
  constructor
  · intro h
    obtain ⟨caps, hx⟩ := Option.isSome_iff_exists.mp h
    obtain ⟨rest, caps', hm, -⟩ := exec_sound hx
    exact ⟨rest, caps', hm⟩
  · rintro ⟨rest, caps, hm⟩
    exact exec_complete hm rfl

/-- **The leftmost match**: a search finds a match, and nothing before it starts one. -/
theorem search_first (h : x.search text = some caps) : ∃ before here rest, text = before ++ here ∧
    Matches x here [] rest caps ∧ ∀ before' here', text = before' ++ here' →
      before'.length < before.length → ¬ x.MatchesAt here' := by
  induction text with
  | nil =>
    obtain ⟨rest, caps', hm, hk⟩ := exec_sound h
    obtain rfl := Option.some.inj hk
    exact ⟨[], [], rest, rfl, hm, fun _ _ _ hlt => absurd hlt (by simp)⟩
  | cons c cs ih =>
    rcases Option.or_eq_some_iff.mp h with hx | ⟨hnone, hs⟩
    · obtain ⟨rest, caps', hm, hk⟩ := exec_sound hx
      obtain rfl := Option.some.inj hk
      exact ⟨[], c :: cs, rest, rfl, hm, fun _ _ _ hlt => absurd hlt (by simp)⟩
    · obtain ⟨before, here, rest, rfl, hm, hfirst⟩ := ih hs
      refine ⟨c :: before, here, rest, rfl, hm, fun before' here' htext hlt hat => ?_⟩
      cases before' with
      | nil =>
        obtain rfl : here' = c :: (before ++ here) := htext.symm
        rw [← exec_isSome, hnone] at hat
        exact absurd hat (by simp)
      | cons c' before' =>
        exact hfirst before' here' (List.cons.inj htext).2 (Nat.lt_of_succ_lt_succ hlt) hat

/-- A search finds something exactly when some suffix of the text has a match. -/
theorem search_isSome :
    (x.search text).isSome ↔ ∃ before here, text = before ++ here ∧ x.MatchesAt here := by
  constructor
  · intro h
    obtain ⟨caps, hs⟩ := Option.isSome_iff_exists.mp h
    obtain ⟨before, here, rest, htext, hm⟩ := search_sound hs
    exact ⟨before, here, htext, rest, caps, hm⟩
  · rintro ⟨before, here, rfl, hat⟩
    induction before with
    | nil =>
      have hx := exec_isSome.mpr hat
      cases here with
      | nil => exact hx
      | cons c cs =>
        simp only [List.nil_append, Pattern.search]
        rw [Option.isSome_or, hx, Bool.true_or]
    | cons c before ih =>
      simp only [List.cons_append, Pattern.search]
      rw [Option.isSome_or, ih, Bool.or_true]

/-! ## Related texts -/

section Related

variable {β : Type} {R : Char → Char → Prop} {text' : List Char}

/-- The classes of the pattern do not tell related characters apart. -/
def Pattern.Respects (R : Char → Char → Prop) : Pattern → Prop
  | .one p | .many p _ => ∀ a b, R a b → p a = p b
  | .seq x y => x.Respects R ∧ y.Respects R
  | .group _ x => x.Respects R

theorem respects_plus {p : Char → Bool} (h : ∀ a b, R a b → p a = p b) : (plus p).Respects R := ⟨h, h⟩

theorem respects_times {p : Char → Bool} (h : ∀ a b, R a b → p a = p b) (n : ℕ) :
    (times p n).Respects R := by
  induction n with
  | zero => exact h
  | succ n ih => exact ⟨h, ih⟩

theorem respects_literal {cs : List Char} (h : ∀ c ∈ cs, ∀ a b, R a b → (a = c ↔ b = c))
    (hx : x.Respects R) : (literal cs x).Respects R := by
  induction cs with
  | nil => exact hx
  | cons c cs ih =>
    rw [List.forall_mem_cons] at h
    exact ⟨fun a b hab => decide_eq_decide.mpr (h.1 a b hab), ih h.2⟩

/-- The same groups with related texts. -/
def Captures.Related (R : Char → Char → Prop) : Captures → Captures → Prop :=
  List.Forall₂ fun a b => a.1 = b.1 ∧ List.Forall₂ R a.2 b.2

theorem rel_or {Q : α → β → Prop} {a a' : Option α} {b b' : Option β} (h : Option.Rel Q a b)
    (h' : Option.Rel Q a' b') : Option.Rel Q (a.or a') (b.or b') := by
  cases h with
  | some h => exact .some h
  | none => exact h'

theorem execMany_related {p : Char → Bool} {greedy : Bool} {k : List Char → Option α}
    {k' : List Char → Option β} {Q : α → β → Prop} (hp : ∀ a b, R a b → p a = p b)
    (htext : List.Forall₂ R text text')
    (hk : ∀ rest rest', List.Forall₂ R rest rest' → Option.Rel Q (k rest) (k' rest')) :
    Option.Rel Q (execMany p greedy k text) (execMany p greedy k' text') := by
  induction htext with
  | nil => exact hk [] [] .nil
  | @cons a b as bs hab htail ih =>
    have hhere := hk (a :: as) (b :: bs) (.cons hab htail)
    simp only [execMany, hp a b hab]
    split_ifs
    · exact rel_or ih hhere
    · exact rel_or hhere ih
    · exact hhere

/-- The engine does the same on related texts. -/
theorem exec_related {k : List Char → Captures → Option α} {k' : List Char → Captures → Option β}
    {Q : α → β → Prop} (hx : x.Respects R) (htext : List.Forall₂ R text text')
    (hcaps : Captures.Related R caps caps')
    (hk : ∀ rest rest' caps caps', List.Forall₂ R rest rest' → Captures.Related R caps caps' →
      Option.Rel Q (k rest caps) (k' rest' caps')) :
    Option.Rel Q (x.exec text caps k) (x.exec text' caps' k') := by
  induction x generalizing text text' caps caps' k k' with
  | one p =>
    cases htext with
    | nil => exact .none
    | @cons a b as bs hab htail =>
      simp only [Pattern.exec, hx a b hab]
      split_ifs
      · exact hk as bs caps caps' htail hcaps
      · exact .none
  | many p greedy =>
    exact execMany_related hx htext fun rest rest' hrest => hk rest rest' caps caps' hrest hcaps
  | seq x y ihx ihy =>
    refine ihx hx.1 htext hcaps fun rest rest' caps caps' hrest hcaps => ?_
    exact ihy hx.2 hrest hcaps hk
  | group name x ih =>
    refine ih hx htext hcaps fun rest rest' caps caps' hrest hcaps => ?_
    refine hk rest rest' _ _ hrest (.cons ⟨rfl, ?_⟩ hcaps)
    rw [htext.length_eq, hrest.length_eq]
    exact List.forall₂_take _ htext

/-- **Related texts have related matches.** -/
theorem search_related (hx : x.Respects R) (htext : List.Forall₂ R text text') :
    Option.Rel (Captures.Related R) (x.search text) (x.search text') := by
  have hat : ∀ {t t' : List Char}, List.Forall₂ R t t' →
      Option.Rel (Captures.Related R) (x.exec t [] fun _ caps => some caps)
        (x.exec t' [] fun _ caps => some caps) := fun h =>
    exec_related hx h .nil fun _ _ _ _ _ hcaps => .some hcaps
  induction htext with
  | nil => exact hat .nil
  | cons hab htail ih => exact rel_or (hat (.cons hab htail)) ih

theorem Captures.Related.lookup (h : Captures.Related R caps caps') (name : String) :
    Option.Rel (List.Forall₂ R) (caps.lookup name) (caps'.lookup name) := by
  induction h with
  | nil => exact .none
  | @cons a b as bs hab _ ih =>
    obtain ⟨n, xs⟩ := a
    obtain ⟨n', ys⟩ := b
    obtain ⟨rfl, hxs⟩ := hab
    rw [List.lookup_cons, List.lookup_cons]
    cases hname : name == n with
    | true => exact .some hxs
    | false => exact ih

end Related

end Regex
