import PaymentRecon.Auth.Types

/-!
# Types — users, and how their fields are checked

The columns of `users/models.py` that a response reads, and the constraints of `pydantic.Field`.  A check
answers the errors it found; a value that passes has none.
-/

namespace PaymentRecon

namespace Users

/-! ## Rows -/

structure User extends Auth.User where
  telegramId : Option ℤ
  name : String
  admin : Bool
  isActive : Bool
  joinedAt : ℕ
  deriving DecidableEq

/-- The table, and the sequence of its ids.  The columns `telegram_id` and `username` are unique. -/
structure UserTable where
  rows : List User
  next : Id
  pos : 1 ≤ next
  ids : ∀ u ∈ rows, 1 ≤ u.id ∧ u.id < next
  nodup : (rows.map (·.id)).Nodup
  telegramIds : (rows.filterMap (·.telegramId)).Nodup
  usernames : (rows.filterMap (·.username)).Nodup

/-- `SELECT .. FROM users ORDER BY id`. -/
def UserTable.ordered (t : UserTable) : List User := t.rows.mergeSort fun u v => u.id ≤ v.id

/-! ## Checks -/

/-- An error of pydantic: the path of the field, and the message. -/
structure ValidationError where
  loc : List String
  msg : String
  deriving DecidableEq

abbrev Validated (α : Type) := Except (List ValidationError) α

/-- The error, unless the check passes. -/
def errorUnless (ok : Prop) [Decidable ok] (e : ValidationError) : List ValidationError :=
  if ok then [] else [e]

/-- `Field(ge=.., le=..)` of an integer. -/
def checkInt (field : String) (ge le : Option ℤ) (n : ℤ) : List ValidationError :=
  (ge.toList.flatMap fun b =>
    errorUnless (b ≤ n) ⟨[field], s!"Input should be greater than or equal to {b}"⟩) ++
  le.toList.flatMap fun b => errorUnless (n ≤ b) ⟨[field], s!"Input should be less than or equal to {b}"⟩

/-- `Field(min_length=.., max_length=..)`. -/
def checkLength (field : String) (lo hi : ℕ) (s : String) : List ValidationError :=
  errorUnless (lo ≤ s.length) ⟨[field], s!"String should have at least {lo} characters"⟩ ++
  errorUnless (s.length ≤ hi) ⟨[field], s!"String should have at most {hi} characters"⟩

/-- A validator of a field runs when the checks of the field pass. -/
def thenValidate (checks validator : List ValidationError) : List ValidationError :=
  if checks = [] then validator else checks

@[simp] theorem errorUnless_eq_nil {ok : Prop} [Decidable ok] {e : ValidationError} :
    errorUnless ok e = [] ↔ ok := by
  unfold errorUnless
  split_ifs with h
  · simp [h]
  · simp [h]

@[simp] theorem checkInt_eq_nil {field : String} {ge le : Option ℤ} {n : ℤ} :
    checkInt field ge le n = [] ↔ (∀ b ∈ ge, b ≤ n) ∧ ∀ b ∈ le, n ≤ b := by
  simp [checkInt]

@[simp] theorem checkLength_eq_nil {field : String} {lo hi : ℕ} {s : String} :
    checkLength field lo hi s = [] ↔ lo ≤ s.length ∧ s.length ≤ hi := by
  simp [checkLength]

@[simp] theorem thenValidate_eq_nil {checks validator : List ValidationError} :
    thenValidate checks validator = [] ↔ checks = [] ∧ validator = [] := by
  unfold thenValidate
  split_ifs with h
  · simp [h]
  · simp [h]

theorem loc_of_errorUnless {ok : Prop} [Decidable ok] {e x : ValidationError}
    (h : x ∈ errorUnless ok e) : x = e := by
  unfold errorUnless at h
  split_ifs at h
  · exact absurd h (by simp)
  · exact List.mem_singleton.mp h

/-- Every error names the field. -/
theorem loc_of_checkInt {field : String} {ge le : Option ℤ} {n : ℤ} {e : ValidationError}
    (h : e ∈ checkInt field ge le n) : e.loc = [field] := by
  rcases List.mem_append.mp h with h | h
  · obtain ⟨b, -, hb⟩ := List.mem_flatMap.mp h
    rw [loc_of_errorUnless hb]
  · obtain ⟨b, -, hb⟩ := List.mem_flatMap.mp h
    rw [loc_of_errorUnless hb]

theorem loc_of_checkLength {field : String} {lo hi : ℕ} {s : String} {e : ValidationError}
    (h : e ∈ checkLength field lo hi s) : e.loc = [field] := by
  rcases List.mem_append.mp h with h | h
  · rw [loc_of_errorUnless h]
  · rw [loc_of_errorUnless h]

theorem loc_of_thenValidate {checks validator : List ValidationError} {loc : List String}
    {e : ValidationError} (hc : ∀ e ∈ checks, e.loc = loc) (hv : ∀ e ∈ validator, e.loc = loc)
    (h : e ∈ thenValidate checks validator) : e.loc = loc := by
  unfold thenValidate at h
  split_ifs at h
  · exact hv e h
  · exact hc e h

/-! ## The parameters of a page -/

/-- The schema `CursorParams`. -/
structure CursorParams where
  cursor : Option ℤ
  limit : ℕ
  cursor_le : ∀ c ∈ cursor, c ≤ 20000
  limit_le : limit ≤ 100

def CursorParams.errors (cursor : Option ℤ) (limit : ℤ) : List ValidationError :=
  cursor.toList.flatMap (checkInt "cursor" none (some 20000)) ++
    checkInt "limit" (some 0) (some 100) limit

theorem CursorParams.errors_eq_nil {cursor : Option ℤ} {limit : ℤ} :
    CursorParams.errors cursor limit = [] ↔ (∀ c ∈ cursor, c ≤ 20000) ∧ 0 ≤ limit ∧ limit ≤ 100 := by
  simp [CursorParams.errors]

def CursorParams.validate (cursor : Option ℤ) (limit : ℤ) : Validated CursorParams :=
  if h : CursorParams.errors cursor limit = [] then
    have hok := CursorParams.errors_eq_nil.mp h
    .ok ⟨cursor, limit.toNat, hok.1, Int.toNat_le.mpr hok.2.2⟩
  else .error (CursorParams.errors cursor limit)

theorem CursorParams.validate_ok {cursor : Option ℤ} {limit : ℤ} :
    (∃ params, CursorParams.validate cursor limit = .ok params) ↔
      (∀ c ∈ cursor, c ≤ 20000) ∧ 0 ≤ limit ∧ limit ≤ 100 := by
  rw [← CursorParams.errors_eq_nil]
  unfold CursorParams.validate
  split_ifs with h
  · simp [h]
  · simp [h]

/-- The schema `CursorResponse`. -/
structure CursorResponse (α : Type) where
  items : List α
  nextCursor : Option Id
  hasMore : Bool

end Users

end PaymentRecon
