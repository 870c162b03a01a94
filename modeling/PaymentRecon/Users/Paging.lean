import PaymentRecon.Lib.Paging
import PaymentRecon.Users.Types

/-!
# Paging — the users page by page

`get_all_users` reads one row more than the page holds.  Its last id is the cursor of the next request,
which `CursorParams` checks.
-/

namespace PaymentRecon

namespace Users

open Paging

/-! ## The service -/

/-- `.where(User.id > cursor)`, if there is a cursor. -/
def afterCursor (cursor : Option ℤ) (u : User) : Bool :=
  match cursor with
  | none => true
  | some c => c < u.id

/-- `users[-1].id`. -/
def lastUserId (users : List User) : Except Exc Id :=
  match users.getLast? with
  | some u => .ok u.id
  | none => .error ⟨.indexError, "list index out of range"⟩

/-- The page, `next_cursor` and `has_more`. -/
def getAllUsers (cursor : Option ℤ) (limit : ℕ) (t : UserTable) :
    Except Exc (List User × Option Id × Bool) :=
  let users := (t.ordered.filter (afterCursor cursor)).take (limit + 1)
  if limit < users.length then do
    let users := users.take limit
    let nextCursor ← lastUserId users
    pure (users, some nextCursor, true)
  else pure (users, none, false)

/-! ## What a page is -/

variable {t : UserTable} {limit : ℕ} {cursor : Option ℤ}

theorem ordered_perm (t : UserTable) : t.ordered.Perm t.rows := List.mergeSort_perm _ _

theorem ordered_sorted (t : UserTable) : Sorted (fun u : User => u.id) t.ordered :=
  sorted_mergeSort t.nodup

theorem filter_afterCursor : t.ordered.filter (afterCursor cursor) =
    rest (fun u : User => u.id) cursor t.ordered := by
  refine List.filter_congr fun u _ => ?_
  cases cursor with
  | none => simp [afterCursor]
  | some c => simp [afterCursor]

/-- The look-ahead row decides. -/
theorem ahead_iff {xs : List User} : limit < (xs.take (limit + 1)).length ↔ limit < xs.length := by
  rw [List.length_take]
  omega

/-- **A page**: the first users after the cursor, and the last id if there are more. -/
theorem getAllUsers_eq (hn : 0 < limit) : getAllUsers cursor limit t =
    .ok (page (fun u : User => u.id) limit cursor t.ordered,
      if (lookAhead (fun u : User => u.id) hn).more cursor t.ordered then
        (page (fun u : User => u.id) limit cursor t.ordered).getLast?.map (·.id)
      else none,
      (lookAhead (fun u : User => u.id) hn).more cursor t.ordered) := by
  unfold getAllUsers
  rw [filter_afterCursor]
  by_cases hmany : limit < (rest (fun u : User => u.id) cursor t.ordered).length
  · have hmore : (lookAhead (fun u : User => u.id) hn).more cursor t.ordered = true :=
      decide_eq_true hmany
    obtain ⟨u, hu⟩ := Option.isSome_iff_exists.mp
      (List.getLast?_isSome.mpr ((lookAhead _ hn).goes hmore))
    have hpage : ((rest (fun u : User => u.id) cursor t.ordered).take (limit + 1)).take limit =
        page (fun u : User => u.id) limit cursor t.ordered := by
      rw [List.take_take, min_eq_left (Nat.le_succ limit)]
      rfl
    simp only [if_pos (ahead_iff.mpr hmany), hpage, hmore, hu, lastUserId]
    rfl
  · have hmore : (lookAhead (fun u : User => u.id) hn).more cursor t.ordered = false :=
      decide_eq_false hmany
    have hpage : (rest (fun u : User => u.id) cursor t.ordered).take (limit + 1) =
        page (fun u : User => u.id) limit cursor t.ordered := by
      rw [page, List.take_of_length_le (by omega), List.take_of_length_le (by omega)]
    have hfew := mt ahead_iff.mp hmany
    simp only [if_neg hfew]
    rw [hpage, hmore]
    rfl

/-- A limit of zero: the slice is empty, and its last row is asked for. -/
theorem getAllUsers_zero : getAllUsers cursor 0 t =
    if rest (fun u : User => u.id) cursor t.ordered = [] then .ok ([], none, false)
    else .error ⟨.indexError, "list index out of range"⟩ := by
  unfold getAllUsers
  rw [filter_afterCursor]
  cases hrest : rest (fun u : User => u.id) cursor t.ordered with
  | nil => rfl
  | cons u us => rfl

/-! ## The walk -/

/-- The cursors that are passed: none, and `next_cursor` of every page with `has_more`. -/
inductive UserCursor (limit : ℕ) (t : UserTable) : Option ℤ → Prop
  | first : UserCursor limit t none
  | next {cursor nextCursor : Option ℤ} {users : List User} (h : UserCursor limit t cursor)
      (hpage : getAllUsers cursor limit t = .ok (users, nextCursor, true)) :
      UserCursor limit t nextCursor

/-- The pages of the calls from a cursor on, up to the one without `has_more`. -/
inductive UserWalk (limit : ℕ) (t : UserTable) : Option ℤ → List (List User) → Prop
  | last {cursor nextCursor : Option ℤ} {users : List User}
      (h : getAllUsers cursor limit t = .ok (users, nextCursor, false)) :
      UserWalk limit t cursor [users]
  | next {cursor nextCursor : Option ℤ} {users : List User} {pages : List (List User)}
      (h : getAllUsers cursor limit t = .ok (users, nextCursor, true))
      (hw : UserWalk limit t nextCursor pages) : UserWalk limit t cursor (users :: pages)

/-- User paging is complete. -/
structure PagingComplete (limit : ℕ) (t : UserTable) : Prop where
  /-- No call raises. -/
  answers : ∀ cursor, UserCursor limit t cursor → ∃ out, getAllUsers cursor limit t = .ok out
  /-- `CursorParams` accepts every cursor that is passed. -/
  accepted : ∀ cursor, UserCursor limit t cursor →
    ∃ params, CursorParams.validate cursor limit = .ok params
  /-- `has_more` says whether users remain after the page. -/
  remain : ∀ cursor users nextCursor hasMore, UserCursor limit t cursor →
    getAllUsers cursor limit t = .ok (users, nextCursor, hasMore) →
      (hasMore = true ↔ ∃ u ∈ t.rows, afterCursor cursor u = true ∧ u ∉ users)
  /-- The walk ends and returns every user once, by id. -/
  complete : 1 ≤ limit → ∃ pages, UserWalk limit t none pages ∧
    (pages.flatten.map (·.id)).Pairwise (· < ·) ∧ pages.flatten.Perm t.rows

theorem userCursor_iff (hn : 0 < limit) :
    UserCursor limit t cursor ↔ Passed (lookAhead (fun u : User => u.id) hn) t.ordered cursor := by
  constructor
  · intro h
    induction h with
    | first => exact .first
    | @next cursor nextCursor users _ hpage ih =>
      rw [getAllUsers_eq hn] at hpage
      obtain ⟨-, hnext, hmore⟩ : _ ∧ _ ∧ _ := by simpa only [Except.ok.injEq, Prod.mk.injEq] using hpage
      rw [if_pos hmore] at hnext
      obtain ⟨u, hu⟩ := Option.isSome_iff_exists.mp
        (List.getLast?_isSome.mpr ((lookAhead _ hn).goes hmore))
      rw [hu] at hnext
      exact hnext ▸ .next ih hmore hu
  · intro h
    induction h with
    | first => exact .first
    | @next cursor u _ hmore hu ih =>
      have hpage : getAllUsers cursor limit t =
          .ok (page (fun u : User => u.id) limit cursor t.ordered, some u.id, true) := by
        rw [getAllUsers_eq hn, if_pos hmore, hu, hmore]
        rfl
      exact .next ih hpage

theorem userCursor_zero (h : UserCursor 0 t cursor) : cursor = none := by
  cases h with
  | first => rfl
  | next _ hpage =>
    rw [getAllUsers_zero] at hpage
    split_ifs at hpage
    exact absurd hpage (by simp)

theorem userWalk_of_walk (hn : 0 < limit) {lists pages : List (List User)}
    (h : Walk (lookAhead (fun u : User => u.id) hn) cursor lists pages)
    (hl : ∀ ys ∈ lists, ys = t.ordered) : UserWalk limit t cursor pages := by
  induction h with
  | @stop cursor xs hstop =>
    obtain rfl := hl xs (by simp)
    have hpage : getAllUsers cursor limit t =
        .ok (page (fun u : User => u.id) limit cursor t.ordered, none, false) := by
      rw [getAllUsers_eq hn, hstop]
      rfl
    exact .last hpage
  | @go cursor xs lists pages u hmore hu _ ih =>
    rw [List.forall_mem_cons] at hl
    obtain rfl := hl.1
    refine .next ?_ (ih hl.2)
    rw [getAllUsers_eq hn, if_pos hmore, hu, hmore]
    rfl

/-- Of a positive limit, only the cursors can be refused. -/
theorem paging_of_positive (hn : 0 < limit) (hlimit : limit ≤ 100)
    (h : ∀ c, UserCursor limit t (some c) → c ≤ 20000) : PagingComplete limit t where
  answers cursor _ := ⟨_, getAllUsers_eq hn⟩
  accepted cursor hcursor := by
    refine CursorParams.validate_ok.mpr ⟨fun c hc => ?_, by omega, by omega⟩
    obtain rfl := Option.mem_def.mp hc
    exact h c hcursor
  remain cursor users nextCursor hasMore _ hpage := by
    rw [getAllUsers_eq hn] at hpage
    obtain ⟨rfl, -, rfl⟩ : _ ∧ _ ∧ _ := by simpa only [Except.ok.injEq, Prod.mk.injEq] using hpage
    rw [lookAhead_iff (ordered_sorted t), ← filter_afterCursor]
    simp only [List.mem_filter, (ordered_perm t).mem_iff, and_assoc]
  complete _ := by
    obtain ⟨m, pages, hw⟩ := Walk.exists_of_finite (lookAhead (fun u : User => u.id) hn)
      (fun _ => t.ordered) (t.ordered.map (·.id)).toFinset
      (fun _ u hu => List.mem_toFinset.mpr (List.mem_map_of_mem hu)) none
    have hl : ∀ ys ∈ (List.range (m + 1)).map (fun _ => t.ordered), ys = t.ordered := by
      intro ys hys
      obtain ⟨_, -, rfl⟩ := List.mem_map.mp hys
      rfl
    have hall : pages.flatten = t.ordered := by
      rw [hw.eq_rest (ordered_sorted t) hl]
      simp [rest]
    refine ⟨pages, userWalk_of_walk hn hw hl, ?_, ?_⟩
    · rw [hall]
      exact ordered_sorted t
    · rw [hall]
      exact ordered_perm t

/-- A limit of zero answers one request, on an empty table. -/
theorem paging_zero : PagingComplete 0 t ↔ t.rows = [] := by
  have hnil : rest (fun u : User => u.id) none t.ordered = [] ↔ t.rows = [] := by
    have hrest : rest (fun u : User => u.id) none t.ordered = t.ordered := by simp [rest]
    rw [hrest]
    exact ⟨fun h => List.Perm.nil_eq (h ▸ ordered_perm t) ▸ rfl,
      fun h => (List.perm_nil.mp (h ▸ ordered_perm t))⟩
  constructor
  · intro h
    obtain ⟨out, hout⟩ := h.answers none .first
    rw [getAllUsers_zero] at hout
    split_ifs at hout with hempty
    exact hnil.mp hempty
  · intro h
    have hpage : getAllUsers none 0 t = .ok ([], none, false) := by
      rw [getAllUsers_zero, if_pos (hnil.mpr h)]
    refine ⟨?_, ?_, ?_, fun h0 => absurd h0 (by omega)⟩
    · intro cursor hcursor
      obtain rfl := userCursor_zero hcursor
      exact ⟨_, hpage⟩
    · intro cursor hcursor
      obtain rfl := userCursor_zero hcursor
      exact CursorParams.validate_ok.mpr ⟨fun c hc => absurd hc (by simp), by simp, by simp⟩
    · intro cursor users nextCursor hasMore hcursor hout
      obtain rfl := userCursor_zero hcursor
      rw [hpage] at hout
      obtain ⟨-, -, rfl⟩ : _ ∧ _ ∧ _ := by simpa only [Except.ok.injEq, Prod.mk.injEq] using hout
      simp [h]

/-- **User paging is complete** exactly when a limit of zero meets an empty table, and the full pages of
the walk end within the ids that `CursorParams` accepts. -/
theorem user_paging_complete_iff (params : CursorParams) (t : UserTable) :
    PagingComplete params.limit t ↔
      (params.limit = 0 → t.rows = []) ∧
        (t.rows.length - 1) / params.limit * params.limit ≤ t.rows.countP fun u => u.id ≤ 20000 := by
  rcases Nat.eq_zero_or_pos params.limit with h0 | hn
  · rw [h0, paging_zero]
    simp
  · have hcount : (t.ordered.length - 1) / params.limit * params.limit ≤
          t.ordered.countP (fun u => u.id ≤ 20000) ↔
        (t.rows.length - 1) / params.limit * params.limit ≤ t.rows.countP fun u => u.id ≤ 20000 := by
      rw [(ordered_perm t).length_eq, (ordered_perm t).countP_eq]
    rw [← hcount, ← passed_le_iff hn (ordered_sorted t) 20000]
    constructor
    · intro h
      refine ⟨fun h0 => absurd h0 (by omega), fun c hc => ?_⟩
      obtain ⟨hle, -⟩ := CursorParams.validate_ok.mp (h.accepted (some c) ((userCursor_iff hn).mpr hc))
      exact hle c rfl
    · rintro ⟨-, h⟩
      exact paging_of_positive hn params.limit_le fun c hc => h c ((userCursor_iff hn).mp hc)

/-- A user that signed up with Telegram. -/
def telegramUser (id : Id) (telegramId : ℤ) : User where
  id := id
  username := none
  hashedPassword := none
  telegramId := some telegramId
  name := "moraveji"
  admin := false
  isActive := true
  joinedAt := 0

/-- Two users whose ids are past the last cursor. -/
def lateUsers : UserTable where
  rows := [telegramUser 20001 101, telegramUser 20002 102]
  next := 20003
  pos := by decide
  ids := by decide
  nodup := by decide
  telegramIds := by decide
  usernames := by decide

/-- The first page of one user answers `next_cursor` 20001, which the next request refuses; a page of no
user raises `IndexError`. -/
theorem user_paging_incomplete : ¬ PagingComplete 1 lateUsers ∧ ¬ PagingComplete 0 lateUsers := by
  have hordered : lateUsers.ordered = lateUsers.rows := List.mergeSort_of_pairwise (by decide)
  have hone : getAllUsers none 1 lateUsers = .ok ([telegramUser 20001 101], some 20001, true) := by
    unfold getAllUsers
    rw [hordered]
    rfl
  have hzero : getAllUsers none 0 lateUsers = .error ⟨.indexError, "list index out of range"⟩ := by
    unfold getAllUsers
    rw [hordered]
    rfl
  constructor
  · intro h
    have hok := CursorParams.validate_ok.mp (h.accepted (some 20001) (.next .first hone))
    exact absurd (hok.1 20001 rfl) (by decide)
  · intro h
    obtain ⟨out, hout⟩ := h.answers none .first
    exact absurd (hzero.symm.trans hout) (by simp)

end Users

end PaymentRecon
