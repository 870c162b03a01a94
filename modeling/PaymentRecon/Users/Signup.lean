import PaymentRecon.Model.Sms
import PaymentRecon.Users.Types

/-!
# Signup — the two ways to create a user

`POST /users/telegram` and `POST /users/register` leave different columns null.  The users of a run of such
requests are those that a successful one created.
-/

namespace PaymentRecon

namespace Users

/-! ## Requests -/

/-- `str.strip()`. -/
def strip (s : String) : String :=
  String.ofList ((s.toList.dropWhile isSpace).reverse.dropWhile isSpace).reverse

/-- The schema `UserRegisterSchema`. -/
structure UserRegisterSchema where
  username : String
  password : String
  name : String

def UserRegisterSchema.errors (username password name : String) : List ValidationError :=
  thenValidate (checkLength "username" 5 50 username)
      (errorUnless (strip username ≠ "") ⟨["username"], "Value error, Username cannot be empty"⟩) ++
    checkLength "password" 8 50 password ++ checkLength "name" 2 50 name

def UserRegisterSchema.validate (username password name : String) : Validated UserRegisterSchema :=
  if UserRegisterSchema.errors username password name = [] then .ok ⟨strip username, password, name⟩
  else .error (UserRegisterSchema.errors username password name)

/-- The schema `UserTelegramSchema`. -/
structure UserTelegramSchema where
  telegramId : ℤ
  username : Option String
  name : String

def UserTelegramSchema.errors (telegramId : ℤ) (username : Option String) (name : String) :
    List ValidationError :=
  thenValidate (checkInt "telegram_id" (some 100) (some 99999999999999999999) telegramId)
      (errorUnless (100 < telegramId) ⟨["telegram_id"], "Value error, telegram_id must be greater "⟩) ++
    username.toList.flatMap (checkLength "username" 2 100) ++
    thenValidate (checkLength "name" 2 100 name)
      (errorUnless (strip name ≠ "") ⟨["name"], "Value error, Name cannot be empty"⟩)

def UserTelegramSchema.validate (telegramId : ℤ) (username : Option String) (name : String) :
    Validated UserTelegramSchema :=
  if UserTelegramSchema.errors telegramId username name = [] then .ok ⟨telegramId, username, strip name⟩
  else .error (UserTelegramSchema.errors telegramId username name)

/-- Every error names a field of the body. -/
theorem UserRegisterSchema.loc_errors {username password name : String} {e : ValidationError}
    (h : e ∈ UserRegisterSchema.errors username password name) :
    e.loc ∈ [["username"], ["password"], ["name"]] := by
  rcases List.mem_append.mp h with h | h
  · rcases List.mem_append.mp h with h | h
    · have hloc : e.loc = ["username"] := loc_of_thenValidate (fun e he => loc_of_checkLength he)
        (fun e he => congrArg ValidationError.loc (loc_of_errorUnless he)) h
      simp [hloc]
    · simp [loc_of_checkLength h]
  · simp [loc_of_checkLength h]

theorem UserTelegramSchema.loc_errors {telegramId : ℤ} {username : Option String} {name : String}
    {e : ValidationError} (h : e ∈ UserTelegramSchema.errors telegramId username name) :
    e.loc ∈ [["telegram_id"], ["username"], ["name"]] := by
  rcases List.mem_append.mp h with h | h
  · rcases List.mem_append.mp h with h | h
    · have hloc : e.loc = ["telegram_id"] := loc_of_thenValidate (fun e he => loc_of_checkInt he)
        (fun e he => congrArg ValidationError.loc (loc_of_errorUnless he)) h
      simp [hloc]
    · obtain ⟨s, -, hs⟩ := List.mem_flatMap.mp h
      simp [loc_of_checkLength hs]
  · have hloc : e.loc = ["name"] := loc_of_thenValidate (fun e he => loc_of_checkLength he)
      (fun e he => congrArg ValidationError.loc (loc_of_errorUnless he)) h
    simp [hloc]

inductive HttpError
  | unprocessable (errors : List ValidationError)
  | conflict (detail : String)
  | responseValidation (errors : List ValidationError)
  | internal (e : Exc)

/-! ## Insertion -/

/-- The columns of a new row. -/
structure NewUser where
  telegramId : Option ℤ
  username : Option String
  hashedPassword : Option String
  name : String

/-- The row, with the defaults of `admin` and `is_active`. -/
def NewUser.row (n : NewUser) (id : Id) (now : ℕ) : User where
  id := id
  username := n.username
  hashedPassword := n.hashedPassword
  telegramId := n.telegramId
  name := n.name
  admin := false
  isActive := true
  joinedAt := now

/-- The values are in the range of `BigInteger`, `String(50)`, `String(255)` and `String(100)`. -/
def NewUser.Fits (n : NewUser) : Prop :=
  (∀ i ∈ n.telegramId, -9223372036854775808 ≤ i ∧ i ≤ 9223372036854775807) ∧
  (∀ s ∈ n.username, s.length ≤ 50) ∧ (∀ s ∈ n.hashedPassword, s.length ≤ 255) ∧ n.name.length ≤ 100

instance (n : NewUser) : Decidable n.Fits := inferInstanceAs (Decidable (_ ∧ _ ∧ _ ∧ _))

/-- No unique column has the value already. -/
def UserTable.Free (t : UserTable) (n : NewUser) : Prop :=
  (∀ i ∈ n.telegramId, i ∉ t.rows.filterMap (·.telegramId)) ∧
  ∀ s ∈ n.username, s ∉ t.rows.filterMap (·.username)

instance (t : UserTable) (n : NewUser) : Decidable (t.Free n) := inferInstanceAs (Decidable (_ ∧ _))

theorem nodup_append_toList {α : Type} {xs : List α} {x : Option α} (h : xs.Nodup)
    (hx : ∀ y ∈ x, y ∉ xs) : (xs ++ x.toList).Nodup := by
  cases x with
  | none => simpa using h
  | some y =>
    refine List.nodup_append.mpr ⟨h, by simp, fun a ha b hb hab => ?_⟩
    obtain rfl : b = y := by simpa using hb
    exact hx b rfl (hab ▸ ha)

theorem filterMap_singleton {α β : Type} (f : α → Option β) (x : α) :
    [x].filterMap f = (f x).toList := by
  cases hx : f x with
  | none => simp [hx]
  | some y => simp [hx]

def UserTable.insert (t : UserTable) (n : NewUser) (now : ℕ) (h : t.Free n) : UserTable where
  rows := t.rows ++ [n.row t.next now]
  next := t.next + 1
  pos := t.pos.trans (Int.lt_succ _).le
  ids := by
    intro u hu
    rcases List.mem_append.mp hu with hu | hu
    · exact ⟨(t.ids u hu).1, (t.ids u hu).2.trans (Int.lt_succ _)⟩
    · rw [List.mem_singleton.mp hu]
      exact ⟨t.pos, Int.lt_succ _⟩
  nodup := by
    rw [List.map_append, List.map_singleton, List.nodup_append]
    refine ⟨t.nodup, by simp, fun i hi j hj => ?_⟩
    obtain ⟨u, hu, rfl⟩ := List.mem_map.mp hi
    rw [List.mem_singleton.mp hj]
    exact (t.ids u hu).2.ne
  telegramIds := by
    rw [List.filterMap_append, filterMap_singleton]
    exact nodup_append_toList t.telegramIds h.1
  usernames := by
    rw [List.filterMap_append, filterMap_singleton]
    exact nodup_append_toList t.usernames h.2

/-- `session.flush()` of a new user, and its commit. -/
def UserTable.flush (t : UserTable) (n : NewUser) (now : ℕ) : Except Exc User × UserTable :=
  if ¬ n.Fits then (.error DataError, t)
  else if h : t.Free n then (.ok (n.row t.next now), t.insert n now h)
  else (.error IntegrityError, { t with
    next := t.next + 1
    pos := t.pos.trans (Int.lt_succ _).le
    ids := fun u hu => ⟨(t.ids u hu).1, (t.ids u hu).2.trans (Int.lt_succ _)⟩ })

/-! ## The services -/

inductive ServiceError
  | userAlreadyExistsError
  | usernameAlreadyExistsError
  | other (e : Exc)

/-- `except IntegrityError as exc: raise ..`. -/
def raiseFrom (e : Exc) (integrity : ServiceError) : ServiceError :=
  if e.kind = .integrityError then integrity else .other e

def createTelegramUserService (userData : UserTelegramSchema) (now : ℕ) (t : UserTable) :
    Except ServiceError User × UserTable :=
  let (result, t') := t.flush ⟨some userData.telegramId, userData.username, none, userData.name⟩ now
  (result.mapError fun e => raiseFrom e .userAlreadyExistsError, t')

def registerUserService (username hashedPassword name : String) (now : ℕ) (t : UserTable) :
    Except ServiceError User × UserTable :=
  let (result, t') := t.flush ⟨none, some username, some hashedPassword, name⟩ now
  (result.mapError fun e => raiseFrom e .usernameAlreadyExistsError, t')

/-- The `except` of the endpoints. -/
def ServiceError.http : ServiceError → HttpError
  | userAlreadyExistsError => .conflict "User already exists"
  | usernameAlreadyExistsError => .conflict "Username already exists"
  | other e => .internal e

/-! ## The endpoints -/

/-- A request, with the time of its insertion, and with the hash of the password. -/
inductive UserCall
  | telegram (telegramId : ℤ) (username : Option String) (name : String) (now : ℕ)
  | register (username password name hashedPassword : String) (now : ℕ)

def UserCall.run : UserCall → UserTable → Except HttpError User × UserTable
  | telegram telegramId username name now, t =>
    match UserTelegramSchema.validate telegramId username name with
    | .error errors => (.error (.unprocessable errors), t)
    | .ok user =>
      let (result, t') := createTelegramUserService user now t
      (result.mapError ServiceError.http, t')
  | register username password name hashedPassword now, t =>
    match UserRegisterSchema.validate username password name with
    | .error errors => (.error (.unprocessable errors), t)
    | .ok user =>
      let (result, t') := registerUserService user.username hashedPassword user.name now t
      (result.mapError ServiceError.http, t')

/-- `POST /users/register`. -/
def UserCall.IsRegister : UserCall → Prop
  | register _ _ _ _ _ => True
  | telegram _ _ _ _ => False

/-- `POST /users/telegram` without a username. -/
def UserCall.Nameless : UserCall → Prop
  | telegram _ username _ _ => username = none
  | register _ _ _ _ _ => False

def UserTable.empty : UserTable := ⟨[], 1, le_rfl, by simp, by simp, by simp, by simp⟩

/-- The table after the requests. -/
def runCalls (calls : List UserCall) : UserTable := calls.foldl (fun t c => (c.run t).2) UserTable.empty

/-- One of the requests, with the property, created the user. -/
def Created (calls : List UserCall) (K : UserCall → Prop) (id : Id) : Prop :=
  ∃ before c after u, calls = before ++ c :: after ∧ K c ∧ (c.run (runCalls before)).1 = .ok u ∧ u.id = id

/-! ## What the requests leave null -/

variable {t : UserTable} {u : User} {c : UserCall} {calls : List UserCall} {K : UserCall → Prop} {id : Id}

/-- An insertion is refused, or appends its row. -/
theorem flush_cases (t : UserTable) (n : NewUser) (now : ℕ) :
    (∃ e, (t.flush n now).1 = .error e ∧ (t.flush n now).2.rows = t.rows) ∨
      (t.flush n now).1 = .ok (n.row t.next now) ∧
        (t.flush n now).2.rows = t.rows ++ [n.row t.next now] := by
  unfold UserTable.flush
  by_cases hfits : n.Fits
  · rw [if_neg (not_not.mpr hfits)]
    by_cases hfree : t.Free n
    · rw [dif_pos hfree]
      exact Or.inr ⟨rfl, rfl⟩
    · rw [dif_neg hfree]
      exact Or.inl ⟨_, rfl, rfl⟩
  · rw [if_pos hfits]
    exact Or.inl ⟨_, rfl, rfl⟩

/-- Exactly these columns of the user are null. -/
def NullsOf (c : UserCall) (u : User) : Prop :=
  (u.telegramId = none ↔ c.IsRegister) ∧ (u.username = none ↔ c.Nameless)

/-- The validated body keeps whether there is a username. -/
theorem validate_username {telegramId : ℤ} {username : Option String} {name : String}
    {user : UserTelegramSchema} (h : UserTelegramSchema.validate telegramId username name = .ok user) :
    user.username = username := by
  unfold UserTelegramSchema.validate at h
  split_ifs at h
  exact (Except.ok.inj h) ▸ rfl

/-- **A request** is refused and creates no user, or appends the user it created. -/
theorem run_cases (c : UserCall) (t : UserTable) :
    (∃ e, (c.run t).1 = .error e ∧ (c.run t).2.rows = t.rows) ∨
      ∃ u, (c.run t).1 = .ok u ∧ (c.run t).2.rows = t.rows ++ [u] ∧ NullsOf c u := by
  cases c with
  | telegram telegramId username name now =>
    cases hv : UserTelegramSchema.validate telegramId username name with
    | error errors =>
      simp only [UserCall.run, hv]
      exact Or.inl ⟨_, rfl, trivial⟩
    | ok user =>
      have hname := validate_username hv
      simp only [UserCall.run, hv, createTelegramUserService]
      rcases flush_cases t ⟨some user.telegramId, user.username, none, user.name⟩ now with
        ⟨e, he, hrows⟩ | ⟨hok, hrows⟩
      · rw [he]
        exact Or.inl ⟨_, rfl, hrows⟩
      · rw [hok]
        refine Or.inr ⟨_, rfl, hrows, ?_⟩
        simp [NullsOf, NewUser.row, UserCall.IsRegister, UserCall.Nameless, hname]
  | register username password name hashedPassword now =>
    cases hv : UserRegisterSchema.validate username password name with
    | error errors =>
      simp only [UserCall.run, hv]
      exact Or.inl ⟨_, rfl, trivial⟩
    | ok user =>
      simp only [UserCall.run, hv, registerUserService]
      rcases flush_cases t ⟨none, some user.username, some hashedPassword, user.name⟩ now with
        ⟨e, he, hrows⟩ | ⟨hok, hrows⟩
      · rw [he]
        exact Or.inl ⟨_, rfl, hrows⟩
      · rw [hok]
        refine Or.inr ⟨_, rfl, hrows, ?_⟩
        simp [NullsOf, NewUser.row, UserCall.IsRegister, UserCall.Nameless]

theorem runCalls_concat (calls : List UserCall) (c : UserCall) :
    runCalls (calls ++ [c]) = (c.run (runCalls calls)).2 := by
  simp [runCalls]

/-- Users stay. -/
theorem rows_stay (before after : List UserCall) :
    (runCalls before).rows <+: (runCalls (before ++ after)).rows := by
  induction after using List.reverseRecOn with
  | nil => simp
  | append_singleton after c ih =>
    rw [← List.append_assoc, runCalls_concat]
    rcases run_cases c (runCalls (before ++ after)) with ⟨e, -, hrows⟩ | ⟨u, -, hrows, -⟩
    · rw [hrows]
      exact ih
    · rw [hrows]
      exact ih.trans (List.prefix_append _ _)

/-- Every user was created by a request, which left exactly these columns null. -/
theorem exists_call (h : u ∈ (runCalls calls).rows) :
    ∃ before c after, calls = before ++ c :: after ∧ (c.run (runCalls before)).1 = .ok u ∧ NullsOf c u := by
  induction calls using List.reverseRecOn with
  | nil => exact absurd h (by simp [runCalls, UserTable.empty])
  | append_singleton calls c ih =>
    rw [runCalls_concat] at h
    have hold : u ∈ (runCalls calls).rows → ∃ before c' after, calls ++ [c] = before ++ c' :: after ∧
        (c'.run (runCalls before)).1 = .ok u ∧ NullsOf c' u := by
      intro hu
      obtain ⟨before, c', after, rfl, hrun, hnulls⟩ := ih hu
      exact ⟨before, c', after ++ [c], by simp, hrun, hnulls⟩
    rcases run_cases c (runCalls calls) with ⟨e, -, hrows⟩ | ⟨v, hok, hrows, hnulls⟩
    · exact hold (hrows ▸ h)
    · rw [hrows] at h
      rcases List.mem_append.mp h with h | h
      · exact hold h
      · obtain rfl := List.mem_singleton.mp h
        exact ⟨calls, c, [], rfl, hok, hnulls⟩

/-- The user that a request created. -/
theorem exists_user (h : Created calls K id) :
    ∃ c u, K c ∧ u ∈ (runCalls calls).rows ∧ u.id = id ∧ NullsOf c u := by
  obtain ⟨before, c, after, u, rfl, hK, hrun, hid⟩ := h
  rcases run_cases c (runCalls before) with ⟨e, he, -⟩ | ⟨v, hok, hrows, hnulls⟩
  · exact absurd (he.symm.trans hrun) (by simp)
  · obtain rfl := Except.ok.inj (hok.symm.trans hrun)
    have hmem : v ∈ (runCalls (before ++ [c])).rows := by
      rw [runCalls_concat, hrows]
      simp
    have hstays := (rows_stay (before ++ [c]) after).subset hmem
    rw [List.append_assoc] at hstays
    exact ⟨c, v, hK, hstays, hid, hnulls⟩

theorem UserTable.eq_of_id {v : User} (hu : u ∈ t.rows) (hv : v ∈ t.rows) (h : u.id = v.id) : u = v :=
  List.inj_on_of_nodup_map t.nodup hu hv h

/-- The requests with the property are those that left the column null. -/
theorem created_iff {null : User → Prop} (hK : ∀ c u, NullsOf c u → (null u ↔ K c))
    (hu : u ∈ (runCalls calls).rows) : Created calls K u.id ↔ null u := by
  constructor
  · intro h
    obtain ⟨c, v, hc, hv, hid, hnulls⟩ := exists_user h
    obtain rfl := UserTable.eq_of_id hv hu hid
    exact (hK c v hnulls).mpr hc
  · intro h
    obtain ⟨before, c, after, rfl, hrun, hnulls⟩ := exists_call hu
    exact ⟨before, c, after, u, rfl, (hK c u hnulls).mp h, hrun, rfl⟩

theorem registered_iff (hu : u ∈ (runCalls calls).rows) :
    Created calls UserCall.IsRegister u.id ↔ u.telegramId = none :=
  created_iff (fun _ _ h => h.1) hu

theorem nameless_iff (hu : u ∈ (runCalls calls).rows) :
    Created calls UserCall.Nameless u.id ↔ u.username = none :=
  created_iff (fun _ _ h => h.2) hu

end Users

end PaymentRecon
