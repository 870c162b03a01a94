import PaymentRecon.Model.Types

/-!
# Types — users, refresh tokens and JSON web tokens

The data of `users/models.py` and of the tokens that `users/security.py` encodes.  Times are
microseconds; the claim `exp` of a JSON web token counts seconds.  The tokens are symbolic: a string
is a payload signed with `SECRET_KEY`, or `jwt.decode` rejects it with an exception of its own.
-/

namespace PaymentRecon

namespace Auth

abbrev Username := String

/-- `secrets.token_urlsafe`: the claim `jti` and the column `token_hash`. -/
abbrev Jti := String

/-- `uuid.UUID`. -/
abbrev FamilyId := ℕ

structure User where
  id : Id
  username : Option Username
  hashedPassword : Option String
  deriving DecidableEq

structure RefreshToken where
  id : Id
  userId : Id
  tokenHash : Jti
  expiresAt : ℕ
  isRevoked : Bool
  familyId : FamilyId
  deriving DecidableEq

structure Payload where
  type : Option String
  jti : Option Jti
  sub : Option Username
  exp : Option ℕ
  deriving DecidableEq

inductive Jwt
  | signed (payload : Payload)
  | rejected (e : Exc)
  deriving DecidableEq

/-- The schema `TokenResponse`; `token_type` is always `bearer`. -/
structure TokenResponse where
  accessToken : Jwt
  refreshToken : Jwt
  deriving DecidableEq

/-- The lifetimes of `core/config.py`. -/
structure Settings where
  accessTokenExpireMinutes : ℕ
  refreshTokenExpireDays : ℕ

def second : ℕ := 1000000

/-- `timedelta(minutes=ACCESS_TOKEN_EXPIRE_MINUTES)`. -/
def Settings.accessDelta (s : Settings) : ℕ := s.accessTokenExpireMinutes * 60 * second

/-- `timedelta(days=REFRESH_TOKEN_EXPIRE_DAYS)`. -/
def Settings.refreshDelta (s : Settings) : ℕ := s.refreshTokenExpireDays * 24 * 60 * 60 * second

/-- `if expires_delta: … else: …`: a missing delta is false, and so is one of zero. -/
def lifetime (expiresDelta : Option ℕ) (otherwise : ℕ) : ℕ :=
  match expiresDelta with
  | none => otherwise
  | some delta => if delta = 0 then otherwise else delta

/-- How long an access token lasts: a quarter of an hour if it is to last no minute. -/
def Settings.accessLifetime (s : Settings) : ℕ := lifetime (some s.accessDelta) (15 * 60 * second)

/-- How long a refresh token lasts: seven days if it is to last no day. -/
def Settings.refreshLifetime (s : Settings) : ℕ :=
  lifetime (some s.refreshDelta) (7 * 24 * 60 * 60 * second)

def ExpiredSignatureError : Exc := ⟨.expiredSignatureError, "Signature has expired"⟩

def Payload.Expired (x : Payload) (now : ℕ) : Prop := ∃ exp ∈ x.exp, exp * second ≤ now

instance (x : Payload) (now : ℕ) : Decidable (x.Expired now) :=
  inferInstanceAs (Decidable (∃ exp ∈ x.exp, exp * second ≤ now))

/-- `jwt.decode` at the time `now`. -/
def Jwt.decode (now : ℕ) : Jwt → Except Exc Payload
  | .signed payload => if payload.Expired now then .error ExpiredSignatureError else .ok payload
  | .rejected e => .error e

theorem decode_ok {now : ℕ} {t : Jwt} {x : Payload} (h : t.decode now = .ok x) : t = .signed x := by
  cases t with
  | signed payload =>
    simp only [Jwt.decode] at h
    split_ifs at h
    exact congrArg Jwt.signed (Except.ok.inj h)
  | rejected e => exact absurd h (by simp [Jwt.decode])

end Auth

end PaymentRecon
