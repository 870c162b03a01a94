import PaymentRecon.Auth.World
import PaymentRecon.Model.Orders

/-!
# Refresh — login and token rotation

The functions of `users/security.py`, `users/service.py` and `db/redis_db.py` behind the endpoints
`POST /users/login` and `POST /users/refresh` of `users/router.py`.
-/

namespace PaymentRecon

open Interleave

namespace Auth

abbrev App (α : Type) := Prog sig Exc α

abbrev await (op : Op) : App op.Ret := Prog.perform (S := sig) (E := Exc) op

/-- The dependency `get_db`: an exception rolls the session back, and the session is closed. -/
def withDb {α : Type} (body : App α) : App α := do
  let result ←
    try body
    catch e => do
      await .rollback
      await .close
      throw e
  await .close
  pure result

/-- `result.scalar_one_or_none()`. -/
def scalarOneOrNone {α : Type} : List α → App (Option α)
  | [] => pure none
  | [x] => pure (some x)
  | _ => throw ⟨.multipleResultsFound, ""⟩

/-! ## The statements of the service -/

def updateRows (sel : Where) : List Id → App (List RefreshToken)
  | [] => pure []
  | id :: ids => do
    let row ← await (.updateRow sel id)
    let rows ← updateRows sel ids
    pure (row.toList ++ rows)

/-- `UPDATE refresh_tokens SET is_revoked = true WHERE sel RETURNING *`. -/
def update (sel : Where) : App (List RefreshToken) := do
  let ids ← await (.beginUpdate sel)
  updateRows sel ids

def getUserByUsername (username : Username) : App (Option User) := await (.selectUser username)

def createRefreshTokenRecordService (userId : Id) (jti : Jti) (expiredAt : ℕ)
    (familyId : Option FamilyId) : App (Option RefreshToken) :=
  try
    let refreshToken ← await (.insertToken userId jti expiredAt familyId)
    pure (some refreshToken)
  catch e => if e.kind = .integrityError then pure none else throw e

def validateAndRevokeRefreshTokenService (jti : Jti) : App (Option RefreshToken) := do
  let now ← await .now
  let rows ← update (.live jti now)
  scalarOneOrNone rows

def getRefreshToken (jti : Jti) : App (Option RefreshToken) := await (.selectToken jti)

def revokeRefreshToken (jti : Jti) : App Unit := do
  let _ ← update (.hash jti)

def revokeFamilyToken (familyId : FamilyId) : App Unit := do
  let _ ← update (.family familyId)

/-! ## Tokens -/

def authenticateUser (username : Username) (password : String) : App (Option User) := do
  let user ← getUserByUsername username
  match user with
  | none => pure none
  | some user => do
    let verified ← await (.verifyPassword password user.hashedPassword)
    if verified then pure (some user) else pure none

def createAccessToken (sub : Option Username) (expiresDelta : Option ℕ) : App Jwt := do
  let now ← await .now
  let expire := now + lifetime expiresDelta (15 * 60 * second)
  pure (.signed ⟨some "access", none, sub, some (expire / second)⟩)

def createRefreshToken (sub : Option Username) (jti : Jti) (expiresDelta : Option ℕ) : App Jwt := do
  let now ← await .now
  let expire := now + lifetime expiresDelta (7 * 24 * 60 * 60 * second)
  pure (.signed ⟨some "refresh", some jti, sub, some (expire / second)⟩)

def decodeRefreshToken (refreshToken : Jwt) : App Payload := do
  let now ← await .now
  Prog.ofExcept (refreshToken.decode now)

/-! ## The grace cache -/

def addTokenToGracePeriod (jti : Jti) (pair : TokenResponse) : App Unit := await (.set jti pair 30)

def tokenInGracePeriod (jti : Jti) : App (Option TokenResponse) := await (.get jti)

/-! ## The endpoints -/

/-- An attribute of `rt_record`, which may be `None`. -/
def getattr {α : Type} (record : Option RefreshToken) (name : String) (f : RefreshToken → α) :
    Except Exc α :=
  match record with
  | some t => .ok (f t)
  | none => .error ⟨.attributeError, "'NoneType' object has no attribute '" ++ name ++ "'"⟩

/-- The endpoint `POST /users/login`. -/
def loginUser (s : Settings) (username : Username) (password : String) : App TokenResponse :=
  withDb do
    let user ← authenticateUser username password
    match user with
    | none => throw (httpException 401 "Incorrect username or password")
    | some user => do
      let accessToken ← createAccessToken user.username (some s.accessDelta)
      let jti ← await .newJti
      let now ← await .now
      let refreshToken ← createRefreshToken user.username jti (some s.refreshDelta)
      let record ← createRefreshTokenRecordService user.id jti (now + s.refreshDelta) none
      match record with
      | none => do
        await .rollback
        throw (httpException 409 "Refresh token already exists")
      | some _ => do
        try await .commit
        catch e =>
          if e.kind = .integrityError then do
            await .rollback
            throw (httpException 409 "Refresh token already exists")
          else throw e
        pure ⟨accessToken, refreshToken⟩

/-- `refresh_token` up to the payload: the exception of the missing token is caught as well. -/
def decodeRequest (token : Option Jwt) : App Payload :=
  try
    match token with
    | none => throw (httpException 401 "Refresh Token missing")
    | some refreshToken => decodeRefreshToken refreshToken
  catch e =>
    match e.kind with
    | .expiredSignatureError => throw (httpException 401 "Refresh token has expired")
    | .decodeError => throw (httpException 401 "Invalid token in decoding refresh token")
    | .invalidTokenError => throw (httpException 401 "Invalid refresh token")
    | _ => throw (httpException 500 "Error processing token")

/-- `refresh_token` when no row was live: the answer from the grace cache, or none, with which the
endpoint goes on. -/
def refuseToken (jti : Jti) : App (Option TokenResponse) := do
  let record ← getRefreshToken jti
  match record with
  | none => throw (httpException 401 "Invalid token")
  | some record =>
    if record.isRevoked then do
      let gracePeriodResult ← tokenInGracePeriod jti
      match gracePeriodResult with
      | none => do
        revokeFamilyToken record.familyId
        await .commit
        throw (httpException 401 "Token Expired")
      | some pair => pure (some pair)
    else do
      let now ← await .now
      if record.expiresAt < now then do
        revokeRefreshToken jti
        await .commit
        throw (httpException 401 "Refresh token expired")
      else pure none

/-- `refresh_token` from the lookup of the user on. -/
def rotateToken (s : Settings) (jti : Jti) (sub : Username) (rtRecord : Option RefreshToken) :
    App TokenResponse := do
  let user ← getUserByUsername sub
  match user with
  | none => do
    let familyId ← Prog.ofExcept (getattr rtRecord "family_id" (·.familyId))
    revokeFamilyToken familyId
    await .commit
    throw (httpException 401 "User not found")
  | some user => do
    let userId ← Prog.ofExcept (getattr rtRecord "user_id" (·.userId))
    if user.id ≠ userId then throw (httpException 403 "Invalid token")
    else do
      let newJti ← await .newJti
      let now ← await .now
      let newRefreshToken ← createRefreshToken user.username newJti (some s.refreshDelta)
      let familyId ← Prog.ofExcept (getattr rtRecord "family_id" (·.familyId))
      let record ←
        createRefreshTokenRecordService user.id newJti (now + s.refreshDelta) (some familyId)
      let newAccessToken ← createAccessToken user.username (some s.accessDelta)
      match record with
      | none => do
        await .rollback
        throw (httpException 409 "Refresh Token Conflict")
      | some record => do
        await .commit
        await (.refreshRow record.id)
        addTokenToGracePeriod jti ⟨newAccessToken, newRefreshToken⟩
        pure ⟨newAccessToken, newRefreshToken⟩

/-- The endpoint `POST /users/refresh` for a payload with these claims. -/
def refreshJti (s : Settings) (jti : Jti) (sub : Username) : App TokenResponse := do
  let rtRecord ← validateAndRevokeRefreshTokenService jti
  match rtRecord with
  | some record => rotateToken s jti sub (some record)
  | none => do
    let cached ← refuseToken jti
    match cached with
    | some pair => pure pair
    | none => rotateToken s jti sub none

/-- The endpoint `POST /users/refresh`. -/
def refreshToken (s : Settings) (token : Option Jwt) : App TokenResponse :=
  withDb do
    let payload ← decodeRequest token
    if payload.type ≠ some "refresh" then throw (httpException 401 "Invalid token type")
    else
      match payload.jti, payload.sub with
      | some jti, some sub => refreshJti s jti sub
      | _, _ => throw (httpException 401 "Invalid token in payload")

/-! ## The system -/

inductive Request
  | login (username : Username) (password : String)
  | refresh (token : Option Jwt)

/-- The environment lets time pass and registers users. -/
inductive Event
  | tick (d : ℕ)
  | register (username : Username) (hashedPassword : String)

def World.outer (w : World) : Event → World
  | .tick d => { w with clock := w.clock + d }
  | .register username hashedPassword =>
    if ∃ u ∈ w.users, u.username = some username then w
    else { w with
      users := w.users ++ [⟨w.nextUser, some username, some hashedPassword⟩],
      nextUser := w.nextUser + 1 }

/-- The `jti` of a request that presents a token. -/
def Request.jti : Request → Option Jti
  | .refresh (some (.signed payload)) => payload.jti
  | _ => none

@[reducible] def auth (s : Settings) : Machine sig Exc TokenResponse World Request Event where
  prog
    | .login username password => loginUser s username password
    | .refresh token => refreshToken s token
  exec := exec
  abort := fun p w => w.rollback p
  outer := fun x w => w.outer x

abbrev State := Config sig Exc TokenResponse World Request Event

abbrev Label := Act sig Exc Request Event

/-- One step of the service. -/
abbrev Steps (s : Settings) : State → Label → State → Prop := Step (auth s)

end Auth

end PaymentRecon
