import PaymentRecon.Auth.Types
import PaymentRecon.Lib.Prog

/-!
# World — the refresh tokens, the grace cache and the operations on them

The world holds the committed rows of `users` and `refresh_tokens`, the keys of the grace cache in
Redis, and what the open sessions did: their row locks, their uncommitted writes and the UPDATE each
one is executing.

PostgreSQL is READ COMMITTED.  An UPDATE is a statement of several operations.  `beginUpdate` finds the
rows that meet its WHERE clause when it begins.  `updateRow` then takes them one by one: it waits while
another session has the row locked, checks the WHERE clause again on the row as it is then, and locks
and changes it.  `RETURNING` answers the changed rows.
-/

namespace PaymentRecon

open Interleave

namespace Auth

/-! ## Tables -/

/-- The WHERE clauses of the UPDATEs of `refresh_tokens`, all of which set `is_revoked`. -/
inductive Where
  | live (jti : Jti) (now : ℕ)
  | hash (jti : Jti)
  | family (familyId : FamilyId)
  deriving DecidableEq

def Where.Matches : Where → RefreshToken → Prop
  | .live jti now, t => t.tokenHash = jti ∧ now < t.expiresAt ∧ t.isRevoked = false
  | .hash jti, t => t.tokenHash = jti
  | .family familyId, t => t.familyId = familyId

instance (sel : Where) (t : RefreshToken) : Decidable (sel.Matches t) :=
  match sel with
  | .live jti now =>
    inferInstanceAs (Decidable (t.tokenHash = jti ∧ now < t.expiresAt ∧ t.isRevoked = false))
  | .hash jti => inferInstanceAs (Decidable (t.tokenHash = jti))
  | .family familyId => inferInstanceAs (Decidable (t.familyId = familyId))

def RefreshToken.revoke (t : RefreshToken) : RefreshToken := { t with isRevoked := true }

/-- A flushed write. -/
inductive Write
  | insert (t : RefreshToken)
  | revoke (id : Id)
  deriving DecidableEq

def Write.apply (ts : List RefreshToken) : Write → List RefreshToken
  | .insert t => ts ++ [t]
  | .revoke id => ts.map fun t => if t.id = id then t.revoke else t

/-- The row that the write inserts. -/
def Write.inserted : Write → Option RefreshToken
  | .insert t => some t
  | .revoke _ => none

/-- An UPDATE, with the rows it found that it did not come to yet. -/
structure Stmt where
  sel : Where
  todo : List Id
  deriving DecidableEq

/-! ## The world -/

/-- `grace` holds a value and the time it expires for every key of Redis, and `jtis` what
`secrets.token_urlsafe` generated so far. -/
structure World where
  clock : ℕ
  users : List User
  tokens : List RefreshToken
  nextUser : Id
  nextToken : Id
  jtis : List Jti
  grace : Jti → Option (TokenResponse × ℕ)
  locks : List (Pid × Id)
  writes : List (Pid × Write)
  stmt : Pid → Option Stmt

def World.empty : World := ⟨0, [], [], 1, 1, [], fun _ => none, [], [], fun _ => none⟩

namespace World

/-- The uncommitted writes of the session `p`. -/
def writesOf (w : World) (p : Pid) : List Write := (w.writes.filter fun x => x.1 = p).map (·.2)

/-- The rows as the session `p` sees them. -/
def view (w : World) (p : Pid) : List RefreshToken := (w.writesOf p).foldl Write.apply w.tokens

/-- The rows that some session inserted and did not commit yet. -/
def inFlight (w : World) : List RefreshToken := w.writes.filterMap fun x => x.2.inserted

/-- The row is locked by a session other than `p`. -/
def LockedByOther (w : World) (p : Pid) (id : Id) : Prop := ∃ x ∈ w.locks, x.1 ≠ p ∧ x.2 = id

instance (w : World) (p : Pid) (id : Id) : Decidable (w.LockedByOther p id) :=
  inferInstanceAs (Decidable (∃ x ∈ w.locks, x.1 ≠ p ∧ x.2 = id))

/-- Another session inserted, and did not yet commit, a row with this `token_hash`. -/
def HashBusy (w : World) (p : Pid) (jti : Jti) : Prop :=
  ∃ x ∈ w.writes, x.1 ≠ p ∧ ∃ t ∈ x.2.inserted, t.tokenHash = jti

instance (w : World) (p : Pid) (jti : Jti) : Decidable (w.HashBusy p jti) :=
  inferInstanceAs (Decidable (∃ x ∈ w.writes, x.1 ≠ p ∧ ∃ t ∈ x.2.inserted, t.tokenHash = jti))

/-- The unique index on `token_hash`, or the foreign key to `users`, refuses the row. -/
def Refuses (w : World) (p : Pid) (userId : Id) (jti : Jti) : Prop :=
  (∃ t ∈ w.view p, t.tokenHash = jti) ∨ ∀ u ∈ w.users, u.id ≠ userId

instance (w : World) (p : Pid) (userId : Id) (jti : Jti) : Decidable (w.Refuses p userId jti) :=
  inferInstanceAs (Decidable ((∃ t ∈ w.view p, t.tokenHash = jti) ∨ ∀ u ∈ w.users, u.id ≠ userId))

/-- No row has this family: what `uuid.uuid4` generates. -/
def FreshFamily (w : World) (familyId : FamilyId) : Prop :=
  ∀ t ∈ w.tokens ++ w.inFlight, t.familyId ≠ familyId

instance (w : World) (familyId : FamilyId) : Decidable (w.FreshFamily familyId) :=
  inferInstanceAs (Decidable (∀ t ∈ w.tokens ++ w.inFlight, t.familyId ≠ familyId))

/-- The value of a key of Redis that did not expire. -/
def cached (w : World) (key : Jti) : Option TokenResponse :=
  match w.grace key with
  | some (value, expiry) => if w.clock < expiry then some value else none
  | none => none

def newToken (w : World) (userId : Id) (jti : Jti) (expiresAt : ℕ) (familyId : FamilyId) :
    RefreshToken :=
  ⟨w.nextToken, userId, jti, expiresAt, false, familyId⟩

/-- The sequence after an insertion; it advances even when the insertion is refused. -/
def tickToken (w : World) : World := { w with nextToken := w.nextToken + 1 }

def setStmt (w : World) (p : Pid) (s : Option Stmt) : World :=
  { w with stmt := Function.update w.stmt p s }

/-- The session `p` flushes a write. -/
def write (w : World) (p : Pid) (x : Write) : World := { w with writes := w.writes ++ [(p, x)] }

def lock (w : World) (p : Pid) (id : Id) : World := { w with locks := w.locks ++ [(p, id)] }

/-- The UPDATE of the session `p` is done with the row `id`. -/
def visited (w : World) (p : Pid) (id : Id) : World :=
  w.setStmt p ((w.stmt p).map fun s => { s with todo := s.todo.erase id })

/-- `ROLLBACK`, and what a session that is closed or lost leaves. -/
def rollback (w : World) (p : Pid) : World :=
  { w with locks := w.locks.filter fun x => x.1 ≠ p, writes := w.writes.filter fun x => x.1 ≠ p }.setStmt
    p none

/-- `COMMIT`: the writes of the session become visible and its locks are released. -/
def commit (w : World) (p : Pid) : World := { w with tokens := w.view p }.rollback p

end World

/-! ## Operations -/

/-- The statements of the sessions, the commands of Redis, the clock, and the calls of `secrets` and
`passlib`. -/
inductive Op
  | now
  | newJti
  | verifyPassword (plain : String) (hashed : Option String)
  | selectUser (username : Username)
  | beginUpdate (sel : Where)
  | updateRow (sel : Where) (id : Id)
  | selectToken (jti : Jti)
  | insertToken (userId : Id) (jti : Jti) (expiresAt : ℕ) (familyId : Option FamilyId)
  | refreshRow (id : Id)
  | commit
  | rollback
  | close
  | get (key : Jti)
  | set (key : Jti) (value : TokenResponse) (ex : ℕ)

@[reducible] def Op.Ret : Op → Type
  | .now => ℕ
  | .newJti => Jti
  | .verifyPassword _ _ => Bool
  | .selectUser _ => Option User
  | .beginUpdate _ => List Id
  | .updateRow _ _ => Option RefreshToken
  | .selectToken _ => Option RefreshToken
  | .insertToken _ _ _ _ => RefreshToken
  | .get _ => Option TokenResponse
  | _ => Unit

@[reducible] def sig : Sig := ⟨Op, Op.Ret⟩

/-- An operation that goes through, the constraint errors included. -/
def Op.run (p : Pid) : (op : Op) → World → Except Exc op.Ret → World → Prop
  | .now, w, r, w' => r = .ok w.clock ∧ w' = w
  | .newJti, w, r, w' => ∃ jti, jti ∉ w.jtis ∧ r = .ok jti ∧ w' = { w with jtis := jti :: w.jtis }
  | .verifyPassword _ _, w, r, w' => (∃ b, r = .ok b) ∧ w' = w
  | .selectUser username, w, r, w' =>
    r = .ok (w.users.find? fun u => u.username = some username) ∧ w' = w
  | .beginUpdate sel, w, r, w' =>
    ∃ ids, ids.Perm (((w.view p).filter fun t => sel.Matches t).map (·.id)) ∧ r = .ok ids ∧
      w' = w.setStmt p (some ⟨sel, ids⟩)
  | .updateRow sel id, w, r, w' =>
    ¬ w.LockedByOther p id ∧
      match (w.view p).find? fun t => t.id = id ∧ sel.Matches t with
      | some t => r = .ok (some t.revoke) ∧ w' = ((w.lock p id).write p (.revoke id)).visited p id
      | none => r = .ok none ∧ w' = w.visited p id
  | .selectToken jti, w, r, w' =>
    r = .ok ((w.view p).find? fun t => t.tokenHash = jti) ∧ w' = w
  | .insertToken userId jti expiresAt familyId, w, r, w' =>
    ¬ w.HashBusy p jti ∧
      if w.Refuses p userId jti then r = .error IntegrityError ∧ w' = w.tickToken
      else ∃ f, (familyId = some f ∨ familyId = none ∧ w.FreshFamily f) ∧
        r = .ok (w.newToken userId jti expiresAt f) ∧
        w' = w.tickToken.write p (.insert (w.newToken userId jti expiresAt f))
  | .refreshRow _, w, r, w' => r = .ok () ∧ w' = w
  | .commit, w, r, w' => r = .ok () ∧ w' = w.commit p
  | .rollback, w, r, w' => r = .ok () ∧ w' = w.rollback p
  | .close, w, r, w' => r = .ok () ∧ w' = w.rollback p
  | .get key, w, r, w' => r = .ok (w.cached key) ∧ w' = w
  | .set key value ex, w, r, w' => r = .ok () ∧
    w' = { w with grace := Function.update w.grace key (some (value, w.clock + ex * second)) }

/-- The exceptions an operation raises when its store, or `passlib`, fails. -/
def Op.Fails (op : Op) (e : Exc) : Prop :=
  match op with
  | .get _ | .set _ _ _ => e = RedisError
  | .verifyPassword _ _ => e.kind = .valueError
  | .now | .newJti | .rollback | .close => False
  | _ => e = DBAPIError ∨ e = IntegrityError

/-- The operation may take effect although it reports a failure. -/
def Op.Loses : Op → Prop
  | .commit | .get _ | .set _ _ _ => True
  | _ => False

/-- One operation, faults included. -/
def exec (f : Fault) (p : Pid) (op : Op) (w : World) (r : Except Exc op.Ret) (w' : World) : Prop :=
  match f with
  | .done => op.run p w r w'
  | .failed => w' = w ∧ ∃ e, op.Fails e ∧ r = .error e
  | .lost => op.Loses ∧ (∃ r₀, op.run p w r₀ w') ∧ ∃ e, op.Fails e ∧ r = .error e

end Auth

end PaymentRecon
