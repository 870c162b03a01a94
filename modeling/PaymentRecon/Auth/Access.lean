import PaymentRecon.Auth.Alone
import PaymentRecon.Auth.Pairs
import PaymentRecon.Lib.Reader

/-!
# Access — who an access token lets in

`get_current_user` guards the endpoints: it lets in the user that an access token names.  A signed token
is only to be had from an answer of the service, so behind every access token stands a login with the
password of its user, and a chain of refreshes since.
-/

namespace PaymentRecon

open Interleave Rely

namespace Auth

variable {s : Settings} {w w' w₀ : World} {p q : Pid} {past : List Label} {user : User}
  {token : Jwt} {pair : TokenResponse} {c c' : State} {tr : List Label} {a : Label} {β : Type}

/-! ## `get_current_user` -/

def credentialsException : Exc := httpException 401 "Could not validate credentials"

/-- The exception is an `InvalidTokenError`. -/
def IsInvalidTokenError (e : Exc) : Prop :=
  e.kind = .expiredSignatureError ∨ e.kind = .decodeError ∨ e.kind = .invalidTokenError

instance (e : Exc) : Decidable (IsInvalidTokenError e) :=
  inferInstanceAs (Decidable (_ ∨ _ ∨ _))

/-- `payload.get("sub")` of an access token. -/
def accessUsername (payload : Payload) : Except Exc Username :=
  if payload.type ≠ some "access" then .error credentialsException
  else
    match payload.sub with
    | none => .error credentialsException
    | some username => .ok username

def tokenData (token : Jwt) : App Username :=
  try
    let now ← await .now
    let payload ← Prog.ofExcept (token.decode now)
    Prog.ofExcept (accessUsername payload)
  catch e => if IsInvalidTokenError e then throw credentialsException else throw e

/-- The dependency `get_current_user`; `oauth2_scheme` refuses a request without a bearer token. -/
def getCurrentUser (token : Option Jwt) : App User :=
  match token with
  | none => throw (httpException 401 "Not authenticated")
  | some token => do
    let username ← tokenData token
    let user ← getUserByUsername username
    match user with
    | none => throw credentialsException
    | some user => pure user

/-! ## Who put a token together -/

/-- The request `q` carried out the operation. -/
def Did (past : List Label) (q : Pid) (op : Op) (answer : op.Ret) : Prop :=
  ∃ f, .run q f op (.ok answer) ∈ past

/-- The request `q` made the access token for the user. -/
def MadeAccess (s : Settings) (past : List Label) (q : Pid) (user : User) (token : Jwt) : Prop :=
  ∃ now, Did past q .now now ∧
    token = .signed ⟨some "access", none, user.username, some ((now + s.accessLifetime) / second)⟩

/-- The request `q` made the refresh token for the user, with a `jti` that it generated. -/
def MadeRefresh (s : Settings) (past : List Label) (q : Pid) (user : User) (token : Jwt) : Prop :=
  ∃ now jti, Did past q .now now ∧ Did past q .newJti jti ∧
    token = .signed ⟨some "refresh", some jti, user.username, some ((now + s.refreshLifetime) / second)⟩

/-- The request acts for the user: it logged in with the password, or it presented, while it lasted, a
refresh token made by such a request. -/
inductive ActsFor (s : Settings) (past : List Label) (user : User) : Pid → Prop
  | login {q : Pid} {username : Username} {password : String}
      (hs : .spawn q (.login username password) ∈ past) (hu : user.username = some username)
      (hv : Did past q (.verifyPassword password user.hashedPassword) true) : ActsFor s past user q
  | refresh {q q' : Pid} {token : Jwt} {payload : Payload} {now : ℕ}
      (hs : .spawn q (.refresh (some token)) ∈ past) (hn : Did past q .now now)
      (hd : token.decode now = .ok payload) (hm : MadeRefresh s past q' user token)
      (h : ActsFor s past user q') : ActsFor s past user q

/-- The lookup of its name finds the user. -/
def World.Finds (w : World) (user : User) : Prop :=
  ∃ username, user.username = some username ∧
    (w.users.find? fun u => u.username = some username) = some user

/-- A pair that a request made for the user it acts for. -/
def Genuine (s : Settings) (user : User) (pair : TokenResponse) : Facts := fun w past =>
  w.Finds user ∧ ∃ q, ActsFor s past user q ∧ MadeAccess s past q user pair.accessToken ∧
    MadeRefresh s past q user pair.refreshToken

/-! ### What the steps keep -/

theorem Did.append {op : Op} {answer : op.Ret} (h : Did past q op answer) :
    Did (past ++ [a]) q op answer := by
  obtain ⟨f, hm⟩ := h
  exact ⟨f, List.mem_append_left _ hm⟩

theorem did_append {f : Fault} {op : Op} {answer : op.Ret} :
    Did (past ++ [.run q f op (.ok answer)]) q op answer := ⟨f, by simp⟩

theorem MadeAccess.append (h : MadeAccess s past q user token) :
    MadeAccess s (past ++ [a]) q user token := by
  obtain ⟨now, hn, ht⟩ := h
  exact ⟨now, hn.append, ht⟩

theorem MadeRefresh.append (h : MadeRefresh s past q user token) :
    MadeRefresh s (past ++ [a]) q user token := by
  obtain ⟨now, jti, hn, hj, ht⟩ := h
  exact ⟨now, jti, hn.append, hj.append, ht⟩

theorem ActsFor.append (h : ActsFor s past user q) : ActsFor s (past ++ [a]) user q := by
  induction h with
  | login hs hu hv => exact .login (List.mem_append_left _ hs) hu hv.append
  | refresh hs hn hd hm _ ih => exact .refresh (List.mem_append_left _ hs) hn.append hd hm.append ih

theorem World.Finds.step (h : w.Finds user) (hw : (auth s).WStep w a w') : w'.Finds user := by
  obtain ⟨username, hu, hf⟩ := h
  obtain ⟨us, hus⟩ := (wstep_onward hw).users
  exact ⟨username, hu, by rw [← hus, List.find?_append, hf, Option.some_or]⟩

theorem Genuine.step (h : Genuine s user pair w past) (hw : (auth s).WStep w a w') :
    Genuine s user pair w' (past ++ [a]) := by
  obtain ⟨hf, q, hq, ha, hr⟩ := h
  exact ⟨hf.step hw, q, hq.append, ha.append, hr.append⟩

/-! ## What a request is known to do -/

/-- Every pair in the cache is genuine, and so is every refresh token that was presented. -/
structure Admits (s : Settings) (w : World) (past : List Label) : Prop where
  cached : ∀ key pair e, w.grace key = some (pair, e) → ∃ user, Genuine s user pair w past
  presented : ∀ p payload, .spawn p (.refresh (some (.signed payload))) ∈ past →
    payload.type = some "refresh" →
      ∃ user pair, Genuine s user pair w past ∧ pair.refreshToken = .signed payload

/-- A refresh token that is presented is genuine. -/
def Authentic (s : Settings) (w : World) (past : List Label) (a : Label) (_ : World) : Prop :=
  ∀ p payload, a = .spawn p (.refresh (some (.signed payload))) → payload.type = some "refresh" →
    ∃ user pair, Genuine s user pair w past ∧ pair.refreshToken = .signed payload

/-- What is put into the cache is genuine. -/
def Caches (s : Settings) (w : World) (past : List Label) : Op → Prop
  | .set _ pair _ => ∃ user, Genuine s user pair w past
  | _ => True

/-- The answer is genuine, and was not given to an access token. -/
def Lets (s : Settings) (p : Pid) : Except Exc TokenResponse → Facts
  | .ok pair => fun w past => (∃ user, Genuine s user pair w past) ∧
      ∃ x, .spawn p x ∈ past ∧ ∀ payload, x = .refresh (some (.signed payload)) →
        payload.type = some "refresh"
  | .error _ => top

def entry (s : Settings) : Rely sig Exc TokenResponse World Request Event where
  machine := auth s
  cond := Authentic s
  inv := Admits s
  start := fun _ => top
  guard := fun _ w past op => Caches s w past op
  final := Lets s

/-- **Step lemma.** -/
theorem Admits.step (h : Admits s w past) (hw : (auth s).WStep w a w') (hc : Authentic s w past a w')
    (hg : ∀ p f op r, a = .run p f op r → Caches s w past op) : Admits s w' (past ++ [a]) := by
  refine ⟨fun key pair e he => ?_, fun p payload hp ht => ?_⟩
  · rcases wstep_entry hw he with hold | ⟨q, f, ex, r, rfl⟩
    · obtain ⟨user, hu⟩ := h.cached key pair e hold
      exact ⟨user, hu.step hw⟩
    · obtain ⟨user, hu⟩ := hg q f _ r rfl
      exact ⟨user, hu.step hw⟩
  · rcases List.mem_append.mp hp with hp | hp
    · obtain ⟨user, pair, hu, hr⟩ := h.presented p payload hp ht
      exact ⟨user, pair, hu.step hw, hr⟩
    · obtain ⟨user, pair, hu, hr⟩ := hc p payload (List.mem_singleton.mp hp).symm ht
      exact ⟨user, pair, hu.step hw, hr⟩

/-! ## The endpoints -/

abbrev Enter (s : Settings) {β : Type} (p : Pid) (K : Facts) (x : App β)
    (post : Except Exc β → Facts) : Prop := (entry s).Ensures p K x post

theorem Op.Mute.caches {op : Op} (h : op.Mute) : Caches s w past op := by
  cases op <;> first | exact h.elim | trivial

theorem entry_mute {K : Facts} (hK : (entry s).Persistent K) {x : App β}
    (h : x.All Op.Mute fun _ => True) : Enter s p K x fun _ => K :=
  Ensures.all (fun _ hop => Ensures.skip hK fun _ _ _ _ => hop.caches) h

theorem entry_silent {K : Facts} {x : App β} (h : x.All Op.Mute fun _ => True) :
    Enter s p K x fun _ => top :=
  (Ensures.ofAll h fun _ _ _ hop _ => hop.caches).mono fun _ _ _ _ => trivial

theorem persistent_did {op : Op} {answer : op.Ret} :
    (entry s).Persistent fun _ past => Did past p op answer :=
  fun _ _ _ _ _ _ _ h => h.append

theorem persistent_spawn (x : Request) : (entry s).Persistent fun _ past => .spawn p x ∈ past :=
  fun _ _ _ _ _ _ _ h => List.mem_append_left _ h

theorem persistent_access : (entry s).Persistent fun _ past => MadeAccess s past p user token :=
  fun _ _ _ _ _ _ _ h => h.append

theorem persistent_refresh : (entry s).Persistent fun _ past => MadeRefresh s past p user token :=
  fun _ _ _ _ _ _ _ h => h.append

/-- The user for whom the request acts. -/
def Acts (s : Settings) (p : Pid) (user : User) : Facts := fun w past =>
  w.Finds user ∧ ActsFor s past user p

theorem persistent_acts : (entry s).Persistent (Acts s p user) :=
  fun _ _ _ _ _ hw _ h => ⟨h.1.step hw, h.2.append⟩

theorem persistent_genuine : (entry s).Persistent fun w past => ∃ user, Genuine s user pair w past :=
  fun _ _ _ _ _ hw _ ⟨user, h⟩ => ⟨user, h.step hw⟩

/-- The answer of an operation is in the history. -/
theorem entry_did {K : Facts} (hK : (entry s).Persistent K) {op : Op} (h : op.Mute) :
    Enter s p K (await op) (whenOk fun answer w past => K w past ∧ Did past p op answer) := by
  refine Ensures.perform (stable_whenOk fun answer => (hK.stable.and persistent_did.stable))
    (fun _ _ _ _ => h.caches) ?_
  intro f w past r w' hI hk hx hc
  cases r with
  | error e => trivial
  | ok answer => exact ⟨hK w past (.run p f op (.ok answer)) w' hI hx hc hk, did_append⟩

theorem entry_createAccessToken {K : Facts} (hK : (entry s).Persistent K) :
    Enter s p K (createAccessToken user.username (some s.accessDelta))
      (whenOk fun token w past => K w past ∧ MadeAccess s past p user token) := by
  refine Ensures.bind (entry_did hK (show Op.Mute .now from trivial)) ?_ fun _ _ _ _ => trivial
  exact fun now w past h => ⟨h.1, now, h.2, rfl⟩

theorem entry_createRefreshToken {K : Facts} (hK : (entry s).Persistent K) {jti : Jti}
    (hj : ∀ w past, K w past → Did past p .newJti jti) :
    Enter s p K (createRefreshToken user.username jti (some s.refreshDelta))
      (whenOk fun token w past => K w past ∧ MadeRefresh s past p user token) := by
  refine Ensures.bind (entry_did hK (show Op.Mute .now from trivial)) ?_ fun _ _ _ _ => trivial
  exact fun now w past h => ⟨h.1, now, jti, h.2, hj w past h.1, rfl⟩

/-- A lookup by name finds the user that every later lookup finds. -/
theorem exec_selectUser {f : Fault} {username : Username} {r : Option User}
    (hx : exec f p (.selectUser username) w (.ok r) w') :
    r = w.users.find? fun u => u.username = some username := by
  cases f with
  | done => exact Except.ok.inj hx.1
  | failed =>
    obtain ⟨-, e, -, he⟩ := hx
    cases he
  | lost => exact hx.1.elim

/-- The user whose password was verified. -/
theorem entry_authenticateUser {username : Username} {password : String} :
    Enter s p (fun _ past => .spawn p (.login username password) ∈ past)
      (authenticateUser username password)
      (whenOk fun found w past => ∀ user, found = some user → Acts s p user w past) := by
  refine Ensures.bind (m := whenOk fun found w past => .spawn p (.login username password) ∈ past ∧
    ∀ user, found = some user → w.Finds user ∧ user.username = some username) ?_ (fun found => ?_)
    fun _ _ _ _ => trivial
  · refine Ensures.perform (stable_whenOk fun found => ?_) (fun _ _ _ _ => trivial) ?_
    · rintro w past a w' - hw - - ⟨hs, h⟩
      exact ⟨List.mem_append_left _ hs, fun user hu => ⟨(h user hu).1.step hw, (h user hu).2⟩⟩
    · intro f w past r w' _ hs hx _
      cases r with
      | error e => trivial
      | ok found =>
        refine ⟨List.mem_append_left _ hs, ?_⟩
        rintro user rfl
        have hfind := exec_selectUser hx
        have hname : user.username = some username := by
          simpa using List.find?_some hfind.symm
        exact ⟨⟨username, hname, by rw [(exec_frame hx).1.users, ← hfind]⟩, hname⟩
  · cases found with
    | none => exact fun _ _ _ user hu => by cases hu
    | some user =>
      refine Ensures.pre (K := fun w past => user.username = some username ∧
        (.spawn p (.login username password) ∈ past ∧ w.Finds user)) ?_
        fun w past h => ⟨(h.2 user rfl).2, h.1, (h.2 user rfl).1⟩
      refine Ensures.pure fun hname => ?_
      have hkeep : (entry s).Persistent fun w past =>
          .spawn p (.login username password) ∈ past ∧ w.Finds user :=
        (persistent_spawn _).and fun _ _ _ _ _ hw _ h => h.step hw
      refine Ensures.bind (entry_did hkeep
        (show Op.Mute (.verifyPassword password user.hashedPassword) from trivial)) ?_ fun _ _ _ _ => trivial
      intro verified
      split_ifs with hv
      · rintro w past ⟨⟨hs, hf⟩, hd⟩ user' heq
        obtain rfl := Option.some.inj heq
        exact ⟨hf, .login hs hname (hv ▸ hd)⟩
      · exact fun _ _ _ user' hu => by cases hu

/-- The dependency `get_db` hands the answer on. -/
theorem entry_withDb {K : Facts} {J : TokenResponse → Facts} {body : App TokenResponse}
    (hJ : ∀ pair, (entry s).Persistent (J pair)) (h : Enter s p K body (whenOk J)) :
    Enter s p K (withDb body) (whenOk J) := by
  unfold withDb
  refine Ensures.bind (m := whenOk J) ?_ (fun pair => ?_) fun _ _ _ _ => trivial
  · refine Ensures.tryCatch (m := whenOk J) h (fun _ _ _ h => h) fun e => ?_
    refine Ensures.bind (entry_silent (mute_await trivial)) (fun _ => ?_) fun _ _ _ _ => trivial
    exact Ensures.bind (entry_silent (mute_await trivial)) (fun _ _ _ _ => trivial)
      fun _ _ _ _ => trivial
  · exact Ensures.bind (m := fun _ => J pair) (Ensures.skip (hJ pair) fun _ _ _ _ => trivial)
      (fun _ _ _ h => h) fun _ _ _ _ => trivial

theorem entry_loginUser (username : Username) (password : String) :
    Enter s p (fun _ past => .spawn p (.login username password) ∈ past)
      (loginUser s username password)
      (whenOk fun pair w past => ∃ user, Genuine s user pair w past) := by
  refine entry_withDb (fun _ => persistent_genuine) ?_
  refine Ensures.bind entry_authenticateUser (fun found => ?_) fun _ _ _ _ => trivial
  cases found with
  | none => exact fun _ _ _ => trivial
  | some user =>
    refine Ensures.pre (K := Acts s p user) ?_ fun w past h => h user rfl
    refine Ensures.bind (entry_createAccessToken persistent_acts) (fun accessToken => ?_)
      fun _ _ _ _ => trivial
    have haccess : (entry s).Persistent fun w past =>
        Acts s p user w past ∧ MadeAccess s past p user accessToken :=
      persistent_acts.and persistent_access
    refine Ensures.bind (entry_did haccess (show Op.Mute .newJti from trivial)) (fun jti => ?_)
      fun _ _ _ _ => trivial
    have hjti := haccess.and (show (entry s).Persistent fun _ past => Did past p .newJti jti from persistent_did)
    refine Ensures.bind (entry_mute hjti (mute_await trivial)) (fun now => ?_) fun _ _ _ _ => trivial
    refine Ensures.bind (entry_createRefreshToken hjti fun _ _ h => h.2) (fun refreshToken => ?_)
      fun _ _ _ _ => trivial
    have hmade : (entry s).Persistent fun w past => ((Acts s p user w past ∧
        MadeAccess s past p user accessToken) ∧ Did past p .newJti jti) ∧
          MadeRefresh s past p user refreshToken := hjti.and persistent_refresh
    refine Ensures.bind (entry_mute hmade mute_createRecord) (fun record => ?_) fun _ _ _ _ => trivial
    cases record with
    | none =>
      exact Ensures.bind (entry_silent (mute_await trivial)) (fun _ _ _ _ => trivial)
        fun _ _ _ _ => trivial
    | some record =>
      refine Ensures.bind (entry_mute hmade (.tryCatch (m := fun _ => True) (mute_await trivial)
        (fun _ _ => trivial) fun e _ => ?_)) (fun _ => ?_) fun _ _ _ _ => trivial
      · split_ifs
        · exact mute_loose loose_reject
        · trivial
      · exact fun w past h => ⟨user, h.1.1.1.1, p, h.1.1.1.2, h.1.1.2, h.2⟩

/-- A pair that the cache answers is genuine. -/
theorem entry_get {K : Facts} (key : Jti) : Enter s p K (await (.get key)) (whenOk fun r w past =>
    ∀ pair, r = some pair → ∃ user, Genuine s user pair w past) := by
  refine Ensures.perform (stable_whenOk fun r => ?_) (fun _ _ _ _ => trivial) ?_
  · rintro w past a w' - hw - - h pair hpair
    obtain ⟨user, hu⟩ := h pair hpair
    exact ⟨user, hu.step hw⟩
  · intro f w past r w' hI _ hx _
    cases r with
    | error e => trivial
    | ok r =>
      rintro pair rfl
      obtain ⟨e, he⟩ := exec_get hx
      obtain ⟨user, hu⟩ := hI.cached key pair e he
      exact ⟨user, hu.step (a := .run p f (.get key) (.ok (some pair))) hx⟩

/-- The refresh token that the request presented, while it lasted. -/
def Brings (p : Pid) (payload : Payload) : Facts := fun _ past =>
  .spawn p (.refresh (some (.signed payload))) ∈ past ∧
    ∃ now, Did past p .now now ∧ (Jwt.signed payload).decode now = .ok payload

theorem persistent_brings (payload : Payload) : (entry s).Persistent (Brings p payload) :=
  fun _ _ _ _ _ _ _ ⟨hs, now, hn, hd⟩ => ⟨List.mem_append_left _ hs, now, hn.append, hd⟩

/-- Revoking, committing and refusing: no answer. -/
theorem entry_revoke {K : Facts} {J : β → Facts} {sel : Where} {e : Exc} : Enter s p K (do
    (do let _ ← update sel : App Unit)
    await .commit
    throw e : App β) (whenOk J) := by
  refine Ensures.bind (m := fun _ => top) ?_ (fun _ => ?_) fun _ _ _ _ => trivial
  · exact entry_silent (mute_seq (mute_loose (loose_update sel)) fun _ => trivial)
  · exact Ensures.bind (entry_silent (mute_await trivial)) (fun _ _ _ _ => trivial)
      fun _ _ _ _ => trivial

/-- A genuine pair from the cache, or the request goes on. -/
theorem entry_refuseToken {payload : Payload} {jti : Jti} : Enter s p (Brings p payload)
    (refuseToken jti) (whenOk fun cached w past =>
      (∀ pair, cached = some pair → ∃ user, Genuine s user pair w past) ∧ Brings p payload w past) := by
  unfold refuseToken
  refine Ensures.bind (entry_mute (persistent_brings payload) (mute_await trivial)) (fun record => ?_)
    fun _ _ _ _ => trivial
  cases record with
  | none => exact fun _ _ _ => trivial
  | some record =>
    simp only
    split_ifs
    · have hget := (entry_get (s := s) (p := p) (K := top) jti).frame
        (persistent_brings (p := p) payload)
      refine Ensures.bind (hget.pre fun w past h => ⟨trivial, h⟩) (fun cached => ?_)
        fun _ _ _ _ => trivial
      cases cached with
      | none => exact entry_revoke
      | some pair => exact fun w past h => h
    · refine Ensures.bind (entry_mute (persistent_brings payload) (mute_await trivial)) (fun now => ?_)
        fun _ _ _ _ => trivial
      split_ifs
      · exact entry_revoke
      · exact fun w past h => ⟨fun pair hp => (by cases hp), h⟩

/-- The user of a refresh token that is presented is the one that the lookup of its name finds. -/
theorem entry_selectUser {payload : Payload} {sub : Username} (ht : payload.type = some "refresh")
    (hsub : payload.sub = some sub) : Enter s p (Brings p payload) (getUserByUsername sub)
      (whenOk fun found w past => ∀ user, found = some user → Acts s p user w past) := by
  refine Ensures.perform (stable_whenOk fun found => ?_) (fun _ _ _ _ => trivial) ?_
  · intro w past a w' hI hw hc _ h user hu
    exact persistent_acts w past a w' hI hw hc (h user hu)
  · intro f w past r w' hI hb hx hc
    cases r with
    | error e => trivial
    | ok found =>
      rintro user rfl
      obtain ⟨hs, now, hn, hd⟩ := hb
      obtain ⟨user', pair, ⟨hf, q, hq, -, hm⟩, hr⟩ := hI.presented p payload hs ht
      -- the token names the user whom its maker acted for, and the lookup finds that user
      obtain ⟨username, hname, hfind⟩ := hf
      have hsame : user' = user := by
        obtain ⟨n, jti, -, -, htoken⟩ := hm
        have hpayload := Jwt.signed.inj (hr.symm.trans htoken)
        have hsub' : user'.username = some sub := by
          rw [hpayload] at hsub
          exact hsub
        obtain rfl : username = sub := Option.some.inj (hname.symm.trans hsub')
        exact Option.some.inj (hfind.symm.trans (exec_selectUser hx).symm)
      subst hsame
      rw [hr] at hm
      exact persistent_acts w past (.run p f (.selectUser sub) (.ok (some user'))) w' hI hx hc
        ⟨⟨username, hname, hfind⟩, .refresh hs hn hd hm hq⟩

/-- **A rotation answers a pair for the user of the token.** -/
theorem entry_rotateToken {payload : Payload} {jti : Jti} {sub : Username} {record : Option RefreshToken}
    (ht : payload.type = some "refresh") (hsub : payload.sub = some sub) :
    Enter s p (Brings p payload) (rotateToken s jti sub record)
      (whenOk fun pair w past => ∃ user, Genuine s user pair w past) := by
  unfold rotateToken
  refine Ensures.bind (entry_selectUser ht hsub) (fun found => ?_) fun _ _ _ _ => trivial
  cases record with
  | none => cases found <;> exact fun _ _ _ => trivial
  | some record =>
    cases found with
    | none =>
      simp only [getattr, Prog.ofExcept_ok, Prog.ret_bind]
      exact entry_revoke
    | some user =>
      refine Ensures.pre (K := Acts s p user) ?_ fun w past h => h user rfl
      simp only [getattr, Prog.ofExcept_ok, Prog.ret_bind]
      split_ifs
      · exact fun _ _ _ => trivial
      · refine Ensures.bind (entry_did persistent_acts (show Op.Mute .newJti from trivial))
          (fun newJti => ?_) fun _ _ _ _ => trivial
        have hjti : (entry s).Persistent fun w past =>
            Acts s p user w past ∧ Did past p .newJti newJti := persistent_acts.and persistent_did
        refine Ensures.bind (entry_mute hjti (mute_await trivial)) (fun now => ?_) fun _ _ _ _ => trivial
        refine Ensures.bind (entry_createRefreshToken hjti fun _ _ h => h.2) (fun newRefreshToken => ?_)
          fun _ _ _ _ => trivial
        have hrefresh : (entry s).Persistent fun w past => (Acts s p user w past ∧
            Did past p .newJti newJti) ∧ MadeRefresh s past p user newRefreshToken :=
          hjti.and persistent_refresh
        refine Ensures.bind (entry_mute hrefresh mute_createRecord) (fun record => ?_)
          fun _ _ _ _ => trivial
        refine Ensures.bind (entry_createAccessToken hrefresh) (fun newAccessToken => ?_)
          fun _ _ _ _ => trivial
        cases record with
        | none =>
          exact Ensures.bind (entry_silent (mute_await trivial)) (fun _ _ _ _ => trivial)
            fun _ _ _ _ => trivial
        | some record =>
          refine Ensures.pre (K := fun w past => ∃ user,
            Genuine s user ⟨newAccessToken, newRefreshToken⟩ w past) ?_
            fun w past h => ⟨user, h.1.1.1.1, p, h.1.1.1.2, h.2, h.1.2⟩
          refine Ensures.bind (entry_mute persistent_genuine (mute_await trivial)) (fun _ => ?_)
            fun _ _ _ _ => trivial
          refine Ensures.bind (entry_mute persistent_genuine (mute_await trivial)) (fun _ => ?_)
            fun _ _ _ _ => trivial
          exact Ensures.bind (Ensures.skip persistent_genuine fun _ _ _ h => h) (fun _ _ _ h => h)
            fun _ _ _ _ => trivial

theorem entry_refreshJti {payload : Payload} {sub : Username} (jti : Jti)
    (ht : payload.type = some "refresh") (hsub : payload.sub = some sub) :
    Enter s p (Brings p payload) (refreshJti s jti sub)
      (whenOk fun pair w past => ∃ user, Genuine s user pair w past) := by
  unfold refreshJti
  refine Ensures.bind (entry_mute (persistent_brings payload) (mute_loose loose_validate)) (fun record => ?_)
    fun _ _ _ _ => trivial
  cases record with
  | some record => exact entry_rotateToken ht hsub
  | none =>
    refine Ensures.bind entry_refuseToken (fun cached => ?_) fun _ _ _ _ => trivial
    cases cached with
    | some pair => exact fun w past h => h.1 pair rfl
    | none => exact (entry_rotateToken ht hsub).pre fun w past h => h.2

/-- The payload of the token that was presented. -/
theorem entry_decodeRequest {token : Option Jwt} :
    Enter s p (fun _ past => .spawn p (.refresh token) ∈ past) (decodeRequest token)
      (whenOk fun payload w past => token = some (.signed payload) ∧ Brings p payload w past) := by
  unfold decodeRequest
  refine Ensures.tryCatch (m := whenOk fun payload w past => token = some (.signed payload) ∧
    Brings p payload w past) ?_ (fun _ _ _ h => h) fun e => ?_
  · cases token with
    | none => exact fun _ _ _ => trivial
    | some t =>
      refine Ensures.bind (entry_did (persistent_spawn _) (show Op.Mute .now from trivial)) (fun now => ?_)
        fun _ _ _ _ => trivial
      cases hd : t.decode now with
      | error e => exact fun _ _ _ => trivial
      | ok payload =>
        obtain rfl := decode_ok hd
        exact fun w past h => ⟨rfl, h.1, now, h.2, hd⟩
  · split <;> exact fun _ _ _ => trivial

/-- What a request that presented the token answers. -/
def Renews (s : Settings) (p : Pid) (token : Option Jwt) (pair : TokenResponse) : Facts := fun w past =>
  (∃ user, Genuine s user pair w past) ∧ .spawn p (.refresh token) ∈ past ∧
    ∃ payload, token = some (.signed payload) ∧ payload.type = some "refresh"

theorem persistent_renews {token : Option Jwt} : (entry s).Persistent (Renews s p token pair) :=
  fun _ _ _ _ _ hw _ ⟨⟨user, h⟩, hs, ht⟩ => ⟨⟨user, h.step hw⟩, List.mem_append_left _ hs, ht⟩

theorem entry_refreshToken {token : Option Jwt} :
    Enter s p (fun _ past => .spawn p (.refresh token) ∈ past) (refreshToken s token)
      (whenOk (Renews s p token)) := by
  refine entry_withDb (fun _ => persistent_renews) ?_
  refine Ensures.bind (entry_decodeRequest) (fun payload => ?_) fun _ _ _ _ => trivial
  refine Ensures.pure ?_
  rintro rfl
  split_ifs with htype
  · exact fun _ _ _ => trivial
  · split
    · rename_i jti sub hjti hsub
      have hrefresh := (entry_refreshJti (s := s) (p := p) jti (not_not.mp htype) hsub).frame
        (persistent_spawn (p := p) (.refresh (some (.signed payload))))
      refine (hrefresh.pre fun w past h => ⟨h, h.1⟩).mono ?_
      rintro (e | pair) w past h
      · trivial
      · exact ⟨h.1, h.2, payload, rfl, not_not.mp htype⟩
    · exact fun _ _ _ => trivial

theorem entry_sound (s : Settings) : (entry s).Sound where
  prog p x _ _ _ _ _ := by
    cases x with
    | login username password =>
      have hlogin := (entry_loginUser (s := s) (p := p) username password).frame
        (persistent_spawn (p := p) (.login username password))
      refine (hlogin.pre fun _ _ h => ⟨h.2, h.2⟩).mono ?_
      rintro (e | pair) w past h
      · trivial
      · exact ⟨h.1, _, h.2, fun payload hx => by cases hx⟩
    | refresh token =>
      refine (entry_refreshToken.pre fun _ _ h => h.2).mono ?_
      rintro (e | pair) w past h
      · trivial
      · obtain ⟨hu, hs, payload, rfl, ht⟩ := h
        refine ⟨hu, _, hs, fun payload' hx => ?_⟩
        cases hx
        exact ht
  start _ := Persistent.true.stable
  begin _ _ _ _ _ := trivial
  spawn w _ p x h hc := h.step (a := .spawn p x) rfl hc (by simp)
  run f w past p op r w' h hg hx hc := by
    refine h.step (a := .run p f op r) hx hc ?_
    rintro p' f' op' r' heq
    cases heq
    exact hg
  crash w _ p h hc := h.step (a := .crash p) rfl hc (by simp)
  outer w _ x h hc := h.step (a := .outer x) rfl hc (by simp)

/-! ## Runs -/

/-- A signed token that is presented was answered before. -/
def Unforged (c : State) (a : Label) (_ : State) : Prop :=
  ∀ p payload, a = .spawn p (.refresh (some (.signed payload))) →
    ∃ q pair, c.thread q = .live (.ret pair) ∧
      (.signed payload = pair.accessToken ∨ .signed payload = pair.refreshToken)

/-- The steps in which no token is forged. -/
abbrev Honest (s : Settings) : State → Label → State → Prop := Lts.restrict (Steps s) Unforged

theorem entry_step (h : (entry s).Holds c) (hs : Honest s c a c') : (entry s).Holds c' := by
  refine ((entry_sound s).step hs.1 ?_ h).2
  intro p payload ha ht
  obtain ⟨q, pair, hq, htoken⟩ := hs.2 p payload ha
  obtain ⟨⟨user, hu⟩, -⟩ := h.final hq
  refine ⟨user, pair, hu, ?_⟩
  rcases htoken with htoken | htoken
  · obtain ⟨-, x, -, ⟨now, -, haccess⟩, -⟩ := hu
    have hpayload := Jwt.signed.inj (htoken.trans haccess)
    rw [hpayload] at ht
    exact absurd ht (by simp)
  · exact htoken.symm

theorem entry_run (h₀ : ∀ key, w₀.grace key = none) (hr : Lts.Run (Honest s) (.init w₀) tr c) :
    (entry s).Holds c := by
  refine hr.inv (fun c => (entry s).Holds c) (Holds.init ⟨?_, ?_⟩ fun _ => trivial)
    fun _ _ _ h hs => entry_step h hs
  · exact fun key pair e he => absurd he (by simp [h₀ key])
  · exact fun p payload hp => absurd hp (by simp)

theorem honest_clock (hr : Lts.Run (Honest s) c tr c') : c.world.clock ≤ c'.world.clock := by
  induction hr with
  | nil => exact le_rfl
  | @snoc tr c₁ c₂ a _ hs ih =>
    have hw := hs.1.wstep.1
    refine ih.trans ?_
    cases a with
    | spawn q x => exact (congrArg World.clock hw).ge
    | run q f op r => exact (exec_frame hw).1.clock.ge
    | crash q => exact (congrArg World.clock hw).ge
    | outer x =>
      rw [show c₂.world = c₁.world.outer x from hw]
      cases x with
      | tick d => exact Nat.le_add_right _ _
      | register username hashedPassword =>
        simp only [World.outer]
        split_ifs <;> exact le_rfl

theorem honest_finds (hr : Lts.Run (Honest s) c tr c') (h : c.world.Finds user) :
    c'.world.Finds user := by
  induction hr with
  | nil => exact h
  | snoc _ hs ih => exact ih.step hs.1.wstep.1

theorem exec_now {f : Fault} {now : ℕ} (hx : exec f p .now w (.ok now) w') : now = w.clock := by
  cases f with
  | done => exact Except.ok.inj hx.1
  | failed =>
    obtain ⟨-, e, he, -⟩ := hx
    exact he.elim
  | lost => exact hx.1.elim

theorem reads_tokenData {username : Username}
    (h : Reads (auth s) (Honest s) p c (tokenData token) (.ok username) c') :
    ∃ now payload, c.world.clock ≤ now ∧ token.decode now = .ok payload ∧
      accessUsername payload = .ok username := by
  rcases reads_tryCatch.mp h with ⟨name, hbody, hname⟩ | ⟨e, c₁, -, hcatch⟩
  · obtain rfl := Except.ok.inj hname
    rcases reads_bind.mp hbody with ⟨now, c₁, hnow, hdecode⟩ | ⟨e, -, he⟩
    · obtain ⟨f, tr, hr, hx⟩ := reads_perform.mp hnow
      obtain rfl := exec_now hx
      cases hd : token.decode c₁.world.clock with
      | error e =>
        rw [hd] at hdecode
        cases (reads_raise.mp hdecode).1
      | ok payload =>
        rw [hd] at hdecode
        refine ⟨_, payload, honest_clock hr, hd, ?_⟩
        cases hu : accessUsername payload with
        | error e =>
          simp only [hu, Prog.ofExcept_ok, Prog.ret_bind] at hdecode
          cases (reads_raise.mp hdecode).1
        | ok name =>
          simp only [hu, Prog.ofExcept_ok, Prog.ret_bind] at hdecode
          exact (reads_ret.mp hdecode).1.symm
    · cases he
  · split_ifs at hcatch <;> cases (reads_raise.mp hcatch).1

/-- **Who is let in**: the user that an access token names, while the token lasts. -/
theorem reads_getCurrentUser
    (h : Reads (auth s) (Honest s) p c (getCurrentUser (some token)) (.ok user) c') :
    ∃ now payload username, c.world.clock ≤ now ∧ token.decode now = .ok payload ∧
      accessUsername payload = .ok username ∧
      (c'.world.users.find? fun u => u.username = some username) = some user := by
  rcases reads_bind.mp h with ⟨username, c₁, hdata, hrest⟩ | ⟨e, -, he⟩
  · obtain ⟨now, payload, hle, hd, hu⟩ := reads_tokenData hdata
    rcases reads_bind.mp hrest with ⟨found, c₂, hselect, hend⟩ | ⟨e, -, he⟩
    · cases found with
      | none => cases (reads_raise.mp hend).1
      | some user' =>
        obtain ⟨huser, rfl⟩ := reads_ret.mp hend
        obtain rfl := Except.ok.inj huser
        obtain ⟨f, tr, -, hx⟩ := reads_perform.mp hselect
        exact ⟨now, payload, username, hle, hd, hu, (exec_selectUser hx).symm⟩
    · cases he
  · cases he

/-- A token that lasts lets its user in, when nothing fails. -/
theorem reads_of_lasting (payload : Payload) (username : Username)
    (hd : token.decode c.world.clock = .ok payload) (hu : accessUsername payload = .ok username)
    (hf : (c.world.users.find? fun u => u.username = some username) = some user) :
    Reads (auth s) (Honest s) p c (getCurrentUser (some token)) (.ok user) c := by
  refine reads_bind.mpr (Or.inl ⟨username, c, ?_, ?_⟩)
  · refine reads_tryCatch.mpr (Or.inl ⟨username, ?_, rfl⟩)
    refine reads_bind.mpr (Or.inl ⟨c.world.clock, c, ?_, ?_⟩)
    · exact reads_perform.mpr ⟨.done, [], .nil, rfl, rfl⟩
    · rw [hd]
      simp only [hu, Prog.ofExcept_ok, Prog.ret_bind]
      exact .ret
  · refine reads_bind.mpr (Or.inl ⟨some user, c, ?_, .ret⟩)
    exact reads_perform.mpr ⟨.done, [], .nil, congrArg _ hf.symm, rfl⟩

/-- **An access token lets its user in, and nobody else.**  Whatever fails, and however many requests go
on at once: behind every pair that is answered stands a request that acts for a user, that is, a login
with the password of the user, or a refresh with a token that such a request made.  While it lasts, and
not longer than the lifetime after the reading of the clock by that request, the access token lets in this
user.  The refresh token lets nobody in, and a request that presents the access token as a refresh token
answers no pair. -/
theorem access_granted (h₀ : ∀ key, w₀.grace key = none) (hr : Lts.Run (Honest s) (.init w₀) tr c)
    (hq : c.thread q = .live (.ret pair)) :
    ∃ user x now, user ∈ c.world.users ∧ ActsFor s tr user x ∧ Did tr x .now now ∧
      (∀ u, (∃ p c', Reads (auth s) (Honest s) p c (getCurrentUser (some pair.accessToken)) (.ok u) c') ↔
        u = user ∧ c.world.clock < (now + s.accessLifetime) / second * second) ∧
      (∀ p u c', ¬ Reads (auth s) (Honest s) p c (getCurrentUser (some pair.refreshToken)) (.ok u) c') ∧
      ∀ p pair', .spawn p (.refresh (some pair.accessToken)) ∈ tr → c.thread p ≠ .live (.ret pair') := by
  have hH := entry_run h₀ hr
  have hpast : c.past = tr := run_past hr.of_restrict
  obtain ⟨⟨user, hf, x, hx, ⟨now, hnow, haccess⟩, now', jti, -, -, hrefresh⟩, -⟩ := hH.final hq
  obtain ⟨username, hname, hfind⟩ := hf
  rw [hpast] at hx hnow
  refine ⟨user, x, now, List.mem_of_find?_eq_some hfind, hx, hnow, fun u => ⟨?_, ?_⟩, ?_, ?_⟩
  · rintro ⟨p, c', hread⟩
    obtain ⟨tr', hr'⟩ := hread.run
    obtain ⟨n, payload, name, hle, hd, hu, hfound⟩ := reads_getCurrentUser hread
    rw [haccess] at hd
    have hpayload := Jwt.signed.inj (decode_ok hd)
    subst hpayload
    simp only [accessUsername, hname, ne_eq, not_true_eq_false, if_false, Except.ok.injEq] at hu
    subst hu
    obtain ⟨username', hname', hfind'⟩ := honest_finds hr' ⟨username, hname, hfind⟩
    obtain rfl := Option.some.inj (hname.symm.trans hname')
    refine ⟨Option.some.inj (hfound.symm.trans hfind'), ?_⟩
    simp only [Jwt.decode] at hd
    split_ifs at hd with hexp
    simp only [Payload.Expired, Option.mem_def, Option.some.injEq, exists_eq_left', not_le] at hexp
    exact hle.trans_lt hexp
  · rintro ⟨rfl, hlt⟩
    refine ⟨0, c, reads_of_lasting ⟨some "access", none, u.username,
      some ((now + s.accessLifetime) / second)⟩ username ?_ ?_ hfind⟩
    · rw [haccess, Jwt.decode, if_neg]
      simpa [Payload.Expired] using hlt
    · simp [accessUsername, hname]
  · intro p u c' hread
    obtain ⟨n, payload, name, -, hd, hu, -⟩ := reads_getCurrentUser hread
    rw [hrefresh] at hd
    have hpayload := Jwt.signed.inj (decode_ok hd)
    subst hpayload
    simp [accessUsername] at hu
  · intro p pair' hp hend
    obtain ⟨-, y, hy, htype⟩ := hH.final hend
    rw [hpast] at hy
    obtain rfl := spawn_unique hr.of_restrict hp hy
    have ht := htype _ (by rw [haccess])
    simp at ht

/-- No request presents a token. -/
def Tokenless : Label → Bool
  | .spawn _ (.refresh _) => false
  | _ => true

theorem honest_run (hr : Lts.Run (Steps s) c tr c') (h : ∀ a ∈ tr, Tokenless a = true) :
    Lts.Run (Honest s) c tr c' := by
  refine (hr.labelled (Q := fun a => Tokenless a = true) h).mono fun c a c' hs => ⟨hs.1, ?_⟩
  rintro p payload rfl
  exact absurd hs.2 (by simp [Tokenless])

/-- The thread answered a pair with this refresh token. -/
def answeredWith (p : Pid) (token : Jwt) (c : State) : Bool :=
  match c.thread p with
  | .live (.ret pair) => pair.refreshToken = token
  | _ => false

theorem answeredWith_of (h : answeredWith p token c = true) :
    ∃ pair, c.thread p = .live (.ret pair) ∧ pair.refreshToken = token := by
  unfold answeredWith at h
  split at h
  · rename_i pair hp
    exact ⟨pair, hp, of_decide_eq_true h⟩
  · cases h

/-- The user `u` logs in and refreshes once; the access token of the second pair lets the user in. -/
theorem access_granted_sample : ∃ (tr : List Label) (c : State) (pair : TokenResponse),
    Lts.Run (Honest defaults) (.init World.empty) tr c ∧ c.thread 1 = .live (.ret pair) ∧
      ∃ user x, ActsFor defaults tr user x ∧
        ∃ p c', Reads (auth defaults) (Honest defaults) p c (getCurrentUser (some pair.accessToken))
          (.ok user) c' := by
  have hplays : ((player defaults).play Script.login (.init World.empty)).any (fun c₁ =>
      (answeredWith 0 (issued defaults "j") c₁ && c₁.past.all Tokenless) &&
        ((player defaults).move (.spawn 1 (.refresh (some (issued defaults "j")))) c₁).any fun c₂ =>
          ((player defaults).play [.go 1 14] c₂).any fun c₃ =>
            (answeredWith 1 (issued defaults "jj") c₃ && decide (c₃.world.clock = 0)) &&
              (c₃.past.drop c₂.past.length).all Tokenless) = true := by
    decide +kernel
  obtain ⟨c₁, h₁, htest₁⟩ := (Option.any_eq_true _ _).mp hplays
  obtain ⟨hfirst, hplays⟩ := Bool.and_eq_true_iff.mp htest₁
  obtain ⟨c₂, h₂, hplays⟩ := (Option.any_eq_true _ _).mp hplays
  obtain ⟨c₃, h₃, htest₃⟩ := (Option.any_eq_true _ _).mp hplays
  obtain ⟨hans₁, hless₁⟩ := Bool.and_eq_true_iff.mp hfirst
  obtain ⟨hlast, hless₃⟩ := Bool.and_eq_true_iff.mp htest₃
  obtain ⟨hans₃, hclock⟩ := Bool.and_eq_true_iff.mp hlast
  obtain ⟨tr₁, hr₁⟩ := Player.play_run h₁
  obtain ⟨tr₃, hr₃⟩ := Player.play_run h₃
  obtain ⟨pair₁, hp₁, htoken⟩ := answeredWith_of hans₁
  obtain ⟨pair₃, hp₃, -⟩ := answeredWith_of hans₃
  -- the thread 1 presents the token that the thread 0 answered
  have hspawn : Honest defaults c₁ (.spawn 1 (.refresh (some (issued defaults "j")))) c₂ := by
    simp only [Player.move] at h₂
    split at h₂
    · rename_i hfresh
      obtain rfl := Option.some.inj h₂
      refine ⟨.spawn hfresh, ?_⟩
      rintro p payload heq
      cases heq
      exact ⟨0, pair₁, hp₁, Or.inr htoken.symm⟩
    · cases h₂
  have hpast₁ : c₁.past = tr₁ := run_past hr₁.of_restrict
  have hpast₃ : c₃.past = c₂.past ++ tr₃ := run_past hr₃.of_restrict
  rw [hpast₁] at hless₁
  rw [hpast₃, List.drop_left] at hless₃
  have hr := ((honest_run hr₁.of_restrict (List.all_eq_true.mp hless₁)).snoc hspawn).append
    (honest_run hr₃.of_restrict (List.all_eq_true.mp hless₃))
  obtain ⟨user, x, now, -, hacts, -, hlet, -⟩ := access_granted (fun _ => rfl) hr hp₃
  refine ⟨_, c₃, pair₃, hr, hp₃, user, x, hacts, (hlet user).mpr ⟨rfl, ?_⟩⟩
  have hlong : 0 < (now + defaults.accessLifetime) / second * second := by
    have hpos : 0 < (now + defaults.accessLifetime) / second :=
      Nat.div_pos (le_trans (by decide) (Nat.le_add_left _ _)) (by decide)
    exact Nat.mul_pos hpos (by decide)
  rw [of_decide_eq_true hclock]
  exact hlong

end Auth

end PaymentRecon
