import PaymentRecon.Auth.Grace

/-!
# Pairs — one token pair for one refresh token

A request answers the pair of the rotation that it carried out, or the pair that the grace cache has for its
token.  Whoever writes a pair to the cache rotated the token (`Agreed`), and a token is rotated once; so
however often a token is presented, and whatever fails, all answers with a pair are the same one.
-/

namespace PaymentRecon

open Interleave Rely

namespace Auth

variable {s : Settings} {w w' w₀ : World} {p q : Pid} {past : List Label} {t : RefreshToken}
  {jti key : Jti} {pair pair' : TokenResponse} {c : State} {tr : List Label} {a : Label} {β : Type}

/-! ## What is known of the cache -/

/-- The thread `p` wrote the pair to the cache, or tried to. -/
def Offered (past : List Label) (p : Pid) (key : Jti) (pair : TokenResponse) : Prop :=
  ∃ f ex r, .run p f (.set key pair ex) r ∈ past

/-- The refresh token of the pair is that of the row. -/
def Leads (pair : TokenResponse) (t : RefreshToken) : Prop :=
  ∃ sub exp, pair.refreshToken = .signed ⟨some "refresh", some t.tokenHash, sub, exp⟩

/-- Every entry of the cache was written by the thread that rotated the token, and a thread writes one. -/
structure Agreed (w : World) (past : List Label) : Prop where
  cached : ∀ key pair e, w.grace key = some (pair, e) → ∃ p, Offered past p key pair
  once : ∀ p key pair key' pair', Offered past p key pair → Offered past p key' pair' →
    key = key' ∧ pair = pair'
  rotated : ∀ p key pair, Offered past p key pair → Bears past p key ∧
    ∃ t, Inserted past p t ∧ w.Committed t ∧ Leads pair t

theorem Offered.append (h : Offered past p key pair) : Offered (past ++ [a]) p key pair := by
  obtain ⟨f, ex, r, hm⟩ := h
  exact ⟨f, ex, r, List.mem_append_left _ hm⟩

theorem offered_append : Offered (past ++ [a]) p key pair ↔
    Offered past p key pair ∨ ∃ f ex r, a = .run p f (.set key pair ex) r := by
  constructor
  · rintro ⟨f, ex, r, hm⟩
    rcases List.mem_append.mp hm with hm | hm
    · exact Or.inl ⟨f, ex, r, hm⟩
    · exact Or.inr ⟨f, ex, r, (List.mem_singleton.mp hm).symm⟩
  · rintro (h | ⟨f, ex, r, rfl⟩)
    · exact h.append
    · exact ⟨f, ex, r, by simp⟩

/-! ## What a request promises -/

/-- The thread wrote nothing to the cache yet. -/
def NoOffer (p : Pid) (past : List Label) : Prop := ∀ key pair, ¬ Offered past p key pair

/-- A request writes one pair to the cache, that of the row it inserted. -/
def Promises (p : Pid) (past : List Label) : Op → Prop
  | .set _ pair _ => NoOffer p past ∧ ∃ t, Inserted past p t ∧ Leads pair t
  | _ => True

/-- A step that is known to be lawful and granted. -/
def Vouched (w : World) (past : List Label) (a : Label) (w' : World) : Prop :=
  Known w past a w' ∧ ∀ p f op r, a = .run p f op r → Grants p w past op

/-- A pair that answers a token is the one in the cache, or was. -/
def Replies (p : Pid) : Except Exc TokenResponse → Facts
  | .ok pair => fun _ past => ∃ x, .spawn p x ∈ past ∧
      ∀ jti, x.jti = some jti → ∃ q, Offered past q jti pair
  | .error _ => top

def pairs (s : Settings) : Rely sig Exc TokenResponse World Request Event where
  machine := auth s
  cond := Vouched
  inv := Agreed
  start := fun p _ past => NoOffer p past
  guard := fun p _ past op => Promises p past op
  final := Replies

/-- **Step lemma.** -/
theorem Agreed.step (h : Agreed w past) (hw : (auth s).WStep w a w') (hv : Vouched w past a w')
    (hg : ∀ p f op r, a = .run p f op r → Promises p past op) : Agreed w' (past ++ [a]) := by
  obtain ⟨hk, hgrant⟩ := hv
  have hcommitted : ∀ t, w.Committed t → w'.Committed t := by
    rintro t ⟨t', ht', hid⟩
    obtain ⟨t'', ht'', hid', -⟩ := hk.lineage.row_step hw ht'
    exact ⟨t'', ht'', hid'.trans hid⟩
  refine ⟨fun key pair e he => ?_, fun p key pair key' pair' ho ho' => ?_, fun p key pair ho => ?_⟩
  · rcases wstep_entry hw he with hold | ⟨q, f, ex, r, rfl⟩
    · obtain ⟨p, ho⟩ := h.cached key pair e hold
      exact ⟨p, ho.append⟩
    · exact ⟨q, offered_append.mpr (Or.inr ⟨f, ex, r, rfl⟩)⟩
  · rcases offered_append.mp ho with hold | ⟨f, ex, r, rfl⟩
    · rcases offered_append.mp ho' with hold' | ⟨f, ex, r, rfl⟩
      · exact h.once p key pair key' pair' hold hold'
      · exact absurd hold ((hg p f _ r rfl).1 key pair)
    · rcases offered_append.mp ho' with hold' | ⟨f', ex', r', heq⟩
      · exact absurd hold' ((hg p f _ r rfl).1 key' pair')
      · cases heq
        exact ⟨rfl, rfl⟩
  · rcases offered_append.mp ho with ho | ⟨f, ex, r, rfl⟩
    · obtain ⟨hb, t, hi, hc, hl⟩ := h.rotated p key pair ho
      exact ⟨hb.append, t, hi.append, hcommitted t hc, hl⟩
    · obtain ⟨hb, t, hi, hc⟩ := hgrant p f _ r rfl
      obtain ⟨-, t', hi', hl⟩ := hg p f _ r rfl
      obtain rfl := hk.lineage.once p t t' hi hi'
      exact ⟨hb.append, t, hi.append, hcommitted t hc, hl⟩

/-! ## The endpoints -/

abbrev Pairs (s : Settings) {β : Type} (p : Pid) (K : Facts) (x : App β)
    (post : Except Exc β → Facts) : Prop := (pairs s).Ensures p K x post

/-- Nothing was written, and something that every step keeps is known. -/
def Yet (p : Pid) (K : Facts) : Facts := fun w past => NoOffer p past ∧ K w past

theorem stable_noOffer : (pairs s).Stable p fun _ past => NoOffer p past := by
  intro w past a w' _ _ _ hp h key pair ho
  rcases offered_append.mp ho with ho | ⟨f, ex, r, rfl⟩
  · exact h key pair ho
  · exact hp rfl

theorem stable_yet {K : Facts} (hK : (pairs s).Persistent K) : (pairs s).Stable p (Yet p K) :=
  stable_noOffer.and hK.stable

/-- An operation other than a SET. -/
def Op.Mute : Op → Prop
  | .set _ _ _ => False
  | _ => True

theorem Op.Loose.mute {op : Op} (h : op.Loose) : op.Mute := by
  cases op <;> first | exact h.elim | trivial

theorem Op.Mute.promises {op : Op} (h : op.Mute) : Promises p past op := by
  cases op <;> first | exact h.elim | trivial

theorem Op.Mute.noOffer {op : Op} (h : op.Mute) {f : Fault} {r : Except Exc op.Ret}
    (hn : NoOffer p past) : NoOffer p (past ++ [.run p f op r]) := by
  intro key pair ho
  rcases offered_append.mp ho with ho | ⟨f', ex, r', heq⟩
  · exact hn key pair ho
  · cases heq
    exact h

theorem pairs_mute {K : Facts} (hK : (pairs s).Persistent K) {op : Op} (h : op.Mute) :
    Pairs s p (Yet p K) (await op) fun _ => Yet p K := by
  refine Ensures.perform (fun _ => stable_yet hK) (fun _ _ _ _ => h.promises) ?_
  intro f w past r w' hI hk hx hc
  exact ⟨h.noOffer hk.1, hK w past (.run p f op r) w' hI hx hc hk.2⟩

theorem pairs_loose {K : Facts} (hK : (pairs s).Persistent K) {x : App β}
    (h : x.All Op.Loose fun _ => True) : Pairs s p (Yet p K) x fun _ => Yet p K :=
  Ensures.all (fun _ hop => pairs_mute hK hop.mute) h

theorem pairs_silent {K : Facts} {x : App β} (h : x.All Op.Loose fun _ => True) :
    Pairs s p K x fun _ => top :=
  (Ensures.ofAll h fun _ _ _ hop _ => hop.mute.promises).mono fun _ _ _ _ => trivial

/-- The cache answers what it holds. -/
theorem exec_get {f : Fault} (hx : exec f p (.get key) w (.ok (some pair)) w') :
    ∃ e, w.grace key = some (pair, e) := by
  have hrun : (Except.ok (some pair) : Except Exc (Option TokenResponse)) = .ok (w.cached key) := by
    cases f with
    | done => exact hx.1
    | failed =>
      obtain ⟨-, e, -, he⟩ := hx
      cases he
    | lost =>
      obtain ⟨-, -, e, -, he⟩ := hx
      cases he
  have hcached : some pair = w.cached key := Except.ok.inj hrun
  unfold World.cached at hcached
  split at hcached
  · rename_i value expiry hentry
    split_ifs at hcached
    obtain rfl := Option.some.inj hcached
    exact ⟨expiry, hentry⟩
  · cases hcached

/-- A pair that the cache answers was written to it. -/
theorem pairs_get {K : Facts} : Pairs s p K (await (.get key)) (whenOk fun r _ past =>
    ∀ pair, r = some pair → ∃ q, Offered past q key pair) := by
  refine Ensures.perform (stable_whenOk fun r => ?_) (fun _ _ _ _ => trivial) ?_
  · intro w past a w' _ _ _ _ h pair hpair
    obtain ⟨q, ho⟩ := h pair hpair
    exact ⟨q, ho.append⟩
  · intro f w past r w' hI _ hx _
    cases r with
    | error e => trivial
    | ok r =>
      rintro pair rfl
      obtain ⟨e, he⟩ := exec_get hx
      obtain ⟨q, ho⟩ := hI.cached key pair e he
      exact ⟨q, ho.append⟩

/-- What the grace cache answers, or nothing is written yet. -/
def Refused (p : Pid) (jti : Jti) : Option TokenResponse → Facts
  | some pair => fun _ past => ∃ q, Offered past q jti pair
  | none => fun _ past => NoOffer p past

/-- Revoking, committing and refusing: no answer. -/
theorem pairs_revoke {K : Facts} {J : β → Facts} {sel : Where} {e : Exc} : Pairs s p K (do
    (do let _ ← update sel : App Unit)
    await .commit
    throw e : App β) (whenOk J) := by
  refine Ensures.bind (m := fun _ => top) ?_ (fun _ => ?_) fun _ _ _ _ => trivial
  · exact pairs_silent (.bind (m := fun _ => True) (loose_update sel) (fun _ _ => trivial)
      fun _ _ => trivial)
  · exact Ensures.bind (pairs_silent (loose_await trivial)) (fun _ _ _ _ => trivial)
      fun _ _ _ _ => trivial

theorem pairs_refuseToken : Pairs s p (Yet p top) (refuseToken jti) (whenOk (Refused p jti)) := by
  unfold refuseToken
  refine Ensures.bind (pairs_mute Persistent.true (show Op.Mute (.selectToken jti) from trivial)) ?_
    fun _ _ _ _ => trivial
  intro record
  cases record with
  | none => exact fun _ _ _ => trivial
  | some record =>
    simp only
    split_ifs
    · refine Ensures.bind pairs_get ?_ fun _ _ _ _ => trivial
      intro cached
      cases cached with
      | none => exact pairs_revoke
      | some pair => exact fun _ _ h => h pair rfl
    · refine Ensures.bind (pairs_mute Persistent.true (show Op.Mute .now from trivial))
        ?_ fun _ _ _ _ => trivial
      intro now
      split_ifs
      · exact pairs_revoke
      · exact fun _ _ h => h.1

/-- The thread inserted the row. -/
def Sows (p : Pid) (t : RefreshToken) : Facts := fun _ past => Inserted past p t

theorem persistent_sows : (pairs s).Persistent (Sows p t) :=
  fun _ _ _ _ _ _ _ h => Inserted.append h

/-- The row that was inserted has the hash that was generated. -/
theorem pairs_insert {newJti : Jti} {userId : Id} {expiresAt : ℕ} {familyId : Option FamilyId} :
    Pairs s p (Yet p top) (createRefreshTokenRecordService userId newJti expiresAt familyId)
      (whenOk fun row w past => ∀ t, row = some t → t.tokenHash = newJti ∧ Yet p (Sows p t) w past) := by
  have hstable : ∀ row : Option RefreshToken, (pairs s).Stable p fun w past =>
      ∀ t, row = some t → t.tokenHash = newJti ∧ Yet p (Sows p t) w past := by
    intro row w past a w' hI hw hc hp h t ht
    exact ⟨(h t ht).1, stable_yet persistent_sows w past a w' hI hw hc hp (h t ht).2⟩
  refine Ensures.tryCatch (m := whenOk fun row w past => ∀ t, row = some t →
    t.tokenHash = newJti ∧ Yet p (Sows p t) w past) ?_ (fun _ _ _ h => h) fun e => ?_
  · refine Ensures.bind (m := whenOk fun (t : RefreshToken) w past => ∀ t' : RefreshToken,
      some t = some t' → t'.tokenHash = newJti ∧ Yet p (Sows p t') w past) ?_ (fun _ _ _ h => h)
      fun _ _ _ _ => trivial
    refine Ensures.perform (stable_whenOk fun t => hstable (some t)) (fun _ _ _ _ => trivial) ?_
    intro f w past r w' _ h hx _
    cases r with
    | error e => trivial
    | ok t =>
      rintro t' heq
      obtain rfl := Option.some.inj heq
      have hmute : (Op.insertToken userId newJti expiresAt familyId).Mute := trivial
      refine ⟨?_, hmute.noOffer h.1,
        inserted_append.mpr (Or.inr ⟨f, userId, newJti, expiresAt, _, rfl⟩)⟩
      rcases exec_effect hx with ⟨-, e, he⟩ | ⟨r₁, hx, heq | ⟨hl, -⟩⟩
      · exact absurd he (by simp)
      · subst heq
        cases hx with
        | quiet hq _ => exact hq.elim
        | inserted _ _ _ _ _ _ _ => rfl
      · exact hl.elim
  · split_ifs
    · exact fun _ _ _ t ht => by cases ht
    · exact fun _ _ _ => trivial

/-- A refresh token with this `jti`. -/
theorem pairs_createRefreshToken {sub : Option Username} {newJti : Jti} {d : Option ℕ} :
    Pairs s p (Yet p top) (createRefreshToken sub newJti d) (whenOk fun token w past =>
      (∃ sub exp, token = .signed ⟨some "refresh", some newJti, sub, exp⟩) ∧ Yet p top w past) := by
  refine Ensures.bind (pairs_mute Persistent.true (show Op.Mute .now from trivial))
    ?_ fun _ _ _ _ => trivial
  exact fun now w past h => ⟨⟨sub, _, rfl⟩, h⟩

theorem pairs_set (hl : Leads pair t) :
    Pairs s p (Yet p (Sows p t)) (addTokenToGracePeriod jti pair) fun _ _ past =>
      ∃ q, Offered past q jti pair := by
  refine Ensures.perform (fun _ => ?_) (fun _ _ _ h => ⟨h.1, t, h.2, hl⟩) ?_
  · rintro w past a w' - - - - ⟨q, ho⟩
    exact ⟨q, ho.append⟩
  · intro f w past r w' _ _ _ _
    exact ⟨p, offered_append.mpr (Or.inr ⟨f, 30, r, rfl⟩)⟩

/-- **A rotation answers the pair it writes to the cache.** -/
theorem pairs_rotateToken {sub : Username} {record : Option RefreshToken} :
    Pairs s p (Yet p top) (rotateToken s jti sub record) (whenOk fun pair _ past =>
      ∃ q, Offered past q jti pair) := by
  unfold rotateToken
  refine Ensures.bind (pairs_mute Persistent.true (show Op.Mute (.selectUser sub) from trivial)) ?_
    fun _ _ _ _ => trivial
  intro user
  cases record with
  | none => cases user <;> exact fun _ _ _ => trivial
  | some record =>
    cases user with
    | none =>
      simp only [getattr, Prog.ofExcept_ok, Prog.ret_bind]
      exact pairs_revoke
    | some user =>
      simp only [getattr, Prog.ofExcept_ok, Prog.ret_bind]
      split_ifs
      · exact fun _ _ _ => trivial
      · refine Ensures.bind (pairs_mute Persistent.true (show Op.Mute .newJti from trivial))
          ?_ fun _ _ _ _ => trivial
        intro newJti
        refine Ensures.bind (pairs_mute Persistent.true (show Op.Mute .now from trivial))
          ?_ fun _ _ _ _ => trivial
        intro now
        refine Ensures.bind pairs_createRefreshToken ?_ fun _ _ _ _ => trivial
        intro newRefreshToken
        refine Ensures.pure ?_
        rintro ⟨sub', exp, rfl⟩
        refine Ensures.bind pairs_insert ?_ fun _ _ _ _ => trivial
        intro row
        cases row with
        | none =>
          refine Ensures.bind (pairs_silent loose_clock) (fun _ => ?_) fun _ _ _ _ => trivial
          exact Ensures.bind (pairs_silent (loose_await trivial)) (fun _ _ _ _ => trivial)
            fun _ _ _ _ => trivial
        | some row =>
          refine Ensures.pre (K := fun w past => row.tokenHash = newJti ∧ Yet p (Sows p row) w past) ?_
            fun _ _ h => h row rfl
          refine Ensures.pure ?_
          rintro rfl
          refine Ensures.bind (pairs_loose persistent_sows loose_clock) ?_ fun _ _ _ _ => trivial
          intro newAccessToken
          refine Ensures.bind (pairs_mute persistent_sows (show Op.Mute .commit from trivial)) ?_
            fun _ _ _ _ => trivial
          intro _
          refine Ensures.bind (pairs_mute persistent_sows (show Op.Mute (.refreshRow row.id) from trivial))
            ?_
            fun _ _ _ _ => trivial
          intro _
          refine Ensures.bind (pairs_set ⟨sub', exp, rfl⟩) ?_ fun _ _ _ _ => trivial
          exact fun _ _ _ h => h

theorem pairs_refreshJti {sub : Username} : Pairs s p (Yet p top) (refreshJti s jti sub)
    (whenOk fun pair _ past => ∃ q, Offered past q jti pair) := by
  unfold refreshJti
  refine Ensures.bind (pairs_loose Persistent.true loose_validate) ?_ fun _ _ _ _ => trivial
  intro record
  cases record with
  | some record => exact pairs_rotateToken
  | none =>
    refine Ensures.bind pairs_refuseToken ?_ fun _ _ _ _ => trivial
    intro cached
    cases cached with
    | some pair => exact fun _ _ h => h
    | none => exact pairs_rotateToken.pre fun _ _ h => ⟨h, trivial⟩

/-- The dependency `get_db` hands the answer on. -/
theorem pairs_withDb {K : Facts} {J : TokenResponse → Facts} {body : App TokenResponse}
    (hJ : ∀ pair, (pairs s).Persistent (J pair)) (h : Pairs s p K body (whenOk J)) :
    Pairs s p K (withDb body) (whenOk J) := by
  unfold withDb
  refine Ensures.bind (m := whenOk J) ?_ (fun pair => ?_) fun _ _ _ _ => trivial
  · refine Ensures.tryCatch (m := whenOk J) h (fun _ _ _ h => h) fun e => ?_
    refine Ensures.bind (pairs_silent (loose_await trivial)) (fun _ => ?_) fun _ _ _ _ => trivial
    exact Ensures.bind (pairs_silent (loose_await trivial)) (fun _ _ _ _ => trivial)
      fun _ _ _ _ => trivial
  · exact Ensures.bind (m := fun _ => J pair) (Ensures.skip (hJ pair) fun _ _ _ _ => trivial)
      (fun _ _ _ h => h) fun _ _ _ _ => trivial

/-- The answer of the request `x`. -/
def RepliesTo (p : Pid) (x : Request) (pair : TokenResponse) : Facts := fun _ past =>
  .spawn p x ∈ past ∧ ∀ jti, x.jti = some jti → ∃ q, Offered past q jti pair

theorem persistent_repliesTo {x : Request} : (pairs s).Persistent (RepliesTo p x pair) := by
  rintro w past a w' - - - ⟨hx, h⟩
  refine ⟨List.mem_append_left _ hx, fun jti hj => ?_⟩
  obtain ⟨q, ho⟩ := h jti hj
  exact ⟨q, ho.append⟩

theorem pairs_refreshToken {token : Option Jwt} :
    Pairs s p (fun w past => .spawn p (.refresh token) ∈ past ∧ Yet p top w past)
      (refreshToken s token) (whenOk (RepliesTo p (.refresh token))) := by
  refine pairs_withDb (fun _ => persistent_repliesTo) ?_
  have hkeep : (pairs s).Persistent fun _ past => .spawn p (.refresh token) ∈ past :=
    fun _ _ _ _ _ _ _ h => List.mem_append_left _ h
  refine Ensures.bind (m := whenOk fun payload w past => token = some (.signed payload) ∧
    Yet p top w past ∧ .spawn p (.refresh token) ∈ past) ?_ (fun payload => ?_) fun _ _ _ _ => trivial
  · unfold decodeRequest
    refine Ensures.tryCatch (m := whenOk fun payload w past => token = some (.signed payload) ∧
      Yet p top w past ∧ .spawn p (.refresh token) ∈ past) ?_ (fun _ _ _ h => h) fun e => ?_
    · cases token with
      | none => exact fun _ _ _ => trivial
      | some t =>
        refine Ensures.bind (m := fun _ w past => Yet p top w past ∧
          .spawn p (.refresh (some t)) ∈ past) ?_ ?_ fun _ _ _ _ => trivial
        · exact ((pairs_mute Persistent.true (show Op.Mute .now from trivial)).frame hkeep).pre
            fun _ _ h => ⟨h.2, h.1⟩
        · intro now
          cases hd : t.decode now with
          | error e => exact fun _ _ _ => trivial
          | ok payload => exact fun _ _ h => ⟨congrArg some (decode_ok hd), h⟩
    · split <;> exact fun _ _ _ => trivial
  · refine Ensures.pure ?_
    rintro rfl
    split_ifs
    · exact fun _ _ _ => trivial
    · split
      · rename_i jti sub hjti hsub
        refine (pairs_refreshJti.frame hkeep).mono ?_
        intro r w past h
        cases r with
        | error e => trivial
        | ok pair =>
          refine ⟨h.2, fun j hj => ?_⟩
          obtain rfl := Option.some.inj (hjti.symm.trans hj)
          exact h.1
      · exact fun _ _ _ => trivial

theorem mute_await {op : Op} (h : op.Mute) : (await op).All Op.Mute fun _ => True :=
  Prog.All.perform h fun _ => trivial

theorem mute_seq {γ : Type} {x : App β} {f : β → App γ} (hx : x.All Op.Mute fun _ => True)
    (hf : ∀ b, (f b).All Op.Mute fun _ => True) : (x >>= f).All Op.Mute fun _ => True :=
  .bind hx (fun b _ => hf b) fun _ _ => trivial

theorem mute_loose {x : App β} (h : x.All Op.Loose fun _ => True) : x.All Op.Mute fun _ => True :=
  h.mono (fun _ => Op.Loose.mute) fun _ h => h

theorem mute_createRecord {userId : Id} {expiresAt : ℕ} {familyId : Option FamilyId} :
    (createRefreshTokenRecordService userId jti expiresAt familyId).All Op.Mute fun _ => True := by
  refine .tryCatch (m := fun _ => True) ?_ (fun _ _ => trivial) fun e _ => ?_
  · exact mute_seq (mute_await trivial) fun _ => trivial
  · split_ifs <;> trivial

/-- A login writes nothing to the cache. -/
theorem mute_loginUser {username : Username} {password : String} :
    (loginUser s username password).All Op.Mute fun _ => True := by
  refine mute_seq ?_ fun _ => mute_seq (mute_await trivial) fun _ => trivial
  refine .tryCatch (m := fun _ => True) ?_ (fun _ _ => trivial) fun e _ =>
    mute_seq (mute_await trivial) fun _ => mute_seq (mute_await trivial) fun _ => trivial
  refine mute_seq ?_ fun user => ?_
  · refine mute_seq (mute_await trivial) fun user => ?_
    cases user with
    | none => trivial
    | some user =>
      refine mute_seq (mute_await trivial) fun b => ?_
      split_ifs <;> trivial
  · cases user with
    | none => trivial
    | some user =>
      refine mute_seq (mute_loose loose_clock) fun accessToken => mute_seq (mute_await trivial) fun jti =>
        mute_seq (mute_await trivial) fun now => mute_seq (mute_loose loose_clock) fun refreshToken =>
          mute_seq mute_createRecord fun record => ?_
      cases record with
      | none => exact mute_loose loose_reject
      | some record =>
        refine mute_seq (.tryCatch (m := fun _ => True) (mute_await trivial) (fun _ _ => trivial)
          fun e _ => ?_) fun _ => trivial
        split_ifs
        · exact mute_loose loose_reject
        · trivial

theorem pairs_sound (s : Settings) : (pairs s).Sound where
  prog p x _ _ _ _ _ := by
    cases x with
    | login username password =>
      have hkeep : (pairs s).Persistent fun _ past => .spawn p (.login username password) ∈ past :=
        fun _ _ _ _ _ _ _ h => List.mem_append_left _ h
      have hall : Pairs s p (fun _ past => .spawn p (.login username password) ∈ past)
          (loginUser s username password) fun _ _ past => .spawn p (.login username password) ∈ past :=
        Ensures.all (fun _ hop => Ensures.skip hkeep fun _ _ _ _ => hop.promises) mute_loginUser
      refine (hall.pre fun _ _ h => h.2).mono ?_
      intro r w past h
      cases r with
      | error e => trivial
      | ok pair => exact ⟨_, h, fun jti hj => by cases hj⟩
    | refresh token =>
      refine (pairs_refreshToken.pre fun _ _ h => ⟨h.2, h.1, trivial⟩).mono ?_
      intro r w past h
      cases r with
      | error e => trivial
      | ok pair => exact ⟨_, h⟩
  start _ := stable_noOffer
  begin _ past p x h key pair ho := by
    rcases offered_append.mp ho with ho | ⟨f, ex, r, heq⟩
    · exact h key pair ho
    · cases heq
  spawn w _ p x h hv := h.step (s := s) (a := .spawn p x) rfl hv (by simp)
  run f w past p op r w' h hg hx hv := by
    refine h.step (s := s) (a := .run p f op r) hx hv ?_
    rintro p' f' op' r' heq
    cases heq
    exact hg
  crash w _ p h hv := h.step (s := s) (a := .crash p) rfl hv (by simp)
  outer w _ x h hv := h.step (s := s) (a := .outer x) rfl hv (by simp)

/-! ## Runs -/

theorem World.Unused.agreed (h : w.Unused) : Agreed w [] where
  cached key pair e he := absurd he (by simp [h.grace key])
  once p key pair key' pair' ho := by simp [Offered] at ho
  rotated p key pair ho := by simp [Offered] at ho

/-- What every run keeps. -/
theorem pairs_run (h₀ : w₀.Unused) (hr : Lts.Run (Steps s) (.init w₀) tr c) : (pairs s).Holds c := by
  have hknown : Lts.Run (Lts.restrict (Steps s) fun c a c' => Allows Known c a c' ∧ True) (.init w₀) tr c :=
    known_run (P := fun _ _ _ => True) h₀.toBlank .nil (hr.mono fun _ _ _ hs => ⟨hs, trivial⟩)
  refine ((grants_sound s).derive (P := fun _ _ _ => True) (J := fun c => (pairs s).Holds c) hknown
    (Holds.init h₀.tidy fun _ => trivial) (Holds.init h₀.agreed fun p key pair ho => ?_) ?_).2
  · simp [Offered] at ho
  · intro c a c' _ hJ hs hg _
    exact ((pairs_sound s).step hs ⟨hg.1, hg.2⟩ hJ).2

/-- The thread has answered a pair to a request that presented the token. -/
def answeredTo (p : Pid) (jti : Jti) (c : State) : Bool :=
  answered p c && c.past.any fun a =>
    match a with
    | .spawn q x => q = p ∧ x.jti = some jti
    | _ => false

theorem answeredTo_of (h : answeredTo p jti c = true) :
    Bears c.past p jti ∧ ∃ pair, c.thread p = .live (.ret pair) := by
  obtain ⟨hanswered, hpast⟩ := Bool.and_eq_true_iff.mp h
  obtain ⟨a, ha, hspawn⟩ := List.any_eq_true.mp hpast
  constructor
  · cases a with
    | spawn q x =>
      obtain ⟨rfl, hj⟩ := of_decide_eq_true hspawn
      exact ⟨x, ha, hj⟩
    | _ => exact absurd hspawn (by simp)
  · unfold answered at hanswered
    split at hanswered
    · rename_i pair hp
      exact ⟨pair, hp⟩
    · exact absurd hanswered (by simp)

/-- **One pair for one refresh token.**  Whatever fails and however often, and by how many requests at
once, a refresh token is presented: all requests that answer it with a pair answer the same pair.  Its
refresh token is that of the row that one of the requests inserted, and the row is in the table. -/
theorem one_pair (h₀ : w₀.Unused) (hr : Lts.Run (Steps s) (.init w₀) tr c) (hb : Bears tr p jti)
    (hb' : Bears tr q jti) (hp : c.thread p = .live (.ret pair)) (hq : c.thread q = .live (.ret pair')) :
    pair = pair' ∧
      ∃ x t, Bears tr x jti ∧ Inserted tr x t ∧ c.world.Committed t ∧ Leads pair t := by
  have hH := pairs_run h₀ hr
  have hL : Lineage c.world c.past := (run_holds h₀.toBlank hr).inv
  have hpast : c.past = tr := run_past hr
  -- the pair that a thread answers was written to the cache
  have hoffer : ∀ {p pair}, Bears tr p jti → c.thread p = .live (.ret pair) →
      ∃ x, Offered tr x jti pair := by
    rintro p pair ⟨x, hx, hj⟩ hp
    obtain ⟨x', hx', hans⟩ := hH.final hp
    rw [hpast] at hx' hans
    obtain rfl := spawn_unique hr hx hx'
    exact hans jti hj
  obtain ⟨x, ho⟩ := hoffer hb hp
  obtain ⟨y, ho'⟩ := hoffer hb' hq
  have hI := hH.inv
  rw [hpast] at hI hL
  obtain ⟨hbx, t, hi, hc, hl⟩ := hI.rotated x jti pair ho
  obtain ⟨hby, t', hi', hc', -⟩ := hI.rotated y jti pair' ho'
  refine ⟨?_, x, t, hbx, hi, hc, hl⟩
  by_cases hxy : x = y
  · subst hxy
    exact (hI.once x jti pair jti pair' ho ho').2
  · rcases hL.siblings x y t t' hxy hi hi' hc hc' with hbare | hbare | ⟨j, j', hj, hj', hne⟩
    · exact absurd hbare (not_bare hr hbx)
    · exact absurd hbare (not_bare hr hby)
    · exact absurd ((bears_unique hr hj hbx).trans (bears_unique hr hby hj')) hne

/-- The thread 2 presents the token that the thread 1 exchanged, within the grace period. -/
theorem one_pair_sample : ∃ (tr : List Label) (c : State) (pair : TokenResponse),
    Lts.Run (Steps defaults) (.init World.empty) tr c ∧ Bears tr 1 "j" ∧ Bears tr 2 "j" ∧
      c.thread 1 = .live (.ret pair) ∧ c.thread 2 = .live (.ret pair) := by
  obtain ⟨tr, c, hr, htest⟩ := Player.play_test (player defaults)
    (Script.login ++ Script.rotate defaults 1 "j" ++ Script.present 2 "j" 6) (.init World.empty)
    (fun c => answeredTo 1 "j" c && answeredTo 2 "j" c) (by decide +kernel)
  obtain ⟨h₁, h₂⟩ := Bool.and_eq_true_iff.mp htest
  obtain ⟨hb₁, pair, hp₁⟩ := answeredTo_of h₁
  obtain ⟨hb₂, pair', hp₂⟩ := answeredTo_of h₂
  rw [run_past hr.of_restrict] at hb₁ hb₂
  obtain ⟨rfl, -⟩ := one_pair ⟨blank_empty, fun _ => rfl⟩ hr.of_restrict hb₁ hb₂ hp₁ hp₂
  exact ⟨tr, c, pair, hr.of_restrict, hb₁, hb₂, hp₁, hp₂⟩

end Auth

end PaymentRecon
