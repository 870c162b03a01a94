import PaymentRecon.Auth.Alone

/-!
# Failure — what a refresh that ends in an error leaves

A refresh revokes the presented token and inserts its successor in one transaction, and rolls it back on
every error before the commit.  After the commit it still reads the new row and writes the grace cache.
When one of these fails, or the answer to the commit is lost, the client is left with a token that is
revoked.
-/

namespace PaymentRecon

open Interleave

namespace Auth

variable {s : Settings} {β γ : Type} {p : Pid} {w w₁ w' : World} {jti : Jti} {sub : Username}
  {cs cs₁ cs₂ : Calls} {e : Exc}

/-! ## The session is closed -/

theorem close_ok {op : Op} (hop : op = .rollback ∨ op = .close) {f : Fault} :
    ¬ exec f p op w (.error e) w' := by
  rcases hop with rfl | rfl <;>
  · intro h
    cases f with
    | done => exact absurd h.1 (by simp)
    | failed => exact h.2.choose_spec.1
    | lost => exact h.1

/-- The dependency passes an error on, after the rollback. -/
theorem withDb_error {body : App β} (h : Executes s p (withDb body) w cs (.error e) w') :
    ∃ cs₁ w₁ cs₂, Executes s p body w cs₁ (.error e) w₁ ∧ cs = cs₁ ++ cs₂ ∧
      (∀ c ∈ cs₂, c.op = .rollback ∨ c.op = .close) ∧ w'.tokens = w₁.tokens := by
  rcases runs_bind.mp h with ⟨a, w₁, cs₁, cs₂, -, hclose, -⟩ | ⟨e₁, htry, he⟩
  · exfalso
    rcases executes_await.mp hclose with ⟨d, u, w₂, cs₃, -, hend, -⟩ | ⟨d, f, e', hx, -, -⟩
    · exact absurd (runs_ret.mp hend).2.1 (by simp)
    · exact close_ok (Or.inr rfl) hx
  · obtain rfl := Except.error.inj he
    rcases runs_tryCatch.mp htry with ⟨a, -, hok⟩ | ⟨e', w₁, cs₁, cs₂, hbody, hhandler, rfl⟩
    · exact absurd hok (by simp)
    · rcases executes_await.mp hhandler with ⟨d, u, w₂, cs₃, ⟨-, rfl⟩, hrest, rfl⟩ |
        ⟨d, f, e', hx, -, -⟩
      · rcases executes_await.mp hrest with ⟨d', u', w₃, cs₄, ⟨-, rfl⟩, hend, rfl⟩ |
          ⟨d', f, e', hx, -, -⟩
        · obtain ⟨rfl, he', rfl⟩ := runs_raise.mp hend
          obtain rfl := Except.error.inj he'
          exact ⟨cs₁, w₁, _, hbody, rfl, by simp, rfl⟩
        · exact absurd hx (close_ok (Or.inr rfl))
      · exact absurd hx (close_ok (Or.inl rfl))

/-! ## Calls that come too late -/

/-- The call fails after a commit took effect, or it is that commit. -/
def Late : Call sig Exc → Prop
  | ⟨f, .commit, _⟩ => f = .lost
  | ⟨f, .refreshRow _, _⟩ => f ≠ .done
  | ⟨f, .set _ _ _, _⟩ => f ≠ .done
  | _ => False

/-- The operations before a commit. -/
def Mild : Op → Prop
  | .commit | .refreshRow _ | .set _ _ _ => False
  | _ => True

theorem mild_call {c : Call sig Exc} (h : Mild c.op) : ¬ Late c ∧ ¬ Commits c := by
  obtain ⟨f, op, r⟩ := c
  cases op <;> first
    | exact h.elim
    | exact ⟨fun hl => hl, fun hc => absurd hc.1 (by simp)⟩

/-- The table is as before exactly when no call came too late. -/
def Verdict (w : World) (cs : Calls) (w' : World) : Prop :=
  w'.tokens = w.tokens ↔ ∀ c ∈ cs, ¬ Late c

theorem Verdict.quiet {x : App β} {r : Except Exc β} (h : Executes s p x w cs r w')
    (hmild : ∀ c ∈ cs, Mild c.op) : Verdict w cs w' :=
  iff_of_true (executes_tokens h fun c hc => (mild_call (hmild c hc)).2) fun c hc =>
    (mild_call (hmild c hc)).1

/-- A part of the program before the commit does not matter. -/
theorem Verdict.bind {x : App β} {g : β → App γ}
    (h : Executes s p (x >>= g) w cs (.error e) w') (hx : x.All Mild fun _ => True)
    (hg : ∀ a w₁ cs₁ cs₂, cs = cs₁ ++ cs₂ → Executes s p x w cs₁ (.ok a) w₁ →
      Executes s p (g a) w₁ cs₂ (.error e) w' → Verdict w₁ cs₂ w') : Verdict w cs w' := by
  rcases runs_bind.mp h with ⟨a, w₁, cs₁, cs₂, hfirst, hrest, rfl⟩ | ⟨e', hfirst, -⟩
  · have hmild := hfirst.ops hx
    have htokens := executes_tokens hfirst fun c hc => (mild_call (hmild c hc)).2
    have hv : w'.tokens = w₁.tokens ↔ ∀ c ∈ cs₂, ¬ Late c := hg a w₁ cs₁ cs₂ rfl hfirst hrest
    rw [Verdict, ← htokens, hv, List.forall_mem_append]
    exact ⟨fun h => ⟨fun c hc => (mild_call (hmild c hc)).1, h⟩, fun h => h.2⟩
  · exact .quiet hfirst (hfirst.ops hx)

/-! ## The commit -/

theorem length_apply (ts : List RefreshToken) (x : Write) :
    (x.apply ts).length = ts.length + x.inserted.toList.length := by
  cases x <;> simp [Write.apply, Write.inserted]

theorem length_foldl_apply (xs : List Write) (ts : List RefreshToken) :
    (xs.foldl Write.apply ts).length = ts.length + (xs.filterMap Write.inserted).length := by
  induction xs generalizing ts with
  | nil => rfl
  | cons x xs ih =>
    rw [List.foldl_cons, ih, length_apply]
    cases hx : x.inserted <;> simp [hx]
    omega

/-- A session that inserted a row does not see the table as it is. -/
theorem view_ne_of_insert {t : RefreshToken} (h : .insert t ∈ w.writesOf p) : w.view p ≠ w.tokens := by
  intro heq
  have hlen := length_foldl_apply (w.writesOf p) w.tokens
  rw [show (w.writesOf p).foldl Write.apply w.tokens = w.tokens from heq] at hlen
  have hmem : t ∈ (w.writesOf p).filterMap Write.inserted := List.mem_filterMap.mpr ⟨_, h, rfl⟩
  have hpos := List.length_pos_of_mem hmem
  omega

/-- The end of a rotation. -/
theorem commit_verdict {t : RefreshToken} {id : Id} {pair : TokenResponse}
    (hins : .insert t ∈ w.writesOf p)
    (h : Executes s p (await .commit >>= fun _ => await (.refreshRow id) >>= fun _ =>
      addTokenToGracePeriod jti pair >>= fun _ => pure pair) w cs (.error e) w') :
    Verdict w cs w' := by
  rcases executes_await.mp h with ⟨d, u, w₁, cs₁, ⟨-, rfl⟩, hrest, rfl⟩ | ⟨d, f, e', hx, rfl, -⟩
  · -- the commit took effect, so that a later call fails
    have hne : w.view p ≠ w.tokens := view_ne_of_insert hins
    rcases executes_await.mp hrest with ⟨d', u', w₂, cs₂, ⟨-, rfl⟩, hset, rfl⟩ | ⟨d', f, e', hx, rfl, -⟩
    · rcases executes_await.mp hset with ⟨d'', u'', w₃, cs₃, -, hend, rfl⟩ | ⟨d'', f, e', hx, rfl, -⟩
      · exact absurd (runs_ret.mp hend).2.1 (by simp)
      · have htokens : w'.tokens = w.view p := (exec_frame hx).1.tokens (by simp)
        refine iff_of_false (htokens ▸ hne) fun hno => hno ⟨f, .set jti pair 30, .error e'⟩ (by simp) ?_
        rintro rfl
        exact absurd hx.1 (by simp)
    · have htokens : w'.tokens = w.view p := (exec_frame hx).1.tokens (by simp)
      refine iff_of_false (htokens ▸ hne) fun hno => hno ⟨f, .refreshRow id, .error e'⟩ (by simp) ?_
      rintro rfl
      exact absurd hx.1 (by simp)
  · cases f with
    | done => exact absurd hx.1 (by simp)
    | failed =>
      obtain ⟨rfl, -⟩ := hx
      exact iff_of_true rfl (by simp [Late])
    | lost =>
      obtain ⟨-, ⟨r₀, -, rfl⟩, -⟩ := hx
      exact iff_of_false (view_ne_of_insert hins) (by simp [Late])

/-! ## The rotation -/

theorem mild_createRecord (userId : Id) (expiresAt : ℕ) (familyId : Option FamilyId) :
    (createRefreshTokenRecordService userId jti expiresAt familyId).All Mild fun _ => True := by
  refine Prog.All.tryCatch (m := fun _ => True) ?_ (fun _ _ => trivial) fun e _ => ?_
  · exact .bind (m := fun _ => True) (all_await trivial) (fun _ _ => trivial) fun _ _ => trivial
  · split_ifs <;> trivial

/-- A record that was created is among the writes of the session. -/
theorem createRecord_some {userId : Id} {expiresAt : ℕ} {familyId : Option FamilyId} {t : RefreshToken}
    (h : Executes s p (createRefreshTokenRecordService userId jti expiresAt familyId) w cs (.ok (some t))
      w') : .insert t ∈ w'.writesOf p := by
  rcases runs_tryCatch.mp h with ⟨a, hins, ha⟩ | ⟨e, w₁, cs₁, cs₂, -, hhandler, -⟩
  · obtain rfl := Except.ok.inj ha
    rcases executes_await.mp hins with ⟨d, t', w₁, cs₁, hx, hend, -⟩ | ⟨d, f, e, -, -, he⟩
    · obtain ⟨-, ht, rfl⟩ := runs_ret.mp hend
      obtain rfl := Option.some.inj (Except.ok.inj ht)
      obtain ⟨-, hx⟩ := hx
      split_ifs at hx
      · exact absurd hx.1 (by simp)
      · obtain ⟨f, -, hok, rfl⟩ := hx
        obtain rfl := Except.ok.inj hok
        simp
    · exact absurd he (by simp)
  · split_ifs at hhandler
    · exact absurd (runs_ret.mp hhandler).2.1 (by simp)
    · exact absurd (runs_raise.mp hhandler).2.1 (by simp)

theorem createAccessToken_writes {username : Option Username} {delta : Option ℕ} {token : Jwt}
    (h : Executes s p (createAccessToken username delta) w cs (.ok token) w') :
    w'.writesOf p = w.writesOf p := by
  rcases executes_await.mp h with ⟨d, n, w₁, cs₁, ⟨-, rfl⟩, hend, -⟩ | ⟨d, f, e, -, -, he⟩
  · obtain ⟨-, -, rfl⟩ := runs_ret.mp hend
    rfl
  · exact absurd he (by simp)

theorem mild_clock {f : ℕ → β} : (await .now >>= fun n => pure (f n) : App β).All Mild fun _ => True :=
  .bind (m := fun _ => True) (all_await trivial) (fun _ _ => trivial) fun _ _ => trivial

theorem rotate_verdict {record : RefreshToken} (huser : ∃ u ∈ w.users, u.username = some sub)
    (h : Executes s p (rotateToken s jti sub (some record)) w cs (.error e) w') : Verdict w cs w' := by
  unfold rotateToken at h
  refine .bind h (all_await trivial) fun user w₁ cs₁ cs₂ _ hfind hrest => ?_
  cases user with
  | none =>
    -- the user is there
    exfalso
    obtain ⟨f, ⟨_, ⟨d, rfl⟩, hx⟩, -⟩ := runs_perform.mp hfind
    cases f with
    | done =>
      obtain ⟨u, hu, hname⟩ := huser
      exact absurd hname (by simpa using List.find?_eq_none.mp (Except.ok.inj hx.1).symm u hu)
    | failed => exact absurd hx.2.choose_spec.2 (by simp)
    | lost => exact hx.1
  | some user =>
    simp only [getattr, Prog.ofExcept_ok, Prog.ret_bind] at hrest
    split_ifs at hrest with hid
    · obtain ⟨rfl, -, rfl⟩ := runs_raise.mp hrest
      exact .quiet hrest (by simp)
    · refine .bind hrest (all_await trivial) fun newJti w₂ cs₃ cs₄ _ _ hrest => ?_
      refine .bind hrest (all_await trivial) fun now w₃ cs₅ cs₆ _ _ hrest => ?_
      refine .bind hrest mild_clock fun newRefreshToken w₄ cs₇ cs₈ _ _ hrest => ?_
      refine .bind hrest (mild_createRecord _ _ _) fun newRecord w₅ cs₉ cs₁₀ _ hcreate hrest => ?_
      refine .bind hrest mild_clock fun newAccessToken w₆ cs₁₁ cs₁₂ _ haccess hrest => ?_
      cases newRecord with
      | none =>
        refine .bind hrest (all_await trivial) fun _ w₇ cs₁₃ cs₁₄ _ _ hrest => ?_
        obtain ⟨rfl, -, rfl⟩ := runs_raise.mp hrest
        exact .quiet hrest (by simp)
      | some newRecord =>
        refine commit_verdict (t := newRecord) ?_ hrest
        rw [createAccessToken_writes haccess]
        exact createRecord_some hcreate

/-! ## The endpoint -/

/-- When the UPDATE reads the clock: after the token was decoded. -/
def updateTime (cs : Calls) : Option ℕ := (readings cs)[1]?

/-- The session holds no writes, and the token `jti` of an existing user is live. -/
structure Presents (p : Pid) (w : World) (jti : Jti) (sub : Username) (cs : Calls) : Prop where
  idle : w.writesOf p = []
  user : ∃ u ∈ w.users, u.username = some sub
  live : ∃ t ∈ w.tokens, t.tokenHash = jti ∧ t.isRevoked = false ∧
    ∀ now ∈ updateTime cs, now < t.expiresAt

theorem decode_calls {payload x : Payload}
    (h : Executes s p (decodeRequest (some (.signed payload))) w cs (.ok x) w') :
    x = payload ∧ (∃ n, readings cs = [n]) ∧ w'.tokens = w.tokens ∧ w'.writesOf p = w.writesOf p := by
  rcases runs_tryCatch.mp h with ⟨a, hdecode, ha⟩ | ⟨e, w₁, cs₁, cs₂, -, hhandler, -⟩
  · obtain rfl := Except.ok.inj ha
    rcases executes_await.mp hdecode with ⟨d, n, w₁, cs₁, ⟨-, rfl⟩, hend, rfl⟩ | ⟨d, f, e, -, -, he⟩
    · cases hx : (Jwt.signed payload).decode n with
      | ok y =>
        rw [hx] at hend
        obtain ⟨rfl, hy, rfl⟩ := runs_ret.mp hend
        obtain rfl := Except.ok.inj hy
        obtain rfl := Jwt.signed.inj (decode_ok hx)
        exact ⟨rfl, ⟨n, rfl⟩, rfl, rfl⟩
      | error e =>
        rw [hx] at hend
        exact absurd (runs_raise.mp hend).2.1 (by simp)
    · exact absurd he (by simp)
  · split at hhandler <;> exact absurd (runs_raise.mp hhandler).2.1 (by simp)

theorem mild_decodeRequest (token : Option Jwt) : (decodeRequest token).All Mild fun _ => True := by
  refine Prog.All.tryCatch (m := fun _ => True) ?_ (fun _ _ => trivial) fun e _ => ?_
  · cases token with
    | none => trivial
    | some t =>
      refine .bind (m := fun _ => True) (all_await trivial) (fun n _ => ?_) fun _ _ => trivial
      cases t.decode n <;> trivial
  · split <;> trivial

theorem mild_validate : (validateAndRevokeRefreshTokenService jti).All Mild fun _ => True := by
  refine .bind (m := fun _ => True) (all_await trivial) (fun now _ => ?_) fun _ _ => trivial
  refine .bind (m := fun _ => True) ?_ (fun rows _ => ?_) fun _ _ => trivial
  · refine .bind (m := fun _ => True) (all_await trivial) (fun ids _ => ?_) fun _ _ => trivial
    refine (ops_updateRows _ ids).mono ?_ fun _ _ => trivial
    rintro _ ⟨id, rfl⟩
    trivial
  · match rows with
    | [] => trivial
    | [_] => trivial
    | _ :: _ :: _ => trivial

/-- The endpoint within the session. -/
theorem body_verdict {payload : Payload} {cs₀ : Calls} (hjti : payload.jti = some jti)
    (hsub : payload.sub = some sub) (hp : Presents p w jti sub (cs ++ cs₀))
    (h : Executes s p (do
      let payload ← decodeRequest (some (.signed payload))
      if payload.type ≠ some "refresh" then throw (httpException 401 "Invalid token type")
      else
        match payload.jti, payload.sub with
        | some jti, some sub => refreshJti s jti sub
        | _, _ => throw (httpException 401 "Invalid token in payload")) w cs (.error e) w') :
    Verdict w cs w' := by
  refine .bind h (mild_decodeRequest _) fun x w₁ cs₁ cs₂ hcs hdecode hrest => ?_
  obtain ⟨rfl, ⟨n₀, hn₀⟩, htokens, hwrites⟩ := decode_calls hdecode
  split_ifs at hrest with htype
  · obtain ⟨rfl, -, rfl⟩ := runs_raise.mp hrest
    exact .quiet hrest (by simp)
  · rw [hjti, hsub] at hrest
    refine .bind hrest mild_validate fun record w₂ cs₃ cs₄ hcs' hval hrest => ?_
    have hkeep := (executes_users hval).trans (executes_users hdecode)
    cases record with
    | some record => exact rotate_verdict (hkeep ▸ hp.user) hrest
    | none =>
      -- the UPDATE takes a live token
      exfalso
      obtain ⟨-, n, hn, hno⟩ := validate_none hval
      obtain ⟨t, ht, hhash, hlive, hexp⟩ := hp.live
      have hview : w₁.view p = w.tokens := by
        rw [World.view, hwrites, hp.idle, htokens]
        rfl
      have htime : updateTime (cs ++ cs₀) = some n := by
        rw [updateTime, hcs, hcs', readings_append, readings_append, readings_append, hn₀, hn]
        rfl
      exact hno t (hview ▸ ht) ⟨hhash, hexp n htime, hlive⟩

/-- Redis refuses the SET. -/
def setFails (p : Pid) : Attempt sig Exc World
  | .set _ _ _, w => some (.failed, .error RedisError, w)
  | op, w => quietly p op w

theorem setFails_sound (s : Settings) (p : Pid) (op : Op) (w : World) (f : Fault)
    (r : Except Exc op.Ret) (w' : World) (h : setFails p op w = some (f, r, w')) :
    ((auth s).amid Ticks).exec f p op w r w' := by
  cases op with
  | set key value ex =>
    obtain ⟨rfl, rfl, rfl⟩ : f = .failed ∧ r = .error RedisError ∧ w' = w := by
      simpa [setFails, eq_comm] using h
    exact ⟨.tick 0, ⟨0, rfl⟩, rfl, RedisError, rfl, rfl⟩
  | _ => exact quietly_sound s p _ w f r w' h

/-- The user `u` holds the token `j`. -/
def holder : World :=
  { World.empty with
    clock := 5
    users := [⟨1, some "u", some "h"⟩]
    nextUser := 2
    tokens := [⟨1, 1, "j", 100 * second, false, 0⟩]
    nextToken := 2
    jtis := ["j"] }

def held : Payload := ⟨some "refresh", some "j", some "u", some 100⟩

/-- The refresh failed, and the token is revoked. -/
def burned : Calls × Except Exc TokenResponse × World → Bool
  | (cs, .error _, w) => updateTime cs = some 5 && w.tokens.any fun t => t.id = 1 && t.isRevoked
  | _ => false

theorem holder_burned : ∃ cs e w', Executes ⟨15, 30⟩ 0 (refreshToken ⟨15, 30⟩ (some (.signed held)))
    holder cs (.error e) w' ∧ Presents 0 holder "j" "u" cs ∧ w'.tokens ≠ holder.tokens := by
  obtain ⟨cs, r, w', hrun, htest⟩ := execute_test (setFails 0) holder burned
    (setFails_sound ⟨15, 30⟩ 0) (by decide +kernel : (execute (setFails 0)
      (refreshToken ⟨15, 30⟩ (some (.signed held))) holder).any burned = true)
  cases r with
  | ok pair => exact absurd htest (by simp [burned])
  | error e =>
    obtain ⟨htime, hrevoked⟩ := Bool.and_eq_true_iff.mp htest
    have htime : updateTime cs = some 5 := of_decide_eq_true htime
    refine ⟨cs, e, w', hrun, ⟨rfl, ⟨_, List.mem_singleton_self _, rfl⟩,
      ⟨_, List.mem_singleton_self _, rfl, rfl, ?_⟩⟩, ?_⟩
    · rw [htime]
      rintro now hnow
      obtain rfl := Option.some.inj hnow
      decide
    · intro heq
      rw [heq] at hrevoked
      exact absurd hrevoked (by decide)

/-- **A refresh that ends in an error left the table as it was exactly when no call came too late.**
For any table, users and other sessions, and any failures of the calls: the token can be presented again
unless the answer to the commit was lost, or the commit took effect and a call after it failed. -/
theorem refresh_restores {payload : Payload} (hjti : payload.jti = some jti)
    (hsub : payload.sub = some sub) (hp : Presents p w jti sub cs)
    (h : Executes s p (refreshToken s (some (.signed payload))) w cs (.error e) w') :
    w'.tokens = w.tokens ↔ ∀ c ∈ cs, ¬ Late c := by
  obtain ⟨cs₁, w₁, cs₂, hbody, rfl, hclose, htokens⟩ := withDb_error h
  have hv : w₁.tokens = w.tokens ↔ ∀ c ∈ cs₁, ¬ Late c := body_verdict hjti hsub hp hbody
  have hmild : ∀ c ∈ cs₂, ¬ Late c := by
    intro c hc
    refine (mild_call ?_).1
    rcases hclose c hc with hop | hop <;>
    · rw [hop]
      trivial
  rw [htokens, hv, List.forall_mem_append]
  exact ⟨fun h => ⟨h, hmild⟩, fun h => h.1⟩

theorem refresh_restores_sample : ∃ cs e w', Executes ⟨15, 30⟩ 0
    (refreshToken ⟨15, 30⟩ (some (.signed held))) holder cs (.error e) w' ∧
      (w'.tokens = holder.tokens ↔ ∀ c ∈ cs, ¬ Late c) := by
  obtain ⟨cs, e, w', hrun, hp, -⟩ := holder_burned
  exact ⟨cs, e, w', hrun, refresh_restores rfl rfl hp hrun⟩

/-- The client holds a revoked token after Redis refused the SET. -/
theorem refresh_burns : ¬ ∀ (s : Settings) (p : Pid) (w w' : World) (jti : Jti) (sub : Username)
    (cs : Calls) (e : Exc) (payload : Payload), payload.jti = some jti → payload.sub = some sub →
      Presents p w jti sub cs → Executes s p (refreshToken s (some (.signed payload))) w cs (.error e) w' →
        w'.tokens = w.tokens := by
  intro h
  obtain ⟨cs, e, w', hrun, hp, hne⟩ := holder_burned
  exact hne (h _ 0 holder w' "j" "u" cs e held rfl rfl hp hrun)

end Auth

end PaymentRecon
