import PaymentRecon.Auth.Alone

/-!
# Expiry — what a refused token is answered

The UPDATE takes a token that expires after its reading of the clock, and the endpoint refuses one that
expired before a later reading.  A token that expires at both readings is neither.
-/

namespace PaymentRecon

open Interleave

namespace Auth

variable {s : Settings} {β : Type} {p : Pid} {w w₁ w' : World} {jti : Jti} {sub : Username}
  {cs cs₁ : Calls}

/-- `refreshJti` after the token was refused. -/
def answerRefused (s : Settings) (jti : Jti) (sub : Username) : App TokenResponse := do
  let cached ← refuseToken jti
  match cached with
  | some pair => pure pair
  | none => rotateToken s jti sub none

/-- `refreshJti` after the UPDATE. -/
def afterUpdate (s : Settings) (jti : Jti) (sub : Username) : Option RefreshToken → App TokenResponse
  | some record => rotateToken s jti sub (some record)
  | none => answerRefused s jti sub

theorem refreshJti_eq : refreshJti s jti sub =
    validateAndRevokeRefreshTokenService jti >>= afterUpdate s jti sub := by
  unfold refreshJti
  congr 1

/-! ## Operations that answer -/

/-- The operations that need neither a fresh string nor the indexes. -/
def Op.Ready : Op → Prop
  | .newJti | .insertToken _ _ _ _ => False
  | _ => True

/-- The other sessions hold no locks. -/
def Unlocked (p : Pid) (w : World) : Prop := ∀ x ∈ w.locks, x.1 = p

theorem run_ok {op : Op} {r : Except Exc op.Ret} (hop : op.Ready) (h : op.run p w r w') :
    ∃ x, r = .ok x := by
  cases op with
  | newJti => exact hop.elim
  | insertToken userId jti expiresAt familyId => exact hop.elim
  | verifyPassword plain hashed =>
    obtain ⟨⟨b, rfl⟩, -⟩ := h
    exact ⟨b, rfl⟩
  | beginUpdate sel =>
    obtain ⟨ids, -, rfl, -⟩ := h
    exact ⟨ids, rfl⟩
  | updateRow sel id =>
    obtain ⟨-, h⟩ := h
    split at h <;> exact ⟨_, h.1⟩
  | _ => exact ⟨_, h.1⟩

theorem run_exists {op : Op} (hop : op.Ready) (hw : Unlocked p w) :
    ∃ r w', op.run p w r w' ∧ Unlocked p w' := by
  have hfree : ∀ id, ¬ w.LockedByOther p id := by
    rintro id ⟨x, hx, hne, -⟩
    exact hne (hw x hx)
  cases op with
  | newJti => exact hop.elim
  | insertToken userId jti expiresAt familyId => exact hop.elim
  | verifyPassword plain hashed => exact ⟨_, w, ⟨⟨true, rfl⟩, rfl⟩, hw⟩
  | beginUpdate sel => exact ⟨_, _, ⟨_, .refl _, rfl, rfl⟩, hw⟩
  | updateRow sel id =>
    cases ht : (w.view p).find? fun t => t.id = id ∧ sel.Matches t with
    | none =>
      refine ⟨.ok none, w.visited p id, ⟨hfree id, ?_⟩, hw⟩
      rw [ht]
      exact ⟨rfl, rfl⟩
    | some t =>
      refine ⟨.ok (some t.revoke), ((w.lock p id).write p (.revoke id)).visited p id,
        ⟨hfree id, ?_⟩, ?_⟩
      · rw [ht]
        exact ⟨rfl, rfl⟩
      · intro x hx
        rcases List.mem_append.mp hx with hx | hx
        · exact hw x hx
        · rw [List.mem_singleton.mp hx]
  | commit | rollback | close =>
    exact ⟨_, _, ⟨rfl, rfl⟩, fun x hx => hw x (List.mem_of_mem_filter hx)⟩
  | _ => exact ⟨_, _, ⟨rfl, rfl⟩, hw⟩

/-- Such an operation and the rest of the program, when nothing fails. -/
theorem executes_ready {γ : Type} {op : Op} {g : op.Ret → App γ} {r : Except Exc γ}
    (h : Executes s p (await op >>= g) w cs r w') (hs : ∀ c ∈ cs, c.fault = .done) (hop : op.Ready) :
    ∃ d x w₁ cs₁, op.run p (w.outer (.tick d)) (.ok x) w₁ ∧ Executes s p (g x) w₁ cs₁ r w' ∧
      cs = ⟨.done, op, .ok x⟩ :: cs₁ ∧ ∀ c ∈ cs₁, c.fault = .done := by
  rcases executes_await.mp h with ⟨d, x, w₁, cs₁, hx, hrest, rfl⟩ | ⟨d, f, e, hx, rfl, -⟩
  · exact ⟨d, x, w₁, cs₁, hx, hrest, rfl, (List.forall_mem_cons.mp hs).2⟩
  · obtain rfl : f = .done := hs _ (List.mem_singleton_self _)
    obtain ⟨x, hok⟩ := run_ok hop hx
    exact absurd hok (by simp)

theorem updateRows_ok {sel : Where} {ids : List Id} {r : Except Exc (List RefreshToken)}
    (h : Executes s p (updateRows sel ids) w cs r w') (hs : ∀ c ∈ cs, c.fault = .done) :
    ∃ rows, r = .ok rows := by
  induction ids generalizing w cs r with
  | nil => exact ⟨[], (runs_ret.mp h).2.1⟩
  | cons id ids ih =>
    obtain ⟨d, row, w₁, cs₁, -, hrest, rfl, hs₁⟩ := executes_ready h hs trivial
    rcases runs_bind.mp hrest with ⟨rows, w₂, cs₂, cs₃, -, hend, rfl⟩ | ⟨e, hrows, rfl⟩
    · exact ⟨_, (runs_ret.mp hend).2.1⟩
    · obtain ⟨rows, hok⟩ := ih hrows hs₁
      exact absurd hok (by simp)

theorem update_ok {sel : Where} {r : Except Exc (List RefreshToken)}
    (h : Executes s p (update sel) w cs r w') (hs : ∀ c ∈ cs, c.fault = .done) :
    ∃ rows, r = .ok rows := by
  obtain ⟨d, ids, w₁, cs₁, -, hrest, rfl, hs₁⟩ := executes_ready h hs trivial
  exact updateRows_ok hrest hs₁

/-- A revocation that is committed before the answer. -/
theorem revoke_then {sel : Where} {e : Exc} {r : Except Exc β}
    (h : Executes s p ((update sel >>= fun _ => pure ()) >>= fun _ => await .commit >>= fun _ => throw e)
      w cs r w') (hs : ∀ c ∈ cs, c.fault = .done) : r = .error e := by
  rcases runs_bind.mp h with ⟨_, w₁, cs₁, cs₂, -, hrest, rfl⟩ | ⟨e', hrevoke, -⟩
  · obtain ⟨d, x, w₂, cs₃, -, hend, rfl, -⟩ :=
      executes_ready hrest (List.forall_mem_append.mp hs).2 trivial
    exact (runs_raise.mp hend).2.1
  · rcases runs_bind.mp hrevoke with ⟨rows, w₁, cs₁, cs₂, -, hend, -⟩ | ⟨e', hupdate, -⟩
    · exact absurd (runs_ret.mp hend).2.1 (by simp)
    · obtain ⟨rows, hok⟩ := update_ok hupdate hs
      exact absurd hok (by simp)

/-! ## The answer -/

/-- The endpoint answers 401, or a pair that the grace cache gave. -/
def Answers (jti : Jti) (cs : Calls) (r : Except Exc TokenResponse) : Prop :=
  (∃ detail, r = .error (httpException 401 detail)) ∨
    ∃ pair, r = .ok pair ∧ ⟨.done, .get jti, .ok (some pair)⟩ ∈ cs

/-- The endpoint reads an attribute of the missing record. -/
def ReadsMissing (r : Except Exc TokenResponse) : Prop :=
  ∃ name, r = .error ⟨.attributeError, "'NoneType' object has no attribute '" ++ name ++ "'"⟩

theorem not_answers {r : Except Exc TokenResponse} (h : ReadsMissing r) : ¬ Answers jti cs r := by
  obtain ⟨name, rfl⟩ := h
  rintro (⟨detail, he⟩ | ⟨pair, he, -⟩)
  · have hkind : ExcKind.attributeError = .httpException 401 :=
      congrArg Exc.kind (Except.error.inj he)
    exact absurd hkind (by simp)
  · exact absurd he (by simp)

/-- Without a record the rotation ends at once. -/
theorem rotateToken_none {r : Except Exc TokenResponse}
    (h : Executes s p (rotateToken s jti sub none) w cs r w') (hs : ∀ c ∈ cs, c.fault = .done) :
    ReadsMissing r ∧ readings cs = [] := by
  obtain ⟨d, user, w₁, cs₁, -, hrest, rfl, -⟩ := executes_ready h hs trivial
  cases user with
  | none =>
    obtain ⟨rfl, rfl, -⟩ := runs_raise.mp hrest
    exact ⟨⟨"family_id", rfl⟩, rfl⟩
  | some user =>
    obtain ⟨rfl, rfl, -⟩ := runs_raise.mp hrest
    exact ⟨⟨"user_id", rfl⟩, rfl⟩

/-- The row of the token is revoked, or it expired before a reading of the clock; there may be none. -/
def Spent (p : Pid) (w : World) (jti : Jti) (cs : Calls) : Prop :=
  ∀ t ∈ (w.view p).find? (fun t => t.tokenHash = jti), t.isRevoked = true ∨
    ∃ n ∈ readings cs, t.expiresAt < n

/-- The row is live and did not expire before the one reading. -/
def Left (p : Pid) (w : World) (jti : Jti) (cs : Calls) : Prop :=
  ∃ t ∈ (w.view p).find? (fun t => t.tokenHash = jti), t.isRevoked = false ∧
    ∃ n, readings cs = [n] ∧ n ≤ t.expiresAt

/-- What becomes of a refused token, by the row that the session finds. -/
theorem refuseToken_cases {r : Except Exc (Option TokenResponse)}
    (h : Executes s p (refuseToken jti) w cs r w') (hs : ∀ c ∈ cs, c.fault = .done) :
    (((∃ detail, r = .error (httpException 401 detail)) ∨
        ∃ pair, r = .ok (some pair) ∧ ⟨.done, .get jti, .ok (some pair)⟩ ∈ cs) ∧ Spent p w jti cs) ∨
      r = .ok none ∧ Left p w jti cs := by
  unfold refuseToken at h
  obtain ⟨d, record, w₁, cs₁, ⟨hrecord, rfl⟩, hcase, rfl, hs₁⟩ := executes_ready h hs trivial
  have hfind : record = (w.view p).find? fun t => t.tokenHash = jti := Except.ok.inj hrecord
  cases record with
  | none =>
    obtain ⟨-, rfl, -⟩ := runs_raise.mp hcase
    refine Or.inl ⟨Or.inl ⟨_, rfl⟩, fun t ht => ?_⟩
    rw [← hfind] at ht
    exact absurd ht (by simp)
  | some t =>
    have hspent : ∀ cs, (t.isRevoked = true ∨ ∃ n ∈ readings cs, t.expiresAt < n) →
        Spent p w jti cs := by
      intro cs ht t' ht'
      rw [← hfind] at ht'
      obtain rfl := Option.some.inj ht'
      exact ht
    simp only at hcase
    split_ifs at hcase with hrev
    · -- a revoked token, which the grace cache may know
      obtain ⟨d', pair, w₂, cs₂, -, hgrace, rfl, hs₂⟩ := executes_ready hcase hs₁ trivial
      refine Or.inl ⟨?_, hspent _ (Or.inl hrev)⟩
      cases pair with
      | none => exact Or.inl ⟨_, revoke_then hgrace hs₂⟩
      | some pair =>
        obtain ⟨rfl, rfl, -⟩ := runs_ret.mp hgrace
        exact Or.inr ⟨pair, rfl, by simp⟩
    · obtain ⟨d', n, w₂, cs₂, -, hexpiry, rfl, hs₂⟩ := executes_ready hcase hs₁ trivial
      split_ifs at hexpiry with hlate
      · refine Or.inl ⟨Or.inl ⟨_, revoke_then hexpiry hs₂⟩, hspent _ (Or.inr ⟨n, ?_, hlate⟩)⟩
        exact List.mem_cons_self
      · obtain ⟨rfl, rfl, -⟩ := runs_ret.mp hexpiry
        exact Or.inr ⟨rfl, t, hfind.symm, by simpa using hrev, n, rfl, not_lt.mp hlate⟩

/-- The endpoint answers, or goes on with a token that is left. -/
theorem answerRefused_cases {r : Except Exc TokenResponse}
    (h : Executes s p (answerRefused s jti sub) w cs r w') (hs : ∀ c ∈ cs, c.fault = .done) :
    Answers jti cs r ∧ Spent p w jti cs ∨ ReadsMissing r ∧ Left p w jti cs := by
  rcases runs_bind.mp h with ⟨cached, w₁, cs₁, cs₂, hrefuse, hrest, rfl⟩ | ⟨e, hrefuse, rfl⟩
  · rw [List.forall_mem_append] at hs
    rcases refuseToken_cases hrefuse hs.1 with ⟨⟨detail, he⟩ | ⟨pair, hok, hget⟩, hspent⟩ | ⟨hok, hleft⟩
    · exact absurd he (by simp)
    · obtain rfl := Except.ok.inj hok
      obtain ⟨rfl, rfl, -⟩ := runs_ret.mp hrest
      rw [List.append_nil]
      exact Or.inl ⟨Or.inr ⟨pair, rfl, hget⟩, hspent⟩
    · obtain rfl := Except.ok.inj hok
      obtain ⟨hmissing, hnone⟩ := rotateToken_none hrest hs.2
      obtain ⟨t, ht, hlive, n, hn, hle⟩ := hleft
      refine Or.inr ⟨hmissing, t, ht, hlive, n, ?_, hle⟩
      rw [readings_append, hn, hnone]
      rfl
  · rcases refuseToken_cases hrefuse hs with ⟨⟨detail, he⟩ | ⟨pair, hok, -⟩, hspent⟩ | ⟨hok, -⟩
    · exact Or.inl ⟨Or.inl ⟨detail, congrArg Except.error (Except.error.inj he)⟩, hspent⟩
    · exact absurd hok (by simp)
    · exact absurd hok (by simp)

theorem ready_update (sel : Where) : (update sel).All Op.Ready fun _ => True := by
  refine .bind (m := fun _ => True) (all_await trivial) (fun ids _ => ?_) fun _ _ => trivial
  refine (ops_updateRows sel ids).mono ?_ fun _ _ => trivial
  rintro _ ⟨id, rfl⟩
  trivial

theorem ready_revoke_then {sel : Where} {e : Exc} : ((update sel >>= fun _ => pure ()) >>=
    fun _ => await .commit >>= fun _ => throw e : App β).All Op.Ready fun _ => True := by
  refine .bind (m := fun _ => True) ?_ (fun _ _ => ?_) fun _ _ => trivial
  · exact .bind (m := fun _ => True) (ready_update sel) (fun _ _ => trivial) fun _ _ => trivial
  · exact .bind (m := fun _ => True) (all_await trivial) (fun _ _ => trivial) fun _ _ => trivial

theorem ready_answerRefused : (answerRefused s jti sub).All Op.Ready fun _ => True := by
  refine .bind (m := fun _ => True) ?_ (fun cached _ => ?_) fun _ _ => trivial
  · refine .bind (m := fun _ => True) (all_await trivial) (fun record _ => ?_) fun _ _ => trivial
    cases record with
    | none => trivial
    | some record =>
      simp only
      split_ifs
      · refine .bind (m := fun _ => True) (all_await trivial) (fun pair _ => ?_) fun _ _ => trivial
        cases pair with
        | none => exact ready_revoke_then
        | some pair => trivial
      · refine .bind (m := fun _ => True) (all_await trivial) (fun n _ => ?_) fun _ _ => trivial
        split_ifs
        · exact ready_revoke_then
        · trivial
  · cases cached with
    | some pair => trivial
    | none =>
      refine .bind (m := fun _ => True) (all_await trivial) (fun user _ => ?_) fun _ _ => trivial
      cases user <;> trivial

/-- It comes to an end unless other sessions hold locks. -/
theorem answerRefused_exists (hfree : Unlocked p w) :
    ∃ cs r w', Executes s p (answerRefused s jti sub) w cs r w' ∧ ∀ c ∈ cs, c.fault = .done := by
  have hreach : Reaches ((auth s).amid Ticks) p (Unlocked p) (fun c => c.fault = .done)
      (answerRefused s jti sub) := by
    refine .all ready_answerRefused fun op hop w hw => ?_
    obtain ⟨r, w', hx, hw'⟩ := run_exists hop hw
    exact ⟨.done, r, w', ⟨.tick 0, ⟨0, rfl⟩, hx⟩, rfl, hw'⟩
  obtain ⟨cs, r, w', hrun, hs, -⟩ := hreach w hfree
  exact ⟨cs, r, w', hrun, hs⟩

/-- The unique index finds the row. -/
theorem find_hash (hkey : ((w.view p).map (·.tokenHash)).Nodup) {t : RefreshToken} (ht : t ∈ w.view p)
    (hhash : t.tokenHash = jti) : (w.view p).find? (fun t => t.tokenHash = jti) = some t := by
  cases hf : (w.view p).find? fun t => t.tokenHash = jti with
  | none => exact absurd hhash (by simpa using List.find?_eq_none.mp hf t ht)
  | some t' =>
    have hhash' : t'.tokenHash = jti := by simpa using List.find?_some hf
    rw [List.inj_on_of_nodup_map hkey (List.mem_of_find?_eq_some hf) ht (hhash'.trans hhash.symm)]

/-- The user `u` has a token that expires now. -/
def boundary : World :=
  { World.empty with
    clock := 5
    users := [⟨1, some "u", some "h"⟩]
    tokens := [⟨1, 1, "j", 5, false, 0⟩] }

/-- The UPDATE does not take it. -/
def refusedCalls : Calls :=
  [⟨.done, .now, .ok 5⟩, ⟨.done, .beginUpdate (.live "j" 5), .ok []⟩]

def afterRefusal : World := boundary.setStmt 0 (some ⟨.live "j" 5, []⟩)

theorem boundary_refused : Executes s 0 (validateAndRevokeRefreshTokenService "j") boundary
    refusedCalls (.ok none) afterRefusal :=
  execute_runs (quietly_sound s 0) rfl

/-- Every call went through, and the program ended with an AttributeError. -/
def endsMissing : Calls × Except Exc TokenResponse × World → Bool
  | (cs, .error e, _) => cs.all (fun c => c.fault = .done) && e.kind = .attributeError
  | _ => false

/-- **A refused token is answered unless it expires at both readings.**  For any table, and any readings
of the clock by the UPDATE and by the comparison after it: when the UPDATE returned no record, the
endpoint answers 401 or a cached pair if and only if the two readings and the expiry of a live token are
not all the same.  Otherwise it reads an attribute of the missing record. -/
theorem refused_answered {now₁ now₂ : ℕ} (hkey : ((w.view p).map (·.tokenHash)).Nodup)
    (hval : Executes s p (validateAndRevokeRefreshTokenService jti) w cs₁ (.ok none) w₁)
    (hnow₁ : readings cs₁ = [now₁]) :
    (Unlocked p w → ∃ cs r w', Executes s p (answerRefused s jti sub) w₁ cs r w' ∧
      ∀ c ∈ cs, c.fault = .done) ∧
    ∀ cs r w', Executes s p (answerRefused s jti sub) w₁ cs r w' → (∀ c ∈ cs, c.fault = .done) →
      (∀ n ∈ readings cs, n = now₂) →
      (Answers jti cs r ↔ ¬ (now₁ = now₂ ∧
        ∃ t ∈ w.view p, t.tokenHash = jti ∧ t.isRevoked = false ∧ t.expiresAt = now₁)) := by
  obtain ⟨⟨htokens, hwrites, hlocks⟩, n, hn, hrefused⟩ := validate_none hval
  obtain rfl : n = now₁ := List.head_eq_of_cons_eq (hn.symm.trans hnow₁)
  have hview : w₁.view p = w.view p := by
    rw [World.view, World.writesOf, htokens, hwrites]
    rfl
  refine ⟨fun hfree => answerRefused_exists fun x hx => hfree x (hlocks ▸ hx), ?_⟩
  intro cs r w' hrun hs hnow₂
  rcases answerRefused_cases hrun hs with ⟨hans, hspent⟩ | ⟨hmissing, t, ht, hlive, m, hm, hle⟩
  · refine iff_of_true hans ?_
    rintro ⟨rfl, t, ht, hhash, hlive, hexp⟩
    rcases hspent t (hview ▸ find_hash hkey ht hhash) with hrev | ⟨m, hm, hlt⟩
    · rw [hlive] at hrev
      exact absurd hrev (by simp)
    · have heq := hnow₂ m hm
      omega
  · refine iff_of_false (not_answers hmissing) (not_not.mpr ?_)
    obtain rfl : m = now₂ := hnow₂ m (hm ▸ List.mem_singleton_self m)
    rw [hview] at ht
    have hmem : t ∈ w.view p := List.mem_of_find?_eq_some ht
    have hhash : t.tokenHash = jti := by simpa using List.find?_some ht
    -- the UPDATE did not take the row, so it had expired by then
    have hexp : t.expiresAt ≤ n := by
      by_contra hlt
      exact hrefused t hmem ⟨hhash, not_le.mp hlt, hlive⟩
    have hupto := ((executes_clock hval).2 n (hn ▸ List.mem_singleton_self n)).2
    have hfrom := ((executes_clock hrun).2 m (hm ▸ List.mem_singleton_self m)).1
    exact ⟨by omega, t, hmem, hhash, hlive, by omega⟩

theorem refused_answered_sample :
    (Unlocked 0 boundary → ∃ cs r w', Executes ⟨15, 30⟩ 0 (answerRefused ⟨15, 30⟩ "j" "u") afterRefusal
      cs r w' ∧ ∀ c ∈ cs, c.fault = .done) ∧
    ∀ cs r w', Executes ⟨15, 30⟩ 0 (answerRefused ⟨15, 30⟩ "j" "u") afterRefusal cs r w' →
      (∀ c ∈ cs, c.fault = .done) → (∀ n ∈ readings cs, n = 6) →
      (Answers "j" cs r ↔ ¬ (5 = 6 ∧
        ∃ t ∈ boundary.view 0, t.tokenHash = "j" ∧ t.isRevoked = false ∧ t.expiresAt = 5)) :=
  refused_answered (by decide) boundary_refused rfl

/-- When no time passes, the endpoint reads an attribute of the missing record. -/
theorem boundary_unanswered : ¬ ∀ (s : Settings) (p : Pid) (w w₁ : World) (jti : Jti) (sub : Username)
    (cs₁ : Calls), ((w.view p).map (·.tokenHash)).Nodup →
      Executes s p (validateAndRevokeRefreshTokenService jti) w cs₁ (.ok none) w₁ →
      ∀ cs r w', Executes s p (answerRefused s jti sub) w₁ cs r w' → (∀ c ∈ cs, c.fault = .done) →
        Answers jti cs r := by
  intro h
  obtain ⟨cs, r, w', hrun, htest⟩ := execute_test (quietly 0) afterRefusal endsMissing
    (quietly_sound ⟨15, 30⟩ 0) (by decide +kernel : (execute (quietly 0)
      (answerRefused ⟨15, 30⟩ "j" "u") afterRefusal).any endsMissing = true)
  cases r with
  | ok pair => exact absurd htest (by simp [endsMissing])
  | error e =>
    obtain ⟨hs, hkind⟩ := Bool.and_eq_true_iff.mp htest
    rcases h ⟨15, 30⟩ 0 boundary afterRefusal "j" "u" refusedCalls (by decide) boundary_refused cs _ w'
      hrun (by simpa using hs) with ⟨detail, he⟩ | ⟨pair, he, -⟩
    · have hother : e.kind = .httpException 401 := congrArg Exc.kind (Except.error.inj he)
      exact absurd ((of_decide_eq_true hkind).symm.trans hother) (by simp)
    · exact absurd he (by simp)

end Auth

end PaymentRecon
