import PaymentRecon.Auth.Extension

/-!
# Grace — what the grace cache holds

An entry of the grace cache is made for a token whose rotation is committed.  So in every run that
starts with an empty Redis, the key of an entry is the hash of a revoked row, and a live token has no
entry.  When no request is in flight, no session holds a lock or an uncommitted write.
-/

namespace PaymentRecon

open Interleave Rely

namespace Auth

variable {s : Settings} {w w' w₀ : World} {p q : Pid} {past : List Label} {t : RefreshToken}
  {jti : Jti} {c c' : State} {tr tr' : List Label} {a : Label} {β : Type}

/-- No token was ever issued, and Redis is empty. -/
structure World.Unused (w : World) : Prop extends World.Blank w where
  grace : ∀ key, w.grace key = none

/-- Every hash was generated, every entry of the cache is for a revoked row, and every lock for a
revocation that is not committed yet. -/
structure World.Tidy (w : World) : Prop where
  generated : ∀ t ∈ w.rows, t.tokenHash ∈ w.jtis
  cached : ∀ key, w.grace key ≠ none → ∃ t ∈ w.tokens, t.tokenHash = key ∧ t.isRevoked = true
  locks : ∀ x ∈ w.locks, .revoke x.2 ∈ w.writesOf x.1

/-! ## What a step is known to meet -/

/-- A thread presents one token, and every step is lawful. -/
structure Known (w : World) (past : List Label) (a : Label) (w' : World) : Prop where
  lineage : Lineage w past
  lawful : ∀ p f op r, a = .run p f op r → Lawful p w past op
  spawned : ∀ p x y, .spawn p x ∈ past → .spawn p y ∈ past → x = y

theorem known_step (h₀ : w₀.Blank) (hr : Lts.Run (Steps s) (.init w₀) tr c) (hs : Steps s c a c') :
    Known c.world c.past a c'.world := by
  have hH := run_holds h₀ hr
  have hpast : c.past = tr := run_past hr
  refine ⟨hH.inv, ((sound s).step hs trivial hH).1.2, fun p x y hx hy => ?_⟩
  rw [hpast] at hx hy
  exact spawn_unique hr hx hy

/-- A run goes on with such steps. -/
theorem known_run (h₀ : w₀.Blank) (hr₀ : Lts.Run (Steps s) (.init w₀) tr c)
    {P : State → Label → State → Prop} (hr : Lts.Run (Lts.restrict (Steps s) P) c tr' c') :
    Lts.Run (Lts.restrict (Steps s) fun c a c' => Allows Known c a c' ∧ P c a c') c tr' c' := by
  induction hr with
  | nil => exact .nil
  | snoc hr hs ih => exact ih.snoc ⟨hs.1, known_step h₀ (hr₀.append hr.of_restrict) hs.1, hs.2⟩

/-! ## What a request guarantees -/

/-- The hash of a new row was generated, and an entry of the cache is for the token that the request
presented and whose successor is in the table. -/
def Grants (p : Pid) (w : World) (past : List Label) : Op → Prop
  | .insertToken _ jti _ _ => jti ∈ w.jtis
  | .set key _ _ => Bears past p key ∧ ∃ t, Inserted past p t ∧ w.Committed t
  | _ => True

def grants (s : Settings) : Rely sig Exc TokenResponse World Request Event where
  machine := auth s
  cond := Known
  inv := fun w _ => w.Tidy
  start := fun _ => top
  guard := Grants
  final := fun _ _ => top

/-! ## The world from step to step -/

/-- An entry of the cache was there before, or the step wrote it. -/
theorem wstep_entry {key : Jti} {pair : TokenResponse} {e : ℕ} (hw : (auth s).WStep w a w') (h : w'.grace key = some (pair, e)) :
    w.grace key = some (pair, e) ∨ ∃ q f ex r, a = .run q f (.set key pair ex) r := by
  have hgoes : ∀ q f op r r₀, a = .run q f op r → op.run q w r₀ w' →
      w.grace key = some (pair, e) ∨ ∃ q f ex r, a = .run q f (.set key pair ex) r := by
    rintro q f op r r₀ rfl hx
    rcases (run_frame hx).grace with hgrace | ⟨key', value, ex, rfl, hother⟩
    · exact Or.inl (hgrace ▸ h)
    · by_cases hkey : key = key'
      · subst hkey
        obtain ⟨-, rfl⟩ := hx
        have hentry : some (value, w.clock + ex * second) = some (pair, e) := by
          simpa [Function.update_self] using h
        obtain ⟨rfl, -⟩ := Prod.mk.inj (Option.some.inj hentry)
        exact Or.inr ⟨q, f, ex, r, rfl⟩
      · exact Or.inl (hother key hkey ▸ h)
  cases a with
  | spawn q x =>
    obtain rfl : w' = w := hw
    exact Or.inl h
  | crash q =>
    obtain rfl : w' = w.rollback q := hw
    exact Or.inl h
  | outer x =>
    obtain rfl : w' = w.outer x := hw
    refine Or.inl ?_
    cases x with
    | tick d => exact h
    | register username hashedPassword =>
      simp only [World.outer] at h
      split_ifs at h <;> exact h
  | run q f op r =>
    cases f with
    | done => exact hgoes q .done op r r rfl hw
    | failed =>
      obtain rfl : w' = w := hw.1
      exact Or.inl h
    | lost =>
      obtain ⟨-, ⟨r₀, hx⟩, -⟩ := hw
      exact hgoes q .lost op r r₀ rfl hx

/-- A key gets an entry by a SET alone. -/
theorem wstep_grace (hw : (auth s).WStep w a w') (h : w'.grace jti ≠ none) :
    w.grace jti ≠ none ∨ ∃ q f value ex r, a = .run q f (.set jti value ex) r := by
  obtain ⟨⟨pair, e⟩, hentry⟩ := Option.ne_none_iff_exists'.mp h
  rcases wstep_entry hw hentry with hold | ⟨q, f, ex, r, hset⟩
  · exact Or.inl (by simp [hold])
  · exact Or.inr ⟨q, f, pair, ex, r, hset⟩

/-- A hash of a row is one of a row before, or of the row that was inserted. -/
theorem Lineage.hash_step (h : Lineage w past) (hw : (auth s).WStep w a w') (ht : t ∈ w'.rows) :
    (∃ r ∈ w.rows, r.tokenHash = t.tokenHash) ∨ ∃ q f userId expiresAt familyId r,
      a = .run q f (.insertToken userId t.tokenHash expiresAt familyId) r := by
  have hsame : w'.rows = w.rows → (∃ r ∈ w.rows, r.tokenHash = t.tokenHash) ∨
      ∃ q f userId expiresAt familyId r,
        a = .run q f (.insertToken userId t.tokenHash expiresAt familyId) r :=
    fun he => Or.inl ⟨t, he ▸ ht, rfl⟩
  cases a with
  | spawn q x =>
    obtain rfl : w' = w := hw
    exact hsame rfl
  | crash q =>
    obtain rfl : w' = w.rollback q := hw
    exact Or.inl ⟨t, World.rollback_rows_sublist.subset ht, rfl⟩
  | outer x =>
    obtain rfl : w' = w.outer x := hw
    exact hsame (outer_same x).rows
  | run q f op r =>
    rcases exec_effect hw with ⟨rfl, -⟩ | ⟨r₀, hx, -⟩
    · exact hsame rfl
    · cases hx with
      | quiet _ hs => exact hsame hs.rows
      | @inserted userId jti expiresAt familyId g _ _ _ =>
        have hrows : t ∈ w.rows ++ [w.newToken userId jti expiresAt g] := by
          simpa [World.rows, World.inFlight, World.write, World.tickToken, List.filterMap_append,
            Write.inserted] using ht
        rcases List.mem_append.mp hrows with hrows | hrows
        · exact Or.inl ⟨t, hrows, rfl⟩
        · rw [List.mem_singleton.mp hrows]
          exact Or.inr ⟨q, f, userId, expiresAt, familyId, r, rfl⟩
      | committed =>
        obtain ⟨ids, new, hwrote, -⟩ := h.shape q
        have hperm := World.commit_rows_perm (·.tokenHash) (fun _ => rfl) hwrote
        obtain ⟨r, hr, hhash⟩ := List.mem_map.mp (hperm.subset (List.mem_map_of_mem ht))
        exact Or.inl ⟨r, hr, hhash⟩
      | took sel id hfree ht' =>
        refine hsame ?_
        simp [World.rows, World.inFlight, World.visited, World.setStmt, World.write, World.lock,
          List.filterMap_append, Write.inserted]
      | rolledBack => exact Or.inl ⟨t, World.rollback_rows_sublist.subset ht, rfl⟩
      | closed => exact Or.inl ⟨t, World.rollback_rows_sublist.subset ht, rfl⟩
      | _ => exact hsame rfl

/-- Every lock is still for a revocation. -/
theorem locks_step (hw : (auth s).WStep w a w') (h : ∀ x ∈ w.locks, .revoke x.2 ∈ w.writesOf x.1) :
    ∀ x ∈ w'.locks, .revoke x.2 ∈ w'.writesOf x.1 := by
  have hsame : w'.locks = w.locks → (∀ q, w'.writesOf q = w.writesOf q) →
      ∀ x ∈ w'.locks, .revoke x.2 ∈ w'.writesOf x.1 := by
    intro hl hwr x hx
    rw [hwr]
    exact h x (hl ▸ hx)
  have hended : ∀ q, w'.locks = (w.rollback q).locks →
      (∀ q', w'.writesOf q' = if q' = q then [] else w.writesOf q') →
      ∀ x ∈ w'.locks, .revoke x.2 ∈ w'.writesOf x.1 := by
    intro q hl hwr x hx
    obtain ⟨hne, hx⟩ := World.mem_rollback_locks.mp (hl ▸ hx)
    rw [hwr, if_neg hne]
    exact h x hx
  cases a with
  | spawn q x =>
    obtain rfl : w' = w := hw
    exact h
  | crash q =>
    obtain rfl : w' = w.rollback q := hw
    exact hended q rfl fun _ => World.rollback_writesOf
  | outer x =>
    obtain rfl : w' = w.outer x := hw
    exact hsame (outer_same x).locks fun _ => (outer_same x).writesOf
  | run q f op r =>
    rcases exec_effect hw with ⟨rfl, -⟩ | ⟨r₀, hx, -⟩
    · exact h
    · cases hx with
      | quiet _ hs => exact hsame hs.locks fun _ => hs.writesOf
      | took sel id _ _ =>
        intro x hx
        rw [World.visited_writesOf, World.write_writesOf, World.lock_writesOf]
        rcases List.mem_append.mp hx with hx | hx
        · exact List.mem_append_left _ (h x hx)
        · rw [List.mem_singleton.mp hx]
          simp
      | inserted userId jti expiresAt familyId _ _ _ =>
        intro x hx
        rw [World.write_writesOf]
        exact List.mem_append_left _ (h x hx)
      | committed => exact hended q rfl fun _ => World.commit_writesOf
      | rolledBack => exact hended q rfl fun _ => World.rollback_writesOf
      | closed => exact hended q rfl fun _ => World.rollback_writesOf
      | _ => exact h

/-- **Step lemma.** -/
theorem World.Tidy.step (h : w.Tidy) (hw : (auth s).WStep w a w') (hk : Known w past a w')
    (hg : ∀ p f op r, a = .run p f op r → Grants p w past op) : w'.Tidy := by
  refine ⟨fun t ht => ?_, fun key hkey => ?_, locks_step hw h.locks⟩
  · rcases hk.lineage.hash_step hw ht with ⟨r, hr, hhash⟩ | ⟨q, f, _, _, _, r, rfl⟩
    · exact (wstep_onward hw).jtis (hhash ▸ h.generated r hr)
    · exact (wstep_onward hw).jtis (hg q f _ r rfl)
  · have hkeep : ∀ t ∈ w.tokens, t.isRevoked = true →
        ∃ t' ∈ w'.tokens, t'.tokenHash = t.tokenHash ∧ t'.isRevoked = true := by
      intro t ht hrev
      obtain ⟨t', ht', -, hhash, -, hrev'⟩ := hk.lineage.row_step hw ht
      exact ⟨t', ht', hhash, hrev' hrev⟩
    rcases wstep_grace hw hkey with hold | ⟨q, f, value, ex, r, rfl⟩
    · obtain ⟨t, ht, rfl, hrev⟩ := h.cached key hold
      exact hkeep t ht hrev
    · -- the token that the request presented is the parent of the row that it committed
      obtain ⟨⟨x, hx, hj⟩, t, hi, hc⟩ := hg q f _ r rfl
      rcases hk.lineage.parent q t hi hc with ⟨t₀, ht₀, hrev, y, hy, hj'⟩ | ⟨y, hy, hj'⟩
      · obtain rfl := hk.spawned q x y hx hy
        obtain rfl := Option.some.inj (hj.symm.trans hj')
        exact hkeep t₀ ht₀ hrev
      · obtain rfl := hk.spawned q x y hx hy
        exact absurd (hj.symm.trans hj') (by simp)

/-! ## The endpoints -/

abbrev Grant (s : Settings) {β : Type} (p : Pid) (K : Facts) (x : App β)
    (post : Except Exc β → Facts) : Prop := (grants s).Ensures p K x post

/-- An operation about which nothing more is guaranteed. -/
def Op.Loose : Op → Prop
  | .insertToken _ _ _ _ | .set _ _ _ => False
  | _ => True

theorem Op.Loose.grants {op : Op} (h : op.Loose) : Grants p w past op := by
  cases op <;> first | exact h.elim | trivial

/-- A program of such operations keeps what every step keeps. -/
theorem grants_loose {K : Facts} (hK : (grants s).Persistent K) {x : App β}
    (h : x.All Op.Loose fun _ => True) : Grant s p K x fun _ => K :=
  Ensures.all (fun _ hop => Ensures.skip hK fun _ _ _ _ => hop.grants) h

theorem loose_update (sel : Where) : (update sel).All Op.Loose fun _ => True := by
  refine .bind (m := fun _ => True) ⟨trivial, fun r => ?_⟩ (fun ids _ => ?_) fun _ _ => trivial
  · cases r <;> trivial
  · induction ids with
    | nil => trivial
    | cons id ids ih =>
      refine .bind (m := fun _ => True) ⟨trivial, fun r => ?_⟩ (fun _ _ => ?_) fun _ _ => trivial
      · cases r <;> trivial
      · exact .bind (m := fun _ => True) ih (fun _ _ => trivial) fun _ _ => trivial

theorem loose_await {op : Op} (h : op.Loose) : (await op).All Op.Loose fun _ => True :=
  Prog.All.perform h fun _ => trivial

/-- Revoking, committing and refusing. -/
theorem loose_revoke {sel : Where} {e : Exc} : (do
    (do let _ ← update sel : App Unit)
    await .commit
    throw e : App β).All Op.Loose fun _ => True := by
  refine .bind (m := fun _ => True) ?_ (fun _ _ => ?_) fun _ _ => trivial
  · exact .bind (m := fun _ => True) (loose_update sel) (fun _ _ => trivial) fun _ _ => trivial
  · exact .bind (m := fun _ => True) (loose_await trivial) (fun _ _ => trivial) fun _ _ => trivial

theorem loose_reject {e : Exc} : (do
    await .rollback
    throw e : App β).All Op.Loose fun _ => True :=
  .bind (m := fun _ => True) (loose_await trivial) (fun _ _ => trivial) fun _ _ => trivial

theorem loose_clock {f : ℕ → β} :
    (await .now >>= fun n => pure (f n) : App β).All Op.Loose fun _ => True :=
  .bind (m := fun _ => True) (loose_await trivial) (fun _ _ => trivial) fun _ _ => trivial

theorem loose_validate : (validateAndRevokeRefreshTokenService jti).All Op.Loose fun _ => True := by
  refine .bind (m := fun _ => True) (loose_await trivial) (fun now _ => ?_) fun _ _ => trivial
  refine .bind (m := fun _ => True) (loose_update _) (fun rows _ => ?_) fun _ _ => trivial
  match rows with
  | [] => trivial
  | [_] => trivial
  | _ :: _ :: _ => trivial

theorem loose_refuseToken : (refuseToken jti).All Op.Loose fun _ => True := by
  refine .bind (m := fun _ => True) (loose_await trivial) (fun record _ => ?_) fun _ _ => trivial
  cases record with
  | none => trivial
  | some record =>
    simp only
    split_ifs
    · refine .bind (m := fun _ => True) (loose_await trivial) (fun pair _ => ?_) fun _ _ => trivial
      cases pair with
      | none => exact loose_revoke
      | some pair => trivial
    · refine .bind (m := fun _ => True) (loose_await trivial) (fun now _ => ?_) fun _ _ => trivial
      split_ifs
      · exact loose_revoke
      · trivial

/-- The session has flushed a row, and the request presented `jti`. -/
structure Flushed (p : Pid) (jti : Jti) (w : World) (past : List Label) : Prop where
  bears : Bears past p jti
  row : ∃ t, Inserted past p t ∧ .insert t ∈ w.writesOf p

/-- The row that the request inserted is in the table. -/
structure Stored (p : Pid) (jti : Jti) (w : World) (past : List Label) : Prop where
  bears : Bears past p jti
  row : ∃ t, Inserted past p t ∧ w.Committed t

theorem stable_flushed : (grants s).Stable p (Flushed p jti) := by
  intro w past a w' _ hw _ hp h
  obtain ⟨t, hi, hin⟩ := h.row
  exact ⟨h.bears.append, t, hi.append, (wstep_other hw hp).1 ▸ hin⟩

theorem persistent_stored : (grants s).Persistent (Stored p jti) := by
  intro w past a w' _ hw hk h
  obtain ⟨t, hi, t', ht', hid⟩ := h.row
  obtain ⟨t'', ht'', hid', -⟩ := hk.lineage.row_step hw ht'
  exact ⟨h.bears.append, t, hi.append, t'', ht'', hid'.trans hid⟩

theorem persistent_bears : (grants s).Persistent fun _ past => Bears past p jti :=
  fun _ _ _ _ _ _ _ h => h.append

theorem persistent_generated : (grants s).Persistent fun w _ => jti ∈ w.jtis :=
  fun _ _ _ _ _ hw _ h => (wstep_onward hw).jtis h

theorem grants_newJti {K : Facts} (hK : (grants s).Persistent K) :
    Grant s p K (await .newJti) (whenOk fun jti w past => K w past ∧ jti ∈ w.jtis) := by
  refine Ensures.perform (stable_whenOk fun jti => (hK.stable).and persistent_generated.stable)
    (fun _ _ _ _ => trivial) ?_
  intro f w past r w' hI hk hx hc
  cases r with
  | error e => trivial
  | ok jti =>
    refine ⟨hK w past (.run p f .newJti (.ok jti)) w' hI hx hc hk, ?_⟩
    cases f with
    | done =>
      obtain ⟨jti', -, heq, rfl⟩ := hx
      obtain rfl := Except.ok.inj heq
      exact List.mem_cons_self
    | failed =>
      obtain ⟨-, e, -, he⟩ := hx
      exact absurd he (by simp)
    | lost => exact hx.1.elim

theorem grants_insert {newJti : Jti} {userId : Id} {expiresAt : ℕ} {familyId : Option FamilyId} :
    Grant s p (fun w past => Bears past p jti ∧ newJti ∈ w.jtis)
      (createRefreshTokenRecordService userId newJti expiresAt familyId)
      (whenOk (Recorded (Flushed p jti))) := by
  refine Ensures.tryCatch (m := whenOk (Recorded (Flushed p jti))) ?_ (fun _ _ _ h => h) fun e => ?_
  · refine Ensures.bind (m := whenOk fun _ => Flushed p jti) ?_ (fun _ _ _ h => h) fun _ _ _ _ => trivial
    refine Ensures.perform (stable_whenOk fun _ => stable_flushed) (fun _ _ _ h => h.2) ?_
    intro f w past r w' _ h hx _
    cases r with
    | error e => trivial
    | ok t =>
      refine ⟨h.1.append, t, inserted_append.mpr (Or.inr ⟨f, userId, newJti, expiresAt, _, rfl⟩), ?_⟩
      rcases exec_effect hx with ⟨-, e, he⟩ | ⟨r₁, hx, heq | ⟨hl, -⟩⟩
      · exact absurd he (by simp)
      · subst heq
        cases hx with
        | quiet hq _ => exact hq.elim
        | inserted _ _ _ _ _ _ _ => simp
      · exact hl.elim
  · split_ifs <;> exact fun _ _ _ => trivial

/-- The clock is read while a row is in flight. -/
theorem grants_clock {f : ℕ → β} :
    Grant s p (Flushed p jti) (await .now >>= fun n => pure (f n)) fun _ => Flushed p jti := by
  refine Ensures.bind (m := fun _ => Flushed p jti) ?_ (fun _ _ _ h => h) fun _ _ _ h => h
  refine Ensures.perform (fun _ => stable_flushed) (fun _ _ _ _ => trivial) ?_
  intro f w past r w' _ h hx _
  obtain ⟨t, hi, hin⟩ := h.row
  exact ⟨h.bears.append, t, hi.append, (quiet_same hx trivial).writesOf ▸ hin⟩

theorem grants_commit :
    Grant s p (Flushed p jti) (await .commit) (whenOk fun _ => Stored p jti) := by
  refine Ensures.perform (stable_whenOk fun _ => persistent_stored.stable) (fun _ _ _ _ => trivial) ?_
  intro f w past r w' _ h hx hk
  cases r with
  | error e => trivial
  | ok u =>
    obtain ⟨t, hi, hin⟩ := h.row
    obtain rfl := commit_stmt hx
    obtain ⟨ids, new, hwrote, -⟩ := hk.lineage.shape p
    refine ⟨h.bears.append, t, hi.append, t, (Lineage.mem_commit hwrote).mpr (Or.inr ?_), rfl⟩
    rw [show w.writesOf p = _ from hwrote] at hin
    simpa using hin

theorem grants_rotateToken {sub : Username} {record : Option RefreshToken} :
    Grant s p (fun _ past => Bears past p jti) (rotateToken s jti sub record) fun _ => top := by
  have hfree : ∀ {γ : Type} {x : App γ}, x.All Op.Loose (fun _ => True) →
      Grant s p (fun _ past => Bears past p jti) x fun _ => top :=
    fun h => (grants_loose persistent_bears h).mono fun _ _ _ _ => trivial
  unfold rotateToken
  refine Ensures.bind (grants_loose persistent_bears (loose_await trivial)) ?_ fun _ _ _ _ => trivial
  intro user
  cases record with
  | none => cases user <;> exact fun _ _ _ => trivial
  | some record =>
    cases user with
    | none =>
      simp only [getattr, Prog.ofExcept_ok, Prog.ret_bind]
      exact hfree loose_revoke
    | some user =>
      simp only [getattr, Prog.ofExcept_ok, Prog.ret_bind]
      split_ifs
      · exact fun _ _ _ => trivial
      · refine Ensures.bind (grants_newJti persistent_bears) ?_ fun _ _ _ _ => trivial
        intro newJti
        have hkeep : (grants s).Persistent fun w past => Bears past p jti ∧ newJti ∈ w.jtis :=
          fun w past a w' hI hw hc h => ⟨h.1.append, (wstep_onward hw).jtis h.2⟩
        refine Ensures.bind (grants_loose hkeep (loose_await trivial)) ?_ fun _ _ _ _ => trivial
        intro now
        refine Ensures.bind (grants_loose hkeep loose_clock) ?_ fun _ _ _ _ => trivial
        intro newRefreshToken
        refine Ensures.bind grants_insert ?_ fun _ _ _ _ => trivial
        intro row
        cases row with
        | none =>
          refine (Ensures.ofAll (A := Op.Loose) (R := fun _ => True) ?_
            fun _ _ _ hop _ => hop.grants).mono fun _ _ _ _ => trivial
          exact .bind (m := fun _ => True) loose_clock (fun _ _ => loose_reject) fun _ _ => trivial
        | some row =>
          refine Ensures.bind (m := fun _ => Flushed p jti) grants_clock ?_ fun _ _ _ _ => trivial
          intro newAccessToken
          refine Ensures.bind grants_commit ?_ fun _ _ _ _ => trivial
          intro _
          refine Ensures.bind (grants_loose persistent_stored (loose_await trivial)) ?_
            fun _ _ _ _ => trivial
          intro _
          refine Ensures.bind (m := fun _ => top) ?_ (fun _ _ _ _ => trivial) fun _ _ _ _ => trivial
          exact Ensures.perform (fun _ => Persistent.true.stable) (fun _ _ _ h => ⟨h.bears, h.row⟩)
            fun _ _ _ _ _ _ _ _ _ => trivial

theorem grants_refreshJti {sub : Username} :
    Grant s p (fun _ past => Bears past p jti) (refreshJti s jti sub) fun _ => top := by
  unfold refreshJti
  refine Ensures.bind (grants_loose persistent_bears loose_validate) ?_ fun _ _ _ _ => trivial
  intro record
  cases record with
  | some record => exact grants_rotateToken
  | none =>
    refine Ensures.bind (grants_loose persistent_bears loose_refuseToken) ?_ fun _ _ _ _ => trivial
    intro pair
    cases pair with
    | some pair => exact fun _ _ _ => trivial
    | none => exact grants_rotateToken

theorem grants_withDb {K : Facts} {body : App TokenResponse} (h : Grant s p K body fun _ => top) :
    Grant s p K (withDb body) fun _ => top := by
  have hend : ∀ op : Op, op.Loose → Grant s p top (await op) fun _ => top :=
    fun _ h => grants_loose Persistent.true (loose_await h)
  unfold withDb
  refine Ensures.bind (m := fun _ => top) ?_ (fun _ => ?_) fun _ _ _ _ => trivial
  · refine Ensures.tryCatch (m := fun _ => top) h (fun _ _ _ _ => trivial) fun e => ?_
    refine Ensures.bind (hend .rollback trivial) (fun _ => ?_) fun _ _ _ _ => trivial
    exact Ensures.bind (hend .close trivial) (fun _ _ _ _ => trivial) fun _ _ _ _ => trivial
  · exact Ensures.bind (hend .close trivial) (fun _ _ _ _ => trivial) fun _ _ _ _ => trivial

theorem grants_refreshToken {token : Option Jwt} :
    Grant s p (fun _ past => .spawn p (.refresh token) ∈ past) (refreshToken s token) fun _ => top := by
  refine grants_withDb ?_
  have hkeep : (grants s).Persistent fun _ past => .spawn p (.refresh token) ∈ past :=
    fun _ _ _ _ _ _ _ h => List.mem_append_left _ h
  refine Ensures.bind (m := whenOk fun payload _ past => token = some (.signed payload) ∧
    .spawn p (.refresh token) ∈ past) ?_ (fun payload => ?_) fun _ _ _ _ => trivial
  · unfold decodeRequest
    refine Ensures.tryCatch (m := whenOk fun payload _ past => token = some (.signed payload) ∧
      .spawn p (.refresh token) ∈ past) ?_ (fun _ _ _ h => h) fun e => ?_
    · cases token with
      | none => exact fun _ _ _ => trivial
      | some t =>
        refine Ensures.bind (grants_loose hkeep (loose_await trivial)) ?_ fun _ _ _ _ => trivial
        intro now
        cases hd : t.decode now with
        | error e => exact fun _ _ _ => trivial
        | ok payload => exact fun _ _ h => ⟨congrArg some (decode_ok hd), h⟩
    · split <;> exact fun _ _ _ => trivial
  · refine Ensures.pure ?_
    rintro rfl
    split_ifs
    · exact fun _ _ _ => trivial
    · split
      · rename_i jti sub hjti hsub
        exact grants_refreshJti.pre fun _ _ h => ⟨_, h, hjti⟩
      · exact fun _ _ _ => trivial

theorem grants_loginUser {username : Username} {password : String} :
    Grant s p top (loginUser s username password) fun _ => top := by
  have hfree : ∀ {γ : Type} {x : App γ}, x.All Op.Loose (fun _ => True) → Grant s p top x fun _ => top :=
    fun h => grants_loose Persistent.true h
  refine grants_withDb ?_
  refine Ensures.bind (m := fun _ => top) (hfree ?_) (fun user => ?_) fun _ _ _ _ => trivial
  · refine .bind (m := fun _ => True) (loose_await trivial) (fun user _ => ?_) fun _ _ => trivial
    cases user with
    | none => trivial
    | some user =>
      refine .bind (m := fun _ => True) (loose_await trivial) (fun b _ => ?_) fun _ _ => trivial
      split_ifs <;> trivial
  cases user with
  | none => exact fun _ _ _ => trivial
  | some user =>
    refine Ensures.bind (hfree loose_clock) (fun accessToken => ?_) fun _ _ _ _ => trivial
    refine Ensures.bind (grants_newJti Persistent.true) (fun jti => ?_) fun _ _ _ _ => trivial
    refine Ensures.pre ?_ fun _ _ h => h.2
    refine Ensures.bind (grants_loose persistent_generated (loose_await trivial)) (fun now => ?_)
      fun _ _ _ _ => trivial
    refine Ensures.bind (grants_loose persistent_generated loose_clock) (fun refreshToken => ?_)
      fun _ _ _ _ => trivial
    refine Ensures.bind (m := fun _ => top) ?_ (fun record => ?_) fun _ _ _ _ => trivial
    · refine Ensures.tryCatch (m := fun _ => top) ?_ (fun _ _ _ _ => trivial) fun e => ?_
      · refine Ensures.bind (m := fun _ => top) ?_ (fun _ _ _ _ => trivial) fun _ _ _ _ => trivial
        exact Ensures.perform (fun _ => Persistent.true.stable) (fun _ _ _ h => h)
          fun _ _ _ _ _ _ _ _ _ => trivial
      · split_ifs <;> exact fun _ _ _ => trivial
    · cases record with
      | none => exact hfree loose_reject
      | some record =>
        refine hfree (.bind (m := fun _ => True) ?_ (fun _ _ => trivial) fun _ _ => trivial)
        refine Prog.All.tryCatch (m := fun _ => True) (loose_await trivial) (fun _ _ => trivial) fun e _ => ?_
        split_ifs
        · exact loose_reject
        · trivial

theorem grants_sound (s : Settings) : (grants s).Sound where
  prog p x _ _ _ _ _ := by
    cases x with
    | login username password => exact grants_loginUser.pre fun _ _ _ => trivial
    | refresh token => exact grants_refreshToken.pre fun _ _ h => h.2
  start _ _ _ _ _ _ _ _ _ _ := trivial
  begin _ _ _ _ _ := trivial
  spawn w _ p x h hk := h.step (s := s) (a := .spawn p x) rfl hk (by simp)
  run f w past p op r w' h hg hx hk := by
    refine h.step (s := s) (a := .run p f op r) hx hk ?_
    rintro p' f' op' r' heq
    cases heq
    exact hg
  crash w _ p h hk := h.step (s := s) (a := .crash p) rfl hk (by simp)
  outer w _ x h hk := h.step (s := s) (a := .outer x) rfl hk (by simp)

/-! ## Runs -/

theorem World.Unused.tidy (h : w.Unused) : w.Tidy where
  generated := by simp [World.rows, World.inFlight, h.tokens, h.writes]
  cached key hkey := absurd (h.grace key) hkey
  locks := by simp [h.locks]

/-- What every run keeps. -/
theorem tidy_run (h₀ : w₀.Unused) (hr : Lts.Run (Steps s) (.init w₀) tr c) : c.world.Tidy := by
  have hknown : Lts.Run (Lts.restrict (Steps s) fun c a c' => Allows Known c a c' ∧ True) (.init w₀) tr c :=
    known_run (P := fun _ _ _ => True) h₀.toBlank .nil (hr.mono fun _ _ _ hs => ⟨hs, trivial⟩)
  exact ((grants_sound s).derive (P := fun _ _ _ => True) (J := fun _ => True) hknown
    (Holds.init h₀.tidy fun _ => trivial) trivial fun _ _ _ _ _ _ _ _ => trivial).1.inv

/-- The cache has nothing for a live token. -/
theorem World.Tidy.live_uncached (h : w.Tidy) (hL : Lineage w past) (ht : t ∈ w.tokens)
    (hlive : t.isRevoked = false) : w.grace t.tokenHash = none := by
  by_contra hkey
  obtain ⟨t', ht', hhash, hrev⟩ := h.cached _ hkey
  obtain rfl := hL.hash_eq (List.mem_append_left _ ht') (List.mem_append_left _ ht) hhash
  exact absurd (hrev.symm.trans hlive) (by simp)

/-- The session of a thread that is not running wrote nothing. -/
theorem resting_writes (h₀ : w₀.Blank) (hr : Lts.Run (Steps s) (.init w₀) tr c)
    (hp : ¬ (c.thread p).Running) : c.world.writesOf p = [] := by
  by_cases hcrash : c.thread p = .crashed
  · exact (crashed_idle hr hcrash).2
  · rcases (run_holds h₀ hr).resting hp hcrash with ⟨hwr, -⟩ | ⟨r, hwr, -⟩
    · exact hwr
    · exact hwr

end Auth

end PaymentRecon
