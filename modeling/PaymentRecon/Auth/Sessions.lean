import Mathlib.Data.List.Perm.Basic
import PaymentRecon.Auth.Refresh

/-!
# Sessions — what an operation does to the rows, the locks and the open sessions

`Effect` lists the ways in which an operation goes through; `exec_effect` adds the faults.  A session
writes revocations first and inserts at most one row after them (`Wrote`), so that what it sees, and
commits, is a map over the table with that row appended.
-/

namespace PaymentRecon

open Interleave

namespace Auth

variable {w w' : World} {p q : Pid} {past : List Label}

namespace World

/-- The committed rows and the rows in flight. -/
def rows (w : World) : List RefreshToken := w.tokens ++ w.inFlight

/-! ## Frame -/

theorem mem_writesOf {x : Write} : x ∈ w.writesOf p ↔ (p, x) ∈ w.writes := by
  simp [writesOf]

theorem mem_inFlight {t : RefreshToken} : t ∈ w.inFlight ↔ ∃ p, .insert t ∈ w.writesOf p := by
  simp only [inFlight, List.mem_filterMap, mem_writesOf]
  constructor
  · rintro ⟨⟨p, x⟩, hx, ht⟩
    cases x with
    | insert t' =>
      obtain rfl := Option.some.inj ht
      exact ⟨p, hx⟩
    | revoke id => exact absurd ht (by simp [Write.inserted])
  · rintro ⟨p, hp⟩
    exact ⟨_, hp, rfl⟩

@[simp] theorem setStmt_tokens {s : Option Stmt} : (w.setStmt p s).tokens = w.tokens := rfl
@[simp] theorem setStmt_locks {s : Option Stmt} : (w.setStmt p s).locks = w.locks := rfl
@[simp] theorem setStmt_writesOf {s : Option Stmt} : (w.setStmt p s).writesOf q = w.writesOf q := rfl
@[simp] theorem setStmt_stmt {s : Option Stmt} :
    (w.setStmt p s).stmt = Function.update w.stmt p s := rfl

@[simp] theorem visited_tokens {id : Id} : (w.visited p id).tokens = w.tokens := rfl
@[simp] theorem visited_locks {id : Id} : (w.visited p id).locks = w.locks := rfl
@[simp] theorem visited_writesOf {id : Id} : (w.visited p id).writesOf q = w.writesOf q := rfl
@[simp] theorem visited_stmt {id : Id} : (w.visited p id).stmt =
    Function.update w.stmt p ((w.stmt p).map fun s => { s with todo := s.todo.erase id }) := rfl

@[simp] theorem lock_tokens {id : Id} : (w.lock p id).tokens = w.tokens := rfl
@[simp] theorem lock_writesOf {id : Id} : (w.lock p id).writesOf q = w.writesOf q := rfl
@[simp] theorem lock_stmt {id : Id} : (w.lock p id).stmt = w.stmt := rfl

@[simp] theorem write_tokens {x : Write} : (w.write p x).tokens = w.tokens := rfl
@[simp] theorem write_locks {x : Write} : (w.write p x).locks = w.locks := rfl
@[simp] theorem write_stmt {x : Write} : (w.write p x).stmt = w.stmt := rfl

@[simp] theorem write_writesOf {x : Write} :
    (w.write p x).writesOf q = w.writesOf q ++ if q = p then [x] else [] := by
  by_cases hq : q = p
  · subst hq
    simp [write, writesOf, List.filter_append]
  · have hp : ¬ p = q := fun h => hq h.symm
    simp [write, writesOf, List.filter_append, hq, hp]

@[simp] theorem tickToken_tokens : w.tickToken.tokens = w.tokens := rfl
@[simp] theorem tickToken_locks : w.tickToken.locks = w.locks := rfl
@[simp] theorem tickToken_stmt : w.tickToken.stmt = w.stmt := rfl
@[simp] theorem tickToken_writesOf : w.tickToken.writesOf q = w.writesOf q := rfl

@[simp] theorem rollback_tokens : (w.rollback p).tokens = w.tokens := rfl
@[simp] theorem rollback_stmt : (w.rollback p).stmt = Function.update w.stmt p none := rfl

@[simp] theorem rollback_writesOf :
    (w.rollback p).writesOf q = if q = p then [] else w.writesOf q := by
  simp only [rollback, setStmt, writesOf, List.filter_filter]
  by_cases hq : q = p
  · subst hq
    rw [if_pos rfl, List.filter_eq_nil_iff.mpr, List.map_nil]
    simp
  · rw [if_neg hq]
    congr 1
    refine List.filter_congr fun x _ => ?_
    by_cases hx : x.1 = q
    · simp [hx, hq]
    · simp [hx]

theorem mem_rollback_locks {id : Id} :
    (q, id) ∈ (w.rollback p).locks ↔ q ≠ p ∧ (q, id) ∈ w.locks := by
  simp [rollback, setStmt, and_comm]

@[simp] theorem commit_tokens : (w.commit p).tokens = w.view p := rfl
@[simp] theorem commit_stmt : (w.commit p).stmt = Function.update w.stmt p none := rfl

@[simp] theorem commit_writesOf : (w.commit p).writesOf q = if q = p then [] else w.writesOf q :=
  rollback_writesOf (w := w) (p := p)

theorem mem_commit_locks {id : Id} :
    (q, id) ∈ (w.commit p).locks ↔ q ≠ p ∧ (q, id) ∈ w.locks := mem_rollback_locks (w := w)

/-! ## The view of a session -/

/-- The session `p` revoked the rows `ids`, and then inserted the row `new`. -/
def Wrote (w : World) (p : Pid) (ids : List Id) (new : Option RefreshToken) : Prop :=
  w.writesOf p = ids.map .revoke ++ new.toList.map .insert

/-- Revoke the row when it is one of `ids`. -/
def revokeIn (ids : List Id) (t : RefreshToken) : RefreshToken := if t.id ∈ ids then t.revoke else t

section RevokeIn

variable (ids : List Id) (t : RefreshToken)

@[simp] theorem revokeIn_id : (revokeIn ids t).id = t.id := by
  unfold revokeIn
  split_ifs <;> rfl

@[simp] theorem revokeIn_tokenHash : (revokeIn ids t).tokenHash = t.tokenHash := by
  unfold revokeIn
  split_ifs <;> rfl

@[simp] theorem revokeIn_familyId : (revokeIn ids t).familyId = t.familyId := by
  unfold revokeIn
  split_ifs <;> rfl

/-- A row is live afterwards when it was live and is not one of `ids`. -/
theorem revokeIn_live {ids : List Id} {t : RefreshToken} :
    (revokeIn ids t).isRevoked = false ↔ t.id ∉ ids ∧ t.isRevoked = false := by
  unfold revokeIn
  split_ifs with h
  · simp [RefreshToken.revoke, h]
  · simp [h]

theorem revokeIn_of_live {ids : List Id} {t : RefreshToken} (h : (revokeIn ids t).isRevoked = false) :
    revokeIn ids t = t := if_neg (revokeIn_live.mp h).1

end RevokeIn

theorem foldl_revoke {ids : List Id} {ts : List RefreshToken} :
    (ids.map Write.revoke).foldl Write.apply ts = ts.map (revokeIn ids) := by
  induction ids generalizing ts with
  | nil => exact (List.map_id ts).symm
  | cons id ids ih =>
    rw [List.map_cons, List.foldl_cons, ih]
    simp only [Write.apply, List.map_map]
    refine List.map_congr_left fun t _ => ?_
    by_cases h : t.id = id
    · by_cases h' : id ∈ ids <;> simp [revokeIn, RefreshToken.revoke, h, h']
    · simp [revokeIn, h]

theorem view_eq {ids : List Id} {new : Option RefreshToken} (h : w.Wrote p ids new) :
    w.view p = w.tokens.map (revokeIn ids) ++ new.toList := by
  unfold view
  rw [h, List.foldl_append, foldl_revoke]
  cases new <;> simp [Write.apply]

/-- The rows of a session that did not insert. -/
theorem view_of_revokes {ids : List Id} (h : w.Wrote p ids none) :
    w.view p = w.tokens.map (revokeIn ids) := by
  rw [view_eq h]
  simp

/-- The row of the session joins the others in flight. -/
theorem inFlight_perm {ids : List Id} {new : Option RefreshToken} (h : w.Wrote p ids new) :
    w.inFlight.Perm (new.toList ++ (w.rollback p).inFlight) := by
  have hown : (w.writes.filter fun x => x.1 = p).filterMap (fun x => x.2.inserted) = new.toList := by
    have : ((w.writesOf p).filterMap Write.inserted) = new.toList := by
      rw [h]
      cases new <;> simp [List.filterMap_append, List.filterMap_map, Write.inserted,
        Function.comp_def]
    rwa [writesOf, List.filterMap_map] at this
  have hsplit := (List.filter_append_perm (fun x : Pid × Write => x.1 = p) w.writes).symm.filterMap
    fun x => x.2.inserted
  rw [List.filterMap_append, hown] at hsplit
  refine hsplit.trans (List.Perm.append_left _ (List.Perm.of_eq ?_))
  simp [inFlight, rollback, setStmt]

/-- The keys of the rows after a commit are those before it. -/
theorem commit_rows_perm {κ : Type} (key : RefreshToken → κ) (hkey : ∀ t, key t.revoke = key t)
    {ids : List Id} {new : Option RefreshToken} (h : w.Wrote p ids new) :
    ((w.commit p).rows.map key).Perm (w.rows.map key) := by
  have hrevoke : ∀ t, key (revokeIn ids t) = key t := by
    intro t
    unfold revokeIn
    split_ifs
    · exact hkey t
    · rfl
  have hview : (w.view p).map key = w.tokens.map key ++ new.toList.map key := by
    rw [view_eq h, List.map_append, List.map_map]
    congr 1
    exact List.map_congr_left fun t _ => hrevoke t
  have hin := (inFlight_perm h).map key
  rw [List.map_append] at hin
  show ((w.view p ++ (w.rollback p).inFlight).map key).Perm ((w.tokens ++ w.inFlight).map key)
  rw [List.map_append, List.map_append, hview, List.append_assoc]
  exact List.Perm.append_left _ hin.symm

theorem rollback_rows_sublist : (w.rollback p).rows.Sublist w.rows :=
  List.Sublist.append_left (List.Sublist.filterMap _ List.filter_sublist) _

end World

/-! ## Effects -/

/-- The operations that change neither a row nor a session. -/
def Op.Quiet : Op → Prop
  | .now | .newJti | .verifyPassword _ _ | .selectUser _ | .selectToken _ | .refreshRow _ | .get _
  | .set _ _ _ => True
  | _ => False

/-- The rows and the sessions are as before. -/
structure World.Same (w w' : World) : Prop where
  tokens : w'.tokens = w.tokens
  nextToken : w'.nextToken = w.nextToken
  locks : w'.locks = w.locks
  writes : w'.writes = w.writes
  stmt : w'.stmt = w.stmt

theorem World.Same.refl : w.Same w := ⟨rfl, rfl, rfl, rfl, rfl⟩

theorem World.Same.writesOf (h : w.Same w') : w'.writesOf p = w.writesOf p := by
  rw [World.writesOf, h.writes, World.writesOf]

theorem World.Same.inFlight (h : w.Same w') : w'.inFlight = w.inFlight := by
  rw [World.inFlight, h.writes, World.inFlight]

theorem World.Same.rows (h : w.Same w') : w'.rows = w.rows := by
  rw [World.rows, h.tokens, h.inFlight, World.rows]

/-- What an operation of the session `p` that goes through answers and leaves. -/
inductive Effect (p : Pid) (w : World) : (op : Op) → Except Exc op.Ret → World → Prop
  | quiet {op : Op} {r : Except Exc op.Ret} {w' : World} (h : op.Quiet) (hs : w.Same w') :
      Effect p w op r w'
  | begun (sel : Where) {ids : List Id}
      (h : ids.Perm (((w.view p).filter fun t => sel.Matches t).map (·.id))) :
      Effect p w (.beginUpdate sel) (.ok ids) (w.setStmt p (some ⟨sel, ids⟩))
  | took (sel : Where) (id : Id) {t : RefreshToken} (hfree : ¬ w.LockedByOther p id)
      (ht : (w.view p).find? (fun t => t.id = id ∧ sel.Matches t) = some t) :
      Effect p w (.updateRow sel id) (.ok (some t.revoke))
        (((w.lock p id).write p (.revoke id)).visited p id)
  | passed (sel : Where) (id : Id)
      (ht : (w.view p).find? (fun t => t.id = id ∧ sel.Matches t) = none) :
      Effect p w (.updateRow sel id) (.ok none) (w.visited p id)
  | inserted (userId : Id) (jti : Jti) (expiresAt : ℕ) (familyId : Option FamilyId) {f : FamilyId}
      (hbusy : ¬ w.HashBusy p jti) (hok : ¬ w.Refuses p userId jti)
      (hf : familyId = some f ∨ familyId = none ∧ w.FreshFamily f) :
      Effect p w (.insertToken userId jti expiresAt familyId)
        (.ok (w.newToken userId jti expiresAt f))
        (w.tickToken.write p (.insert (w.newToken userId jti expiresAt f)))
  | refused (userId : Id) (jti : Jti) (expiresAt : ℕ) (familyId : Option FamilyId) :
      Effect p w (.insertToken userId jti expiresAt familyId) (.error IntegrityError) w.tickToken
  | committed : Effect p w .commit (.ok ()) (w.commit p)
  | rolledBack : Effect p w .rollback (.ok ()) (w.rollback p)
  | closed : Effect p w .close (.ok ()) (w.rollback p)

theorem run_effect {op : Op} {r : Except Exc op.Ret} (h : op.run p w r w') : Effect p w op r w' := by
  cases op with
  | newJti =>
    obtain ⟨jti, -, rfl, rfl⟩ := h
    exact .quiet trivial ⟨rfl, rfl, rfl, rfl, rfl⟩
  | beginUpdate sel =>
    obtain ⟨ids, hids, rfl, rfl⟩ := h
    exact .begun sel hids
  | updateRow sel id =>
    obtain ⟨hfree, h⟩ := h
    split at h
    · rename_i t ht
      obtain ⟨rfl, rfl⟩ := h
      exact .took sel id hfree ht
    · rename_i ht
      obtain ⟨rfl, rfl⟩ := h
      exact .passed sel id ht
  | insertToken userId jti expiresAt familyId =>
    obtain ⟨hbusy, h⟩ := h
    split_ifs at h with hr
    · obtain ⟨rfl, rfl⟩ := h
      exact .refused userId jti expiresAt familyId
    · obtain ⟨f, hf, rfl, rfl⟩ := h
      exact .inserted userId jti expiresAt familyId hbusy hr hf
  | commit =>
    obtain ⟨rfl, rfl⟩ := h
    exact .committed
  | rollback =>
    obtain ⟨rfl, rfl⟩ := h
    exact .rolledBack
  | close =>
    obtain ⟨rfl, rfl⟩ := h
    exact .closed
  | _ =>
    obtain ⟨-, rfl⟩ := h
    exact .quiet trivial ⟨rfl, rfl, rfl, rfl, rfl⟩

/-- An operation that goes through, fails without effect, or takes effect and loses its answer. -/
theorem exec_effect {f : Fault} {op : Op} {r : Except Exc op.Ret} (h : exec f p op w r w') :
    (w' = w ∧ ∃ e, r = .error e) ∨ ∃ r₀, Effect p w op r₀ w' ∧
      (r = r₀ ∨ op.Loses ∧ ∃ e, r = .error e) := by
  cases f with
  | done => exact Or.inr ⟨r, run_effect h, Or.inl rfl⟩
  | failed =>
    obtain ⟨rfl, e, -, rfl⟩ := h
    exact Or.inl ⟨rfl, e, rfl⟩
  | lost =>
    obtain ⟨hl, ⟨r₀, hr⟩, e, -, rfl⟩ := h
    exact Or.inr ⟨r₀, run_effect hr, Or.inr ⟨hl, e, rfl⟩⟩

/-- What an operation leaves as it is outside the rows and the sessions; the table changes by a commit
alone, and the cache by a SET. -/
structure Frame (op : Op) (w w' : World) : Prop where
  users : w'.users = w.users
  clock : w'.clock = w.clock
  tokens : op ≠ .commit → w'.tokens = w.tokens
  grace : w'.grace = w.grace ∨ ∃ key value ex, op = .set key value ex ∧
    ∀ k, k ≠ key → w'.grace k = w.grace k
  jtis : w.jtis ⊆ w'.jtis

theorem Frame.refl (op : Op) (w : World) : Frame op w w :=
  ⟨rfl, rfl, fun _ => rfl, Or.inl rfl, List.Subset.refl _⟩

theorem run_frame {op : Op} {r : Except Exc op.Ret} (h : op.run p w r w') : Frame op w w' := by
  cases op with
  | newJti =>
    obtain ⟨jti, -, -, rfl⟩ := h
    exact ⟨rfl, rfl, fun _ => rfl, Or.inl rfl, List.subset_cons_self _ _⟩
  | beginUpdate sel =>
    obtain ⟨ids, -, -, rfl⟩ := h
    exact ⟨rfl, rfl, fun _ => rfl, Or.inl rfl, List.Subset.refl _⟩
  | updateRow sel id =>
    obtain ⟨-, h⟩ := h
    split at h <;>
    · obtain ⟨-, rfl⟩ := h
      exact ⟨rfl, rfl, fun _ => rfl, Or.inl rfl, List.Subset.refl _⟩
  | insertToken userId jti expiresAt familyId =>
    obtain ⟨-, h⟩ := h
    split_ifs at h
    · obtain ⟨-, rfl⟩ := h
      exact ⟨rfl, rfl, fun _ => rfl, Or.inl rfl, List.Subset.refl _⟩
    · obtain ⟨f, -, -, rfl⟩ := h
      exact ⟨rfl, rfl, fun _ => rfl, Or.inl rfl, List.Subset.refl _⟩
  | commit =>
    obtain ⟨-, rfl⟩ := h
    exact ⟨rfl, rfl, fun hne => absurd rfl hne, Or.inl rfl, List.Subset.refl _⟩
  | set key value ex =>
    obtain ⟨-, rfl⟩ := h
    exact ⟨rfl, rfl, fun _ => rfl, Or.inr ⟨key, value, ex, rfl, fun k hk => Function.update_of_ne hk _ _⟩,
      List.Subset.refl _⟩
  | _ =>
    obtain ⟨-, rfl⟩ := h
    exact ⟨rfl, rfl, fun _ => rfl, Or.inl rfl, List.Subset.refl _⟩

/-- The same with faults; a call that fails without effect leaves everything. -/
theorem exec_frame {f : Fault} {op : Op} {r : Except Exc op.Ret} (h : exec f p op w r w') :
    Frame op w w' ∧ (f = .failed → w' = w) := by
  cases f with
  | done => exact ⟨run_frame h, by simp⟩
  | failed => exact ⟨h.1 ▸ Frame.refl op w, fun _ => h.1⟩
  | lost =>
    obtain ⟨-, ⟨r₀, hr⟩, -⟩ := h
    exact ⟨run_frame hr, by simp⟩

/-- The world from step to step: users and generated jtis are only added, and the clock goes on. -/
structure Onward (w w' : World) : Prop where
  users : w.users <+: w'.users
  jtis : w.jtis ⊆ w'.jtis
  clock : w.clock ≤ w'.clock

theorem Onward.refl (w : World) : Onward w w := ⟨List.prefix_refl _, List.Subset.refl _, le_rfl⟩

theorem Frame.onward {op : Op} (h : Frame op w w') : Onward w w' :=
  ⟨by rw [h.users], h.jtis, h.clock.ge⟩

theorem outer_onward (x : Event) : Onward w (w.outer x) := by
  cases x with
  | tick d => exact ⟨List.prefix_refl _, List.Subset.refl _, Nat.le_add_right _ _⟩
  | register username hashedPassword =>
    simp only [World.outer]
    split_ifs
    · exact .refl w
    · exact ⟨List.prefix_append _ _, List.Subset.refl _, le_rfl⟩

theorem wstep_onward {s : Settings} {a : Label} (h : (auth s).WStep w a w') : Onward w w' := by
  cases a with
  | spawn q x =>
    obtain rfl : w' = w := h
    exact .refl _
  | run q f op r => exact (exec_frame h).1.onward
  | crash q =>
    obtain rfl : w' = w.rollback q := h
    exact ⟨List.prefix_refl _, List.Subset.refl _, le_rfl⟩
  | outer x =>
    obtain rfl : w' = w.outer x := h
    exact outer_onward x

/-- The writes and the statement of a session are its own. -/
theorem Effect.other {op : Op} {r : Except Exc op.Ret} (h : Effect p w op r w') (hq : q ≠ p) :
    w'.writesOf q = w.writesOf q ∧ w'.stmt q = w.stmt q := by
  cases h with
  | quiet _ hs => exact ⟨hs.writesOf, by rw [hs.stmt]⟩
  | begun sel _ => simp [hq]
  | took sel id _ _ => simp [hq]
  | passed sel id _ => simp [hq]
  | inserted _ _ _ _ _ _ _ => simp [hq]
  | refused _ _ _ _ => simp
  | committed => simp [hq]
  | rolledBack => simp [hq]
  | closed => simp [hq]

theorem outer_same (x : Event) : w.Same (w.outer x) := by
  cases x with
  | tick d => exact ⟨rfl, rfl, rfl, rfl, rfl⟩
  | register username hashedPassword =>
    simp only [World.outer]
    split_ifs
    · exact .refl
    · exact ⟨rfl, rfl, rfl, rfl, rfl⟩

theorem wstep_other {s : Settings} {a : Label} (h : (auth s).WStep w a w') (hp : a.pid ≠ some p) :
    w'.writesOf p = w.writesOf p ∧ w'.stmt p = w.stmt p := by
  cases a with
  | spawn q x =>
    obtain rfl : w' = w := h
    exact ⟨rfl, rfl⟩
  | run q f op r =>
    have hne : p ≠ q := fun he => hp (congrArg some he.symm)
    rcases exec_effect h with ⟨rfl, -⟩ | ⟨r₀, hx, -⟩
    · exact ⟨rfl, rfl⟩
    · exact hx.other hne
  | crash q =>
    have hne : p ≠ q := fun he => hp (congrArg some he.symm)
    obtain rfl : w' = w.rollback q := h
    simp [hne]
  | outer x =>
    obtain rfl : w' = w.outer x := h
    exact ⟨(outer_same x).writesOf, by rw [(outer_same x).stmt]⟩

end Auth

end PaymentRecon
