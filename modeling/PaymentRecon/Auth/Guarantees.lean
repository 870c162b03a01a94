import PaymentRecon.Auth.Lineage
import PaymentRecon.Lib.Rely

/-!
# Guarantees — what every request guarantees about its session

A request inserts a row at most once, either into a new family or after its conditional UPDATE took the
live row that the request presents; and it commits no UPDATE that is still going on.  With these
guarantees every step keeps `Lineage`.
-/

namespace PaymentRecon

open Interleave Rely

namespace Auth

variable {s : Settings} {w w' : World} {p q : Pid} {past past' : List Label} {t : RefreshToken}

/-- The session performed its UPDATEs to the end. -/
def World.Done (w : World) (p : Pid) : Prop := ∀ x ∈ w.stmt p, x.todo = []

/-- A row of the family of `t` has this hash. -/
def World.Kin (w : World) (jti : Jti) (t : RefreshToken) : Prop :=
  ∃ r ∈ w.tokens, r.tokenHash = jti ∧ r.familyId = t.familyId

/-- The family that the WHERE clause names has a row. -/
def World.Targeted (w : World) (sel : Where) : Prop :=
  ∀ f, sel = .family f → ∃ t ∈ w.tokens, t.familyId = f

/-- What a request guarantees about its operations. -/
def Lawful (p : Pid) (w : World) (past : List Label) : Op → Prop
  | .beginUpdate sel => (∀ t, ¬ Inserted past p t) ∧ w.Targeted sel
  | .updateRow sel _ => (∀ t, .insert t ∉ w.writesOf p) ∧ ∃ todo, w.stmt p = some ⟨sel, todo⟩
  | .insertToken _ _ _ familyId =>
    (∀ t, ¬ Inserted past p t) ∧ (∀ x ∈ w.stmt p, ∃ jti now, x.sel = .live jti now) ∧
      ((∃ r ∈ w.tokens, r.isRevoked = false ∧ familyId = some r.familyId ∧
        w.writesOf p = [.revoke r.id] ∧ Bears past p r.tokenHash) ∨
      familyId = none ∧ w.writesOf p = [] ∧ Bare past p)
  | .commit => w.Done p
  | .set key _ _ => ∃ t, Inserted past p t ∧ w.Kin key t
  | _ => True

/-- How a request came by the token pair it answers. -/
def Earned (p : Pid) (w : World) (past : List Label) : Prop :=
  (∃ f key pair, .run p f (Op.get key) (.ok (some pair)) ∈ past ∧ Bears past p key) ∨
    (∃ t jti, Inserted past p t ∧ w.Kin jti t ∧ Bears past p jti) ∨ Bare past p

def logic (s : Settings) : Rely sig Exc TokenResponse World Request Event where
  machine := auth s
  cond := fun _ _ _ _ => True
  inv := Lineage
  start := fun p w past => w.writesOf p = [] ∧ w.stmt p = none ∧ ∀ t, ¬ Inserted past p t
  guard := fun p w past => Lawful p w past
  final := fun p r w past => w.writesOf p = [] ∧ w.stmt p = none ∧
    ∀ pair, r = .ok pair → Earned p w past

abbrev Facts := Assertion sig Exc World Request Event

/-! ## The table from step to step -/

/-- What a step does to a row of the table. -/
theorem Lineage.row_step (h : Lineage w past) {a : Label} (hw : (auth s).WStep w a w')
    (ht : t ∈ w.tokens) : ∃ t' ∈ w'.tokens, t'.id = t.id ∧ t'.tokenHash = t.tokenHash ∧
      t'.familyId = t.familyId ∧ (t.isRevoked = true → t'.isRevoked = true) := by
  have hsame : w'.tokens = w.tokens → ∃ t' ∈ w'.tokens, t'.id = t.id ∧ t'.tokenHash = t.tokenHash ∧
      t'.familyId = t.familyId ∧ (t.isRevoked = true → t'.isRevoked = true) :=
    fun he => ⟨t, he ▸ ht, rfl, rfl, rfl, fun hr => hr⟩
  cases a with
  | spawn q x =>
    obtain rfl : w' = w := hw
    exact hsame rfl
  | crash q =>
    obtain rfl : w' = w.rollback q := hw
    exact hsame rfl
  | outer x =>
    obtain rfl : w' = w.outer x := hw
    exact hsame (outer_same x).tokens
  | run q f op r =>
    rcases exec_effect hw with ⟨rfl, -⟩ | ⟨r₀, hx, -⟩
    · exact hsame rfl
    · cases hx with
      | quiet _ hs => exact hsame hs.tokens
      | committed =>
        obtain ⟨ids, new, hwrote, -⟩ := h.shape q
        refine ⟨_, (Lineage.mem_commit hwrote).mpr (Or.inl ⟨t, ht, rfl⟩), by simp, by simp, by simp, ?_⟩
        intro hrev
        by_contra hlive
        have := (World.revokeIn_live.mp (by simpa using hlive)).2
        exact absurd (hrev.symm.trans this) (by simp)
      | _ => exact hsame rfl

/-- A row that another session revokes does not change under it. -/
theorem Lineage.held_step (h : Lineage w past) {a : Label} (hw : (auth s).WStep w a w')
    (hp : a.pid ≠ some p) (ht : t ∈ w.tokens) (hrev : .revoke t.id ∈ w.writesOf p) :
    t ∈ w'.tokens := by
  cases a with
  | spawn q x =>
    obtain rfl : w' = w := hw
    exact ht
  | crash q =>
    obtain rfl : w' = w.rollback q := hw
    exact ht
  | outer x =>
    obtain rfl : w' = w.outer x := hw
    rwa [(outer_same x).tokens]
  | run q f op r =>
    rcases exec_effect hw with ⟨rfl, -⟩ | ⟨r₀, hx, -⟩
    · exact ht
    · cases hx with
      | quiet _ hs => rwa [hs.tokens]
      | committed =>
        obtain ⟨ids, new, hwrote, -⟩ := h.shape q
        refine (Lineage.mem_commit hwrote).mpr (Or.inl ⟨t, ht, if_neg fun hid => hp ?_⟩)
        have hown : Write.revoke t.id ∈ w.writesOf q := by
          rw [show w.writesOf q = _ from hwrote]
          exact List.mem_append_left _ (List.mem_map_of_mem hid)
        exact congrArg some (h.revoke_unique hown hrev)
      | _ => exact ht

/-! ## What a thread knows -/

/-- The request of the thread presents `o` and did not insert a row yet. -/
structure Childless (past : List Label) (p : Pid) (o : Option Jti) : Prop where
  childless : ∀ t, ¬ Inserted past p t
  presents : ∃ x, .spawn p x ∈ past ∧ x.jti = o

/-- The session wrote nothing. -/
structure Idle (p : Pid) (o : Option Jti) (w : World) (past : List Label) : Prop
    extends Childless past p o where
  writes : w.writesOf p = []
  stmt : w.stmt p = none

/-- The session revoked the rows `ids`. -/
structure Revoker (p : Pid) (o : Option Jti) (ids : List Id) (w : World) (past : List Label) : Prop
    extends Childless past p o where
  writes : w.writesOf p = ids.map .revoke

/-- The rows that an UPDATE with this WHERE clause took, as they were. -/
def World.Took (w : World) (sel : Where) (rs : List RefreshToken) : Prop :=
  ∀ jti now, sel = .live jti now → ∀ r ∈ rs, r ∈ w.tokens ∧ r.isRevoked = false ∧ r.tokenHash = jti

/-- The session had revoked the rows `ids₀`, its UPDATE took the rows `rs` and has to come to `todo`. -/
structure Updating (p : Pid) (o : Option Jti) (ids₀ : List Id) (sel : Where) (rs : List RefreshToken)
    (todo : List Id) (w : World) (past : List Label) : Prop extends Childless past p o where
  writes : w.writesOf p = (ids₀ ++ rs.map (·.id)).map .revoke
  stmt : w.stmt p = some ⟨sel, todo⟩
  took : w.Took sel rs

/-- The session inserted a row into the family of the row that the request presents. -/
structure Grown (p : Pid) (jti : Jti) (w : World) (past : List Label) : Prop where
  kin : ∃ t, Inserted past p t ∧ w.Kin jti t
  bears : Bears past p jti
  done : w.Done p

theorem inserted_other {a : Label} (hp : a.pid ≠ some p) :
    Inserted (past ++ [a]) p t ↔ Inserted past p t := by
  rw [inserted_append]
  refine or_iff_left ?_
  rintro ⟨f, userId, jti, expiresAt, familyId, rfl⟩
  exact hp rfl

theorem Childless.append {o : Option Jti} {a : Label} (h : Childless past p o)
    (ha : ∀ t, Inserted (past ++ [a]) p t → Inserted past p t) : Childless (past ++ [a]) p o where
  childless t ht := h.childless t (ha t ht)
  presents := by
    obtain ⟨x, hx, ho⟩ := h.presents
    exact ⟨x, List.mem_append_left _ hx, ho⟩

theorem Childless.bears {jti : Jti} (h : Childless past p (some jti)) : Bears past p jti := h.presents

theorem stable_idle {o : Option Jti} : (logic s).Stable p (Idle p o) := by
  intro w past a w' _ hw _ hp h
  obtain ⟨hwr, hst⟩ := wstep_other hw hp
  exact ⟨h.append fun t ht => (inserted_other hp).mp ht, hwr.trans h.writes, hst.trans h.stmt⟩

theorem stable_revoker {o : Option Jti} {ids : List Id} : (logic s).Stable p (Revoker p o ids) := by
  intro w past a w' _ hw _ hp h
  exact ⟨h.append fun t ht => (inserted_other hp).mp ht, (wstep_other hw hp).1.trans h.writes⟩

theorem Idle.revoker {o : Option Jti} (h : Idle p o w past) : Revoker p o [] w past :=
  ⟨h.toChildless, h.writes⟩

theorem Updating.revoker {o : Option Jti} {ids₀ todo : List Id} {sel : Where} {rs : List RefreshToken}
    (h : Updating p o ids₀ sel rs todo w past) : Revoker p o (ids₀ ++ rs.map (·.id)) w past :=
  ⟨h.toChildless, h.writes⟩

theorem stable_updating {o : Option Jti} {ids₀ todo : List Id} {sel : Where}
    {rs : List RefreshToken} : (logic s).Stable p (Updating p o ids₀ sel rs todo) := by
  intro w past a w' hI hw _ hp h
  obtain ⟨hwr, hst⟩ := wstep_other hw hp
  refine ⟨h.append fun t ht => (inserted_other hp).mp ht, hwr.trans h.writes, hst.trans h.stmt, ?_⟩
  intro jti now hsel r hr
  obtain ⟨ht, hlive, hh⟩ := h.took jti now hsel r hr
  refine ⟨hI.held_step hw hp ht ?_, hlive, hh⟩
  rw [h.writes]
  exact List.mem_map_of_mem (List.mem_append_right _ (List.mem_map_of_mem hr))

theorem kin_step {a : Label} {jti : Jti} (hI : Lineage w past) (hw : (auth s).WStep w a w')
    (h : w.Kin jti t) : w'.Kin jti t := by
  obtain ⟨r, hr, hh, hf⟩ := h
  obtain ⟨r', hr', -, hh', hf', -⟩ := hI.row_step hw hr
  exact ⟨r', hr', hh'.trans hh, hf'.trans hf⟩

theorem stable_grown {jti : Jti} : (logic s).Stable p (Grown p jti) := by
  intro w past a w' hI hw _ hp h
  obtain ⟨t, hi, hk⟩ := h.kin
  obtain ⟨-, hst⟩ := wstep_other hw hp
  refine ⟨⟨t, hi.append, kin_step hI hw hk⟩, h.bears.append, ?_⟩
  rw [World.Done, hst]
  exact h.done

/-! ## Single operations -/

abbrev Keeps (s : Settings) {β : Type} (p : Pid) (K : Facts) (x : App β)
    (post : Except Exc β → Facts) : Prop := (logic s).Ensures p K x post

/-- An operation that is neither an insertion, nor a commit, nor a step of an UPDATE, nor `SET`. -/
def Op.Plain : Op → Prop
  | .now | .newJti | .verifyPassword _ _ | .selectUser _ | .selectToken _ | .refreshRow _ | .get _ =>
    True
  | _ => False

theorem Op.Plain.quiet {op : Op} (h : op.Plain) : op.Quiet := by
  cases op <;> first | exact h.elim | trivial

theorem Op.Plain.lawful {op : Op} (h : op.Plain) : Lawful p w past op := by
  cases op <;> first | exact h.elim | trivial

theorem quiet_same {f : Fault} {op : Op} {r : Except Exc op.Ret} (h : exec f p op w r w')
    (hq : op.Quiet) : w.Same w' := by
  rcases exec_effect h with ⟨rfl, -⟩ | ⟨r₀, hx, -⟩
  · exact .refl
  · cases hx with
    | quiet _ hs => exact hs
    | _ => exact hq.elim

theorem Op.Quiet.inserts {op : Op} (h : op.Quiet) {f : Fault} {r : Except Exc op.Ret} :
    ¬ Inserts (.run p f op r) := by
  cases op <;> first | exact h.elim | exact fun hi => hi

/-- The assertion depends on the rows, the sessions and the insertions only. -/
def Calm (K : Facts) : Prop :=
  ∀ w past w' past', w.Same w' → Extends past past' → K w past → K w' past'

theorem Childless.extends {o : Option Jti} (h : Childless past p o) (hp : Extends past past') :
    Childless past' p o where
  childless t ht := h.childless t ((hp.inserted p t).mp ht)
  presents := by
    obtain ⟨x, hx, ho⟩ := h.presents
    cases o with
    | some jti => exact hp.bears p jti ⟨x, hx, ho⟩
    | none => exact hp.bare p ⟨x, hx, ho⟩

theorem calm_idle {o : Option Jti} : Calm (Idle p o) := fun _ _ _ _ hs hp h =>
  ⟨h.extends hp, hs.writesOf.trans h.writes, by rw [hs.stmt]; exact h.stmt⟩

theorem calm_revoker {o : Option Jti} {ids : List Id} : Calm (Revoker p o ids) :=
  fun _ _ _ _ hs hp h => ⟨h.extends hp, hs.writesOf.trans h.writes⟩

theorem calm_updating {o : Option Jti} {ids₀ todo : List Id} {sel : Where} {rs : List RefreshToken} :
    Calm (Updating p o ids₀ sel rs todo) := fun _ _ _ _ hs hp h =>
  ⟨h.extends hp, hs.writesOf.trans h.writes, by rw [hs.stmt]; exact h.stmt, fun jti now hsel r hr => by
    rw [hs.tokens]
    exact h.took jti now hsel r hr⟩

theorem calm_grown {jti : Jti} : Calm (Grown p jti) := by
  rintro w past w' past' hs hp ⟨⟨t, hi, r, hr, hh, hf⟩, hb, hd⟩
  refine ⟨⟨t, (hp.inserted p t).mpr hi, r, hs.tokens ▸ hr, hh, hf⟩, hp.bears p jti hb, ?_⟩
  rw [World.Done, hs.stmt]
  exact hd

/-- An operation that tells nothing. -/
theorem keeps_plain {K : Facts} (hst : (logic s).Stable p K) (hK : Calm K) {op : Op} (h : op.Plain) :
    Keeps s p K (await op) fun _ => K := by
  refine Ensures.perform (fun _ => hst) (fun _ _ _ _ => h.lawful) ?_
  intro f w past r w' _ hk hx _
  exact hK w past w' _ (quiet_same hx h.quiet) (.append h.quiet.inserts) hk

theorem not_inserts_error {f : Fault} {op : Op} {e : Exc} : ¬ Inserts (.run p f op (.error e)) := by
  cases op <;> exact fun h => h

/-! ## The UPDATEs -/

/-- The WHERE clause of `live` holds of a row that no one revoked. -/
theorem took_live {o : Option Jti} {ids₀ todo : List Id} {sel : Where} {rs : List RefreshToken}
    {id : Id} (h : Updating p o ids₀ sel rs todo w past)
    (ht : (w.view p).find? (fun t => t.id = id ∧ sel.Matches t) = some t) {jti : Jti} {now : ℕ}
    (hsel : sel = .live jti now) : t ∈ w.tokens ∧ t.isRevoked = false ∧ t.tokenHash = jti := by
  have hmatch := List.find?_some ht
  have hmem := List.mem_of_find?_eq_some ht
  have hwrote : w.Wrote p (ids₀ ++ rs.map (·.id)) none := by simpa [World.Wrote] using h.writes
  rw [World.view_of_revokes hwrote] at hmem
  obtain ⟨t₀, ht₀, rfl⟩ := List.mem_map.mp hmem
  subst hsel
  obtain ⟨-, hh, -, hlive⟩ := of_decide_eq_true hmatch
  have heq := World.revokeIn_of_live hlive
  rw [heq] at hlive hh ⊢
  exact ⟨ht₀, hlive, hh⟩

theorem keeps_beginUpdate {o : Option Jti} {ids₀ : List Id} (sel : Where) :
    Keeps s p (fun w past => Revoker p o ids₀ w past ∧ w.Targeted sel) (await (.beginUpdate sel))
      (whenOk fun todo => Updating p o ids₀ sel [] todo) := by
  refine Ensures.perform (stable_whenOk fun _ => stable_updating)
    (fun w past _ h => ⟨h.1.childless, h.2⟩) ?_
  rintro f w past r w' - ⟨h, -⟩ hx -
  cases r with
  | error e => trivial
  | ok todo =>
    have hchild : Childless (past ++ [.run p f (.beginUpdate sel) (.ok todo)]) p o :=
      h.extends (.append fun hi => hi)
    rcases exec_effect hx with ⟨-, e, he⟩ | ⟨r₀, hx, hr | ⟨hl, -⟩⟩
    · exact absurd he (by simp)
    · subst hr
      cases hx with
      | quiet hq _ => exact hq.elim
      | begun _ hids =>
        exact ⟨hchild, by simpa using h.writes, by simp, fun _ _ _ r hr => absurd hr (by simp)⟩
    · exact hl.elim

/-- The UPDATE comes to one row. -/
theorem keeps_updateRow {o : Option Jti} {ids₀ todo : List Id} {sel : Where} {rs : List RefreshToken}
    {id : Id} : Keeps s p (Updating p o ids₀ sel rs (id :: todo)) (await (.updateRow sel id))
      (whenOk fun row w past => ∃ rs', row.toList = rs'.map RefreshToken.revoke ∧
        Updating p o ids₀ sel (rs ++ rs') todo w past) := by
  refine Ensures.perform (stable_whenOk fun _ => Stable.exists fun _ => ?_) (fun w past _ h => ?_) ?_
  · exact Persistent.stable (fun _ _ _ _ _ _ _ h => h) |>.and stable_updating
  · refine ⟨fun t ht => ?_, _, h.stmt⟩
    rw [h.writes] at ht
    simp at ht
  · intro f w past r w' _ h hx _
    cases r with
    | error e => trivial
    | ok row =>
      have hchild : Childless (past ++ [.run p f (.updateRow sel id) (.ok row)]) p o :=
        h.extends (.append fun hi => hi)
      rcases exec_effect hx with ⟨-, e, he⟩ | ⟨r₀, hx, hr | ⟨hl, -⟩⟩
      · exact absurd he (by simp)
      · subst hr
        cases hx with
        | quiet hq _ => exact hq.elim
        | @took _ _ t hfree ht =>
          refine ⟨[t], rfl, hchild, ?_, by simp [h.stmt], ?_⟩
          · have hmatch := List.find?_some ht
            simp [h.writes, (of_decide_eq_true hmatch).1]
          · intro jti now hsel r hr
            rcases List.mem_append.mp hr with hr | hr
            · exact h.took jti now hsel r hr
            · obtain rfl := List.mem_singleton.mp hr
              exact took_live h ht hsel
        | passed _ _ ht =>
          refine ⟨[], rfl, hchild, by simpa using h.writes, by simp [h.stmt], ?_⟩
          rw [List.append_nil]
          exact h.took
      · exact hl.elim

theorem keeps_updateRows {o : Option Jti} {ids₀ : List Id} (sel : Where) (todo : List Id)
    (rs : List RefreshToken) : Keeps s p (Updating p o ids₀ sel rs todo) (updateRows sel todo)
      (whenOk fun rows w past => ∃ rs', rows = rs'.map RefreshToken.revoke ∧
        Updating p o ids₀ sel (rs ++ rs') [] w past) := by
  induction todo generalizing rs with
  | nil => exact fun w past h => ⟨[], rfl, by simpa using h⟩
  | cons id todo ih =>
    unfold updateRows
    refine Ensures.bind keeps_updateRow ?_ fun _ _ _ h => h
    intro row
    refine Ensures.exists fun rs₁ => Ensures.pure fun hrow => ?_
    refine Ensures.bind (ih (rs ++ rs₁)) ?_ fun _ _ _ h => h
    rintro rows w past ⟨rs₂, hrows, h⟩
    refine ⟨rs₁ ++ rs₂, ?_, by simpa using h⟩
    rw [hrow, hrows, List.map_append]

theorem keeps_update {o : Option Jti} {ids₀ : List Id} (sel : Where) :
    Keeps s p (fun w past => Revoker p o ids₀ w past ∧ w.Targeted sel) (update sel)
      (whenOk fun rows w past => ∃ rs, rows = rs.map RefreshToken.revoke ∧
        Updating p o ids₀ sel rs [] w past) := by
  unfold update
  refine Ensures.bind (keeps_beginUpdate sel) ?_ fun _ _ _ h => h
  exact fun todo => (keeps_updateRows sel todo []).mono fun r _ _ h => h

/-- The row that the conditional UPDATE of the request took, as it was. -/
def Holding (p : Pid) (jti : Jti) (record : RefreshToken) : Facts := fun w past =>
  ∃ now r, record = r.revoke ∧ Updating p (some jti) [] (.live jti now) [r] [] w past

theorem stable_holding {jti : Jti} {record : RefreshToken} :
    (logic s).Stable p (Holding p jti record) :=
  Stable.exists fun _ => Stable.exists fun _ =>
    (Persistent.stable fun _ _ _ _ _ _ _ h => h).and stable_updating

theorem calm_holding {jti : Jti} {record : RefreshToken} : Calm (Holding p jti record) := by
  rintro w past w' past' hs hp ⟨now, r, heq, h⟩
  exact ⟨now, r, heq, calm_updating _ _ _ _ hs hp h⟩

theorem Holding.revoker {jti : Jti} {record : RefreshToken} (h : Holding p jti record w past) :
    Revoker p (some jti) [record.id] w past := by
  obtain ⟨now, r, rfl, h⟩ := h
  exact h.revoker

theorem Holding.targeted {jti : Jti} {record : RefreshToken} (h : Holding p jti record w past) :
    w.Targeted (.family record.familyId) := by
  obtain ⟨now, r, rfl, h⟩ := h
  intro f hf
  exact ⟨r, (h.took jti now rfl r (by simp)).1, Where.family.inj hf⟩

theorem keeps_validateAndRevoke {jti : Jti} :
    Keeps s p (Revoker p (some jti) []) (validateAndRevokeRefreshTokenService jti)
      (whenOk fun record => match record with
        | some record => Holding p jti record
        | none => Revoker p (some jti) []) := by
  unfold validateAndRevokeRefreshTokenService
  refine Ensures.bind (keeps_plain stable_revoker calm_revoker trivial) ?_ fun _ _ _ _ => trivial
  intro now
  refine Ensures.bind ((keeps_update (.live jti now)).pre fun _ _ h => ⟨h, by simp [World.Targeted]⟩)
    ?_ fun _ _ _ _ => trivial
  intro rows
  refine Ensures.exists fun rs => Ensures.pure fun hrows => ?_
  subst hrows
  match rs with
  | [] => exact fun w past h => h.revoker
  | [r] => exact fun w past h => ⟨now, r, rfl, h⟩
  | _ :: _ :: _ => exact fun _ _ _ => trivial

/-! ## Insertions and commits -/

/-- A request that presents no token inserted the row of a new family. -/
structure Sown (p : Pid) (w : World) (past : List Label) : Prop where
  done : w.Done p
  bare : Bare past p

theorem stable_sown : (logic s).Stable p (Sown p) := by
  intro w past a w' _ hw _ hp h
  refine ⟨?_, h.bare.append⟩
  rw [World.Done, (wstep_other hw hp).2]
  exact h.done

/-- What is known when the service answers a record. -/
def Recorded (K : Facts) : Option RefreshToken → Facts
  | some _ => K
  | none => top

/-- The service catches the refusal of the constraints only. -/
theorem keeps_createRecord {K K' : Facts} {userId : Id} {jti : Jti} {expiredAt : ℕ}
    {familyId : Option FamilyId}
    (h : Keeps s p K (await (.insertToken userId jti expiredAt familyId)) (whenOk fun _ => K')) :
    Keeps s p K (createRefreshTokenRecordService userId jti expiredAt familyId)
      (whenOk (Recorded K')) := by
  unfold createRefreshTokenRecordService
  refine Ensures.tryCatch (m := whenOk (Recorded K')) ?_ (fun _ _ _ h => h) ?_
  · exact Ensures.bind h (fun _ _ _ hk => hk) fun _ _ _ _ => trivial
  · intro e
    split_ifs <;> exact fun _ _ _ => trivial

theorem keeps_insert_rotation {jti newJti : Jti} {record : RefreshToken} {userId : Id} {expiredAt : ℕ} :
    Keeps s p (Holding p jti record)
      (await (.insertToken userId newJti expiredAt (some record.familyId)))
      (whenOk fun _ => Grown p jti) := by
  refine Ensures.perform (stable_whenOk fun _ => stable_grown) ?_ ?_
  · rintro w past - ⟨now, r, rfl, h⟩
    obtain ⟨hr, hlive, hh⟩ := h.took jti now rfl r (by simp)
    refine ⟨h.childless, fun x hx => ?_, Or.inl ⟨r, hr, hlive, rfl, by simpa using h.writes, ?_⟩⟩
    · rw [h.stmt] at hx
      obtain rfl := Option.some.inj hx
      exact ⟨jti, now, rfl⟩
    · rw [hh]
      exact h.bears
  · rintro f w past r₀ w' - ⟨now, r, rfl, h⟩ hx -
    obtain ⟨hr, -, hh⟩ := h.took jti now rfl r (by simp)
    cases r₀ with
    | error e => trivial
    | ok t =>
      rcases exec_effect hx with ⟨-, e, he⟩ | ⟨r₁, hx, heq | ⟨hl, -⟩⟩
      · exact absurd he (by simp)
      · subst heq
        cases hx with
        | quiet hq _ => exact hq.elim
        | inserted _ _ _ _ _ _ hf =>
          obtain hf : some r.familyId = some _ := hf.resolve_right (by simp)
          refine ⟨⟨_, inserted_append.mpr (Or.inr ⟨f, userId, newJti, expiredAt, _, rfl⟩), r, hr, hh,
            Option.some.inj hf⟩, h.bears.append, ?_⟩
          intro x hx
          rw [World.write_stmt, World.tickToken_stmt, h.stmt] at hx
          obtain rfl := Option.some.inj hx
          rfl
      · exact hl.elim

theorem keeps_insert_login {newJti : Jti} {userId : Id} {expiredAt : ℕ} :
    Keeps s p (Idle p none) (await (.insertToken userId newJti expiredAt none))
      (whenOk fun _ => Sown p) := by
  refine Ensures.perform (stable_whenOk fun _ => stable_sown) ?_ ?_
  · intro w past _ h
    exact ⟨h.childless, by simp [h.stmt], Or.inr ⟨rfl, h.writes, h.presents⟩⟩
  · intro f w past r₀ w' _ h hx _
    cases r₀ with
    | error e => trivial
    | ok t =>
      rcases exec_effect hx with ⟨-, e, he⟩ | ⟨r₁, hx, heq | ⟨hl, -⟩⟩
      · exact absurd he (by simp)
      · subst heq
        cases hx with
        | quiet hq _ => exact hq.elim
        | inserted _ _ _ _ _ _ _ =>
          refine ⟨?_, Bare.append h.presents⟩
          intro x hx
          rw [World.write_stmt, World.tickToken_stmt, h.stmt] at hx
          exact absurd hx (by simp)
      · exact hl.elim

/-- A commit ends the session. -/
theorem commit_stmt {f : Fault} {w : World} {u : Unit} (h : exec f p .commit w (.ok u) w') :
    w' = w.commit p := by
  rcases exec_effect h with ⟨-, e, he⟩ | ⟨r₀, hx, -⟩
  · exact absurd he (by simp)
  · cases hx with
    | quiet hq _ => exact hq.elim
    | committed => rfl

theorem keeps_commit_grown {jti : Jti} :
    Keeps s p (Grown p jti) (await .commit) (whenOk fun _ => Grown p jti) := by
  refine Ensures.perform (stable_whenOk fun _ => stable_grown) (fun _ _ _ h => h.done) ?_
  intro f w past r w' hI h hx _
  cases r with
  | error e => trivial
  | ok u =>
    obtain ⟨t, hi, hk⟩ := h.kin
    have hkin : w'.Kin jti t := kin_step (s := s) (a := .run p f .commit (.ok u)) hI hx hk
    refine ⟨⟨t, hi.append, hkin⟩, h.bears.append, ?_⟩
    obtain rfl := commit_stmt hx
    simp [World.Done]

theorem keeps_commit {K : Facts} (hK : ∀ w past, K w past → w.Done p) :
    Keeps s p K (await .commit) fun _ => top :=
  Ensures.perform (fun _ => Persistent.true.stable) (fun _ _ _ h => hK _ _ h)
    fun _ _ _ _ _ _ _ _ _ => trivial

theorem keeps_commit_sown : Keeps s p (Sown p) (await .commit) fun _ => Sown p := by
  refine Ensures.perform (fun _ => stable_sown) (fun _ _ _ h => h.done) ?_
  intro f w past r w' _ h hx _
  refine ⟨?_, h.bare.append⟩
  rcases exec_effect hx with ⟨rfl, -⟩ | ⟨r₀, hx, -⟩
  · exact h.done
  · cases hx with
    | quiet hq _ => exact hq.elim
    | committed => simp [World.Done]

/-! ## The grace cache -/

theorem Earned.step {a : Label} (hI : Lineage w past) (hw : (auth s).WStep w a w')
    (h : Earned p w past) : Earned p w' (past ++ [a]) := by
  rcases h with ⟨f, key, pair, hm, hb⟩ | ⟨t, jti, hi, hk, hb⟩ | hb
  · exact Or.inl ⟨f, key, pair, List.mem_append_left _ hm, hb.append⟩
  · exact Or.inr (Or.inl ⟨t, jti, hi.append, kin_step hI hw hk, hb.append⟩)
  · exact Or.inr (Or.inr hb.append)

theorem persistent_earned : (logic s).Persistent (Earned p) := fun _ _ _ _ hI hw _ h => h.step hI hw

/-- A pair from the cache, or nothing. -/
theorem keeps_get {jti : Jti} {ids : List Id} :
    Keeps s p (Revoker p (some jti) ids) (tokenInGracePeriod jti)
      (whenOk fun pair => match pair with
        | some _ => Earned p
        | none => Revoker p (some jti) ids) := by
  refine Ensures.perform ?_ (fun _ _ _ _ => trivial) ?_
  · refine stable_whenOk fun pair => ?_
    cases pair with
    | some _ => exact persistent_earned.stable
    | none => exact stable_revoker
  · intro f w past r w' _ h hx _
    match r with
    | .error e => trivial
    | .ok none => exact calm_revoker _ _ _ _ (quiet_same hx trivial) (.append fun hi => hi) h
    | .ok (some pair) => exact Or.inl ⟨f, jti, pair, by simp, Bears.append h.bears⟩

theorem keeps_set {jti : Jti} {pair : TokenResponse} :
    Keeps s p (Grown p jti) (addTokenToGracePeriod jti pair) fun _ => Grown p jti := by
  refine Ensures.perform (fun _ => stable_grown) (fun _ _ _ h => h.kin) ?_
  intro f w past r w' _ h hx _
  exact calm_grown _ _ _ _ (quiet_same hx trivial) (.append fun hi => hi) h

/-! ## The endpoints -/

/-- An operation about which a request guarantees nothing. -/
def Op.Free (op : Op) : Prop := op.Plain ∨ op = .rollback ∨ op = .close

theorem Op.Free.lawful {op : Op} (h : op.Free) : Lawful p w past op := by
  rcases h with h | rfl | rfl
  · exact h.lawful
  · trivial
  · trivial

/-- A program of which nothing is to be known afterwards. -/
theorem keeps_top {β : Type} {K : Facts} {x : App β} (h : x.All Op.Free fun _ => True) :
    Keeps s p K x fun _ => top :=
  (Ensures.ofAll h fun _ _ _ hop _ => hop.lawful).mono fun _ _ _ _ => trivial

/-- Rolling back and refusing. -/
theorem keeps_reject {β : Type} {K : Facts} {e : Exc} {post : β → Facts} :
    Keeps s p K (do await .rollback; throw e) (whenOk post) := by
  refine Ensures.bind (keeps_top ⟨Or.inr (Or.inl rfl), fun r => by cases r <;> trivial⟩) ?_
    fun _ _ _ _ => trivial
  exact fun _ _ _ _ => trivial

/-- The session has its UPDATE done. -/
theorem keeps_revoke {o : Option Jti} {ids : List Id} (sel : Where) :
    Keeps s p (fun w past => Revoker p o ids w past ∧ w.Targeted sel) (do let _ ← update sel)
      (whenOk fun _ w _ => w.Done p) := by
  refine Ensures.bind (keeps_update sel) ?_ fun _ _ _ _ => trivial
  rintro rows w past ⟨rs, -, h⟩ x hx
  rw [h.stmt] at hx
  obtain rfl := Option.some.inj hx
  rfl

/-- Revoking, committing and refusing. -/
theorem keeps_revoke_throw {β : Type} {o : Option Jti} {ids : List Id} (sel : Where) {e : Exc}
    {post : β → Facts} :
    Keeps s p (fun w past => Revoker p o ids w past ∧ w.Targeted sel)
      (do
        (do let _ ← update sel : App Unit)
        await .commit
        throw e) (whenOk post) := by
  refine Ensures.bind (keeps_revoke sel) ?_ fun _ _ _ _ => trivial
  intro _
  exact Ensures.bind (keeps_commit fun _ _ h => h) (fun _ _ _ _ => trivial) fun _ _ _ _ => trivial

theorem persistent_targeted {sel : Where} : (logic s).Persistent fun w _ => w.Targeted sel := by
  rintro w past a w' hI hw - h f hsel
  obtain ⟨t, ht, hf⟩ := h f hsel
  obtain ⟨t', ht', -, -, hf', -⟩ := hI.row_step hw ht
  exact ⟨t', ht', hf'.trans hf⟩

/-- The row of a token is a row of its family. -/
theorem keeps_getRefreshToken {o : Option Jti} {ids : List Id} {jti : Jti} :
    Keeps s p (Revoker p o ids) (getRefreshToken jti) (whenOk fun record w past =>
      Revoker p o ids w past ∧ ∀ t ∈ record, w.Targeted (.family t.familyId)) := by
  refine Ensures.perform (stable_whenOk fun record => stable_revoker.and ?_) (fun _ _ _ _ => trivial) ?_
  · intro w past a w' hI hw hc _ h t ht
    exact persistent_targeted w past a w' hI hw hc (h t ht)
  · intro f w past r w' _ h hx _
    have hsame := quiet_same hx trivial
    cases r with
    | error e => trivial
    | ok record =>
      refine ⟨calm_revoker _ _ _ _ hsame (.append fun hi => hi) h, ?_⟩
      rintro t ht f' heq
      obtain rfl := Where.family.inj heq
      rcases f with _ | _ | _
      · obtain ⟨hr, rfl⟩ := hx
        obtain rfl := Except.ok.inj hr
        have hmem := List.mem_of_find?_eq_some ht
        have hwrote : w'.Wrote p ids none := by simpa [World.Wrote] using h.writes
        rw [World.view_of_revokes hwrote] at hmem
        obtain ⟨t₀, ht₀, rfl⟩ := List.mem_map.mp hmem
        exact ⟨t₀, ht₀, by simp⟩
      · obtain ⟨-, e, -, he⟩ := hx
        exact absurd he (by simp)
      · exact hx.1.elim

theorem keeps_refuseToken {jti : Jti} :
    Keeps s p (Revoker p (some jti) []) (refuseToken jti)
      (whenOk fun pair => match pair with
        | some _ => Earned p
        | none => Revoker p (some jti) []) := by
  unfold refuseToken
  refine Ensures.bind keeps_getRefreshToken ?_ fun _ _ _ _ => trivial
  intro record
  cases record with
  | none => exact fun _ _ _ => trivial
  | some record =>
    simp only
    split_ifs
    · refine Ensures.bind (((keeps_get.frame persistent_targeted).pre fun _ _ h =>
        ⟨h.1, h.2 record rfl⟩)) ?_ fun _ _ _ _ => trivial
      intro pair
      cases pair with
      | none => exact keeps_revoke_throw (.family record.familyId)
      | some pair => exact fun _ _ h => h.1
    · refine Ensures.pre ?_ fun _ _ h => h.1
      refine Ensures.bind (keeps_plain stable_revoker calm_revoker trivial) ?_ fun _ _ _ _ => trivial
      intro now
      split_ifs
      · exact (keeps_revoke_throw (.hash jti)).pre fun _ _ h => ⟨h, by simp [World.Targeted]⟩
      · exact fun _ _ h => h

theorem keeps_rotateToken {jti : Jti} {sub : Username} {record : RefreshToken} :
    Keeps s p (Holding p jti record) (rotateToken s jti sub (some record))
      (whenOk fun _ => Earned p) := by
  unfold rotateToken
  refine Ensures.bind (keeps_plain stable_holding calm_holding trivial) ?_ fun _ _ _ _ => trivial
  intro user
  cases user with
  | none =>
    simp only [getattr, Prog.ofExcept_ok, Prog.ret_bind]
    refine Ensures.pre (keeps_revoke_throw (.family record.familyId)) fun _ _ h => ⟨h.revoker, ?_⟩
    exact h.targeted
  | some user =>
    simp only [getattr, Prog.ofExcept_ok, Prog.ret_bind]
    split_ifs
    · exact fun _ _ _ => trivial
    · have hplain : ∀ op : Op, op.Plain →
          Keeps s p (Holding p jti record) (await op) fun _ => Holding p jti record :=
        fun _ h => keeps_plain stable_holding calm_holding h
      refine Ensures.bind (hplain .newJti trivial) ?_ fun _ _ _ _ => trivial
      intro newJti
      refine Ensures.bind (hplain .now trivial) ?_ fun _ _ _ _ => trivial
      intro now
      refine Ensures.bind (m := fun _ => Holding p jti record) ?_ ?_ fun _ _ _ _ => trivial
      · exact Ensures.bind (hplain .now trivial) (fun _ _ _ h => h) fun _ _ _ h => h
      intro newRefreshToken
      refine Ensures.bind (keeps_createRecord keeps_insert_rotation) ?_ fun _ _ _ _ => trivial
      intro row
      refine Ensures.bind (m := fun _ => Recorded (Grown p jti) row) ?_ ?_ fun _ _ _ _ => trivial
      · cases row with
        | none => exact keeps_top ⟨Or.inl trivial, fun r => by cases r <;> trivial⟩
        | some row =>
          exact Ensures.bind (keeps_plain stable_grown calm_grown trivial) (fun _ _ _ h => h)
            fun _ _ _ h => h
      intro newAccessToken
      cases row with
      | none => exact keeps_reject
      | some row =>
        refine Ensures.bind keeps_commit_grown ?_ fun _ _ _ _ => trivial
        intro _
        refine Ensures.bind (keeps_plain stable_grown calm_grown trivial) ?_ fun _ _ _ _ => trivial
        intro _
        refine Ensures.bind keeps_set ?_ fun _ _ _ _ => trivial
        rintro _ w past h
        obtain ⟨t, hi, hk⟩ := h.kin
        exact Or.inr (Or.inl ⟨t, jti, hi, hk, h.bears⟩)

theorem keeps_refreshJti {jti : Jti} {sub : Username} :
    Keeps s p (Idle p (some jti)) (refreshJti s jti sub) (whenOk fun _ => Earned p) := by
  unfold refreshJti
  refine Ensures.bind (keeps_validateAndRevoke.pre fun _ _ h => h.revoker) ?_ fun _ _ _ _ => trivial
  intro record
  cases record with
  | some record => exact keeps_rotateToken
  | none =>
    refine Ensures.bind keeps_refuseToken ?_ fun _ _ _ _ => trivial
    intro pair
    cases pair with
    | some pair => exact fun _ _ h => h
    | none =>
      -- `rt_record` is `None`: reading it raises
      simp only [rotateToken]
      refine Ensures.bind (keeps_plain stable_revoker calm_revoker trivial) ?_ fun _ _ _ _ => trivial
      intro user
      cases user <;> exact fun _ _ _ => trivial

theorem keeps_decodeRequest {o : Option Jti} {token : Option Jwt} :
    Keeps s p (Idle p o) (decodeRequest token)
      (whenOk fun payload w past => token = some (.signed payload) ∧ Idle p o w past) := by
  unfold decodeRequest
  refine Ensures.tryCatch (m := whenOk fun payload w past => token = some (.signed payload) ∧
    Idle p o w past) ?_ (fun _ _ _ h => h) ?_
  · cases token with
    | none => exact fun _ _ _ => trivial
    | some t =>
      refine Ensures.bind (keeps_plain stable_idle calm_idle trivial) ?_ fun _ _ _ _ => trivial
      intro now
      cases hd : t.decode now with
      | error e => exact fun _ _ _ => trivial
      | ok payload => exact fun _ _ h => ⟨congrArg some (decode_ok hd), h⟩
  · intro e
    split <;> exact fun _ _ _ => trivial

/-- The session is closed. -/
def Closed (p : Pid) : Facts := fun w _ => w.writesOf p = [] ∧ w.stmt p = none

/-- What is known after an operation that never fails. -/
def Surely (F : Facts) : Except Exc Unit → Facts
  | .ok _ => F
  | .error _ => fun _ _ => False

/-- `ROLLBACK` and closing a session never fail. -/
theorem keeps_end {F : Facts} (hF : (logic s).Persistent F) :
    Keeps s p F (await .rollback) (Surely fun w past => Closed p w past ∧ F w past) ∧
      Keeps s p F (await .close) (Surely fun w past => Closed p w past ∧ F w past) := by
  have hstable : ∀ r, (logic s).Stable p (Surely (fun w past => Closed p w past ∧ F w past) r) := by
    intro r
    cases r with
    | error e => exact Stable.false
    | ok u =>
      refine Stable.and ?_ hF.stable
      intro w past a w' _ hw _ hp h
      obtain ⟨hwr, hst⟩ := wstep_other hw hp
      exact ⟨hwr.trans h.1, hst.trans h.2⟩
  have hclosed : ∀ w : World, Closed p (w.rollback p) [] := fun w => by simp [Closed]
  constructor
  all_goals
    refine Ensures.perform hstable (fun _ _ _ _ => trivial) ?_
    intro f w past r w' hI h hx _
    cases f with
    | done =>
      have hF' := hF w past (.run p .done _ r) w' hI hx trivial h
      obtain ⟨rfl, rfl⟩ := hx
      exact ⟨hclosed w, hF'⟩
    | failed =>
      obtain ⟨-, e, he, -⟩ := hx
      exact he.elim
    | lost => exact hx.1.elim

theorem keeps_withDb {K : Facts} {body : App TokenResponse}
    (h : Keeps s p K body (whenOk fun _ => Earned p)) :
    Keeps s p K (withDb body) ((logic s).final p) := by
  unfold withDb
  refine Ensures.bind (m := fun r => match r with
    | .ok _ => Earned p
    | .error _ => fun w past => Closed p w past ∧ top w past) ?_ ?_
    fun _ _ _ h => ⟨h.1.1, h.1.2, by simp⟩
  · refine Ensures.tryCatch h (fun _ _ _ h => h) fun e => ?_
    refine Ensures.bind ((keeps_end Persistent.true).1.pre fun _ _ _ => trivial) ?_
      fun _ _ _ h => h.elim
    intro _
    refine Ensures.bind ((keeps_end Persistent.true).2.pre fun _ _ _ => trivial) ?_
      fun _ _ _ h => h.elim
    exact fun _ _ _ h => h
  · intro pair
    refine Ensures.bind (keeps_end persistent_earned).2 ?_ fun _ _ _ h => h.elim
    exact fun _ _ _ h => ⟨h.1.1, h.1.2, fun _ _ => h.2⟩

theorem keeps_loginUser {username : Username} {password : String} :
    Keeps s p (Idle p none) (loginUser s username password) ((logic s).final p) := by
  have hplain : ∀ op : Op, op.Plain → Keeps s p (Idle p none) (await op) fun _ => Idle p none :=
    fun _ h => keeps_plain stable_idle calm_idle h
  have htoken : ∀ {type : String} {jti : Option Jti} {sub : Option Username} {d : ℕ},
      Keeps s p (Idle p none)
        (do let now ← await .now
            pure (Jwt.signed ⟨some type, jti, sub, some ((now + d) / second)⟩))
        fun _ => Idle p none :=
    Ensures.bind (hplain .now trivial) (fun _ _ _ h => h) fun _ _ _ h => h
  refine keeps_withDb ?_
  refine Ensures.bind (m := fun _ => Idle p none) ?_ ?_ fun _ _ _ _ => trivial
  · unfold authenticateUser
    refine Ensures.bind (hplain (.selectUser username) trivial) ?_ fun _ _ _ h => h
    intro user
    cases user with
    | none => exact fun _ _ h => h
    | some user =>
      refine Ensures.bind (hplain (.verifyPassword _ _) trivial) ?_ fun _ _ _ h => h
      intro verified
      split_ifs <;> exact fun _ _ h => h
  intro user
  cases user with
  | none => exact fun _ _ _ => trivial
  | some user =>
    refine Ensures.bind htoken ?_ fun _ _ _ _ => trivial
    intro accessToken
    refine Ensures.bind (hplain .newJti trivial) ?_ fun _ _ _ _ => trivial
    intro jti
    refine Ensures.bind (hplain .now trivial) ?_ fun _ _ _ _ => trivial
    intro now
    refine Ensures.bind htoken ?_ fun _ _ _ _ => trivial
    intro refreshToken
    refine Ensures.bind (keeps_createRecord keeps_insert_login) ?_ fun _ _ _ _ => trivial
    intro record
    cases record with
    | none => exact keeps_reject
    | some record =>
      refine Ensures.bind (m := whenOk fun _ => Sown p) ?_ ?_ fun _ _ _ _ => trivial
      · refine Ensures.tryCatch keeps_commit_sown (fun _ _ _ h => h) fun e => ?_
        split_ifs
        · exact keeps_reject
        · exact fun _ _ _ => trivial
      · exact fun _ _ _ h => Or.inr (Or.inr h.bare)

theorem keeps_refreshToken {token : Option Jwt} :
    Keeps s p (Idle p (Request.refresh token).jti) (refreshToken s token) ((logic s).final p) := by
  refine keeps_withDb ?_
  refine Ensures.bind keeps_decodeRequest ?_ fun _ _ _ _ => trivial
  intro payload
  refine Ensures.pure ?_
  rintro rfl
  split_ifs
  · exact fun _ _ _ => trivial
  · split
    · rename_i jti sub hjti hsub
      rw [show (Request.refresh (some (.signed payload))).jti = some jti from hjti]
      exact keeps_refreshJti
    · exact fun _ _ _ => trivial

theorem keeps_prog (x : Request) :
    Keeps s p (Idle p x.jti) ((auth s).prog x) ((logic s).final p) := by
  cases x with
  | login username password => exact keeps_loginUser
  | refresh token => exact keeps_refreshToken

/-! ## Soundness -/

/-- **Step lemma**: a lawful operation keeps the lineage. -/
theorem Lineage.run (h : Lineage w past) {f : Fault} {op : Op} {r : Except Exc op.Ret}
    (hg : Lawful p w past op) (hx : exec f p op w r w') : Lineage w' (past ++ [.run p f op r]) := by
  have hcalm : w.Same w' → ¬ Inserts (.run p f op r) → Lineage w' (past ++ [.run p f op r]) :=
    fun hs ha => h.calm (.append ha) hs.tokens hs.writes hs.locks hs.nextToken.ge
  rcases exec_effect hx with ⟨rfl, e, rfl⟩ | ⟨r₀, hx, hr⟩
  · exact hcalm .refl not_inserts_error
  · cases hx with
    | quiet hq hs => exact hcalm hs hq.inserts
    | begun sel _ => exact h.calm (.append fun hi => hi) rfl rfl rfl le_rfl
    | took sel id hfree _ => exact h.took (.append fun hi => hi) hfree hg.1 rfl rfl rfl rfl
    | passed sel id _ => exact h.calm (.append fun hi => hi) rfl rfl rfl le_rfl
    | inserted userId jti expiresAt familyId hbusy hok hf =>
      obtain rfl := hr.resolve_right fun hl => hl.1
      refine h.inserted ⟨hg.1, ?_⟩ hbusy hok
      rcases hg.2.2 with ⟨t, ht, hlive, rfl, hwr, hb⟩ | ⟨rfl, hwr, hb⟩
      · have hf := Option.some.inj (hf.resolve_right (by simp))
        exact Or.inl ⟨t, ht, hlive, hf, hwr, hb⟩
      · exact Or.inr ⟨hwr, hb, (hf.resolve_left (by simp)).2⟩
    | refused userId jti expiresAt familyId =>
      obtain rfl := hr.resolve_right fun hl => hl.1
      exact h.calm (.append fun hi => hi) rfl rfl rfl (Int.le_of_lt (Int.lt_succ _))
    | committed => exact h.committed (.append (a := .run p f .commit r) fun hi => hi) p
    | rolledBack => exact h.rolledBack (.append (a := .run p f .rollback r) fun hi => hi) p
    | closed => exact h.rolledBack (.append (a := .run p f .close r) fun hi => hi) p

theorem sound (s : Settings) : (logic s).Sound where
  prog p x _ _ _ _ _ := (keeps_prog x).pre fun w past h =>
    ⟨⟨h.1.2.2, x, h.2, rfl⟩, h.1.1, h.1.2.1⟩
  start p w past a w' _ hw _ hp h := by
    obtain ⟨hwr, hst⟩ := wstep_other hw hp
    exact ⟨hwr.trans h.1, hst.trans h.2.1, fun t ht => h.2.2 t ((inserted_other hp).mp ht)⟩
  begin w past p x h := ⟨h.1, h.2.1, fun t ht => h.2.2 t <|
    ((Extends.append (a := .spawn p x) fun hi => hi).inserted p t).mp ht⟩
  spawn _ _ p x h _ := h.calm (.append (a := .spawn p x) fun hi => hi) rfl rfl rfl le_rfl
  run _ _ _ _ _ _ _ h hg hx _ := h.run hg hx
  crash _ _ p h _ := h.rolledBack (.append (a := .crash p) fun hi => hi) p
  outer _ _ x h _ := h.calm (.append (a := .outer x) fun hi => hi) (outer_same x).tokens (outer_same x).writes
    (outer_same x).locks (outer_same x).nextToken.ge

end Auth

end PaymentRecon
