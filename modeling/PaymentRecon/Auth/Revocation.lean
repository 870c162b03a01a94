import PaymentRecon.Auth.Rotation
import PaymentRecon.Lib.Sequential

/-!
# Revocation — revoking a whole family

`revoke_family_token` updates the rows that its statement found when it began.  A rotation that commits
a successor after that moment puts a live row beside them.  Without such a commit the family is dead
once the revocation is committed, and a dead family stays dead.
-/

namespace PaymentRecon

open Interleave Rely

namespace Auth

variable {s : Settings} {w w' w₀ : World} {p q : Pid} {past : List Label} {f : FamilyId}
  {c c' c₁ : State} {tr tr' : List Label}

/-- The session `p` is revoking the family `f`: it began the UPDATE and did not end. -/
def World.Revoking (w : World) (p : Pid) (f : FamilyId) : Prop :=
  ∃ todo, w.stmt p = some ⟨.family f, todo⟩

/-- No row of the family is live, and there is one. -/
structure World.Dead (w : World) (f : FamilyId) : Prop where
  inhabited : ∃ t ∈ w.tokens, t.familyId = f
  revoked : ∀ t ∈ w.tokens, t.familyId = f → t.isRevoked = true

/-- A condition on the world, the steps before and the step itself. -/
abbrev StepCond := World → List Label → Label → World → Prop

/-- The steps of the service that meet `P`. -/
abbrev StepsIf (s : Settings) (P : StepCond) : State → Label → State → Prop :=
  Lts.restrict (Steps s) (Allows P)

/-- No session commits a new row of a family that another one is revoking. -/
def NoLateSuccessor : StepCond := fun w _ a _ =>
  match a with
  | .run q fl .commit _ => fl ≠ .failed → ∀ t, .insert t ∈ w.writesOf q → ∀ p, p ≠ q →
      ¬ w.Revoking p t.familyId
  | _ => True

/-- Every committed row of a family that is being revoked is revoked, by the session at the latest, or
the UPDATE still has to come to it. -/
structure Covered (w : World) (p : Pid) (f : FamilyId) (todo : List Id) : Prop where
  rows : ∀ t ∈ w.tokens, t.familyId = f →
    t.isRevoked = true ∨ .revoke t.id ∈ w.writesOf p ∨ t.id ∈ todo
  inhabited : ∃ t ∈ w.tokens, t.familyId = f
  revokes : ∀ t, .insert t ∉ w.writesOf p

def Covers (w : World) : Prop := ∀ p f todo, w.stmt p = some ⟨.family f, todo⟩ → Covered w p f todo

namespace Covers

/-- A row of the table is in the view of every session. -/
theorem mem_view (h : Lineage w past) {t : RefreshToken} (ht : t ∈ w.tokens) (p : Pid) :
    ∃ t' ∈ w.view p, t'.id = t.id ∧ t'.familyId = t.familyId := by
  obtain ⟨ids, new, hw, -⟩ := h.shape p
  refine ⟨World.revokeIn ids t, ?_, by simp, by simp⟩
  rw [World.view_eq hw]
  exact List.mem_append_left _ (List.mem_map_of_mem ht)

/-- Neither the table nor the statements change, and no write is undone. -/
theorem same (h : Covers w) (htokens : w'.tokens = w.tokens) (hstmt : w'.stmt = w.stmt)
    (hwrites : ∀ p, ∀ x ∈ w.writesOf p, x ∈ w'.writesOf p)
    (hnew : ∀ p f, w.Revoking p f → ∀ t, .insert t ∈ w'.writesOf p → .insert t ∈ w.writesOf p) :
    Covers w' := by
  intro p f todo hp
  rw [hstmt] at hp
  obtain ⟨hrows, hex, hno⟩ := h p f todo hp
  refine ⟨fun t ht hf => ?_, by rwa [htokens], fun t ht => hno t (hnew p f ⟨todo, hp⟩ t ht)⟩
  rw [htokens] at ht
  rcases hrows t ht hf with hrev | hrev | htodo
  · exact Or.inl hrev
  · exact Or.inr (Or.inl (hwrites p _ hrev))
  · exact Or.inr (Or.inr htodo)

/-- An UPDATE begins with all rows of the family. -/
theorem begun (h : Covers w) (hL : Lineage w past) {sel : Where} {ids : List Id}
    (hids : ids.Perm (((w.view q).filter fun t => sel.Matches t).map (·.id))) (hsel : w.Targeted sel)
    (hno : ∀ t, .insert t ∉ w.writesOf q) :
    Covers (w.setStmt q (some ⟨sel, ids⟩)) := by
  intro p f todo hp
  rw [World.setStmt_stmt] at hp
  by_cases hpq : p = q
  · subst hpq
    rw [Function.update_self] at hp
    obtain ⟨rfl, rfl⟩ := Stmt.mk.inj (Option.some.inj hp)
    refine ⟨fun t ht hf => Or.inr (Or.inr ?_), hsel f rfl, hno⟩
    obtain ⟨t', ht', hid, hf'⟩ := mem_view hL ht p
    rw [← hid]
    refine hids.symm.subset (List.mem_map_of_mem (List.mem_filter.mpr ⟨ht', ?_⟩))
    exact decide_eq_true (hf'.trans hf)
  · rw [Function.update_of_ne hpq] at hp
    obtain ⟨hrows, hex, hno⟩ := h p f todo hp
    exact ⟨hrows, hex, hno⟩

/-- The UPDATE is done with a row when it revoked it, or when the row does not meet the WHERE clause. -/
theorem visited (h : Covers w) (id : Id) {sel : Where} {todo₀ : List Id}
    (hstmt : w.stmt q = some ⟨sel, todo₀⟩) (htokens : w'.tokens = w.tokens)
    (hstmt' : w'.stmt = Function.update w.stmt q (some ⟨sel, todo₀.erase id⟩))
    (hwrites : ∀ p, ∀ x ∈ w.writesOf p, x ∈ w'.writesOf p)
    (hnew : ∀ p t, .insert t ∈ w'.writesOf p → .insert t ∈ w.writesOf p)
    (hdone : ∀ f, sel = .family f → ∀ t ∈ w.tokens, t.familyId = f → t.id = id →
      .revoke id ∈ w'.writesOf q) : Covers w' := by
  intro p f todo hp
  rw [hstmt'] at hp
  by_cases hpq : p = q
  · subst hpq
    rw [Function.update_self] at hp
    obtain ⟨rfl, rfl⟩ := Stmt.mk.inj (Option.some.inj hp)
    obtain ⟨hrows, hex, hno⟩ := h p f todo₀ hstmt
    refine ⟨fun t ht hf => ?_, by rwa [htokens], fun t ht => hno t (hnew p t ht)⟩
    rw [htokens] at ht
    rcases hrows t ht hf with hrev | hrev | htodo
    · exact Or.inl hrev
    · exact Or.inr (Or.inl (hwrites p _ hrev))
    · by_cases hid : t.id = id
      · rw [hid]
        exact Or.inr (Or.inl (hdone f rfl t ht hf hid))
      · exact Or.inr (Or.inr ((List.mem_erase_of_ne hid).mpr htodo))
  · rw [Function.update_of_ne hpq] at hp
    obtain ⟨hrows, hex, hno⟩ := h p f todo hp
    refine ⟨fun t ht hf => ?_, by rwa [htokens], fun t ht => hno t (hnew p t ht)⟩
    rw [htokens] at ht
    rcases hrows t ht hf with hrev | hrev | htodo
    · exact Or.inl hrev
    · exact Or.inr (Or.inl (hwrites p _ hrev))
    · exact Or.inr (Or.inr htodo)

/-- A session ends, and commits no row of a family that is being revoked. -/
theorem ended (h : Covers w) (hstmt : w'.stmt = Function.update w.stmt q none)
    (hwrites : ∀ p, p ≠ q → w'.writesOf p = w.writesOf p)
    (hrows : ∀ t ∈ w'.tokens, (∀ p, p ≠ q → ¬ w.Revoking p t.familyId) ∨
      ∃ t₀ ∈ w.tokens, t₀.id = t.id ∧ t₀.familyId = t.familyId ∧
        (t₀.isRevoked = true → t.isRevoked = true))
    (hkeep : ∀ t ∈ w.tokens, ∃ t' ∈ w'.tokens, t'.familyId = t.familyId) : Covers w' := by
  intro p f todo hp
  rw [hstmt] at hp
  by_cases hpq : p = q
  · subst hpq
    rw [Function.update_self] at hp
    exact absurd hp (by simp)
  · rw [Function.update_of_ne hpq] at hp
    obtain ⟨hold, ⟨t₁, ht₁, hf₁⟩, hno⟩ := h p f todo hp
    refine ⟨fun t ht hf => ?_, ?_, by rwa [hwrites p hpq]⟩
    · rcases hrows t ht with hno | ⟨t₀, ht₀, hid, hfam, hrev⟩
      · exact absurd ⟨todo, hf ▸ hp⟩ (hno p hpq)
      · rcases hold t₀ ht₀ (hfam.trans hf) with h₀ | h₀ | h₀
        · exact Or.inl (hrev h₀)
        · exact Or.inr (Or.inl (by rw [hwrites p hpq, ← hid]; exact h₀))
        · exact Or.inr (Or.inr (hid ▸ h₀))
    · obtain ⟨t', ht', hf'⟩ := hkeep t₁ ht₁
      exact ⟨t', ht', hf'.trans hf₁⟩

theorem rolledBack (h : Covers w) (q : Pid) : Covers (w.rollback q) :=
  h.ended rfl (fun p hp => by simp [hp]) (fun t ht => Or.inr ⟨t, ht, rfl, rfl, fun hr => hr⟩)
    fun t ht => ⟨t, ht, rfl⟩

theorem committed (h : Covers w) (hL : Lineage w past)
    (hlate : ∀ t, .insert t ∈ w.writesOf q → ∀ p, p ≠ q → ¬ w.Revoking p t.familyId) :
    Covers (w.commit q) := by
  obtain ⟨ids, new, hw, -⟩ := hL.shape q
  refine h.ended rfl (fun p hp => by simp [hp]) (fun t ht => ?_) fun t ht => ?_
  · rcases (Lineage.mem_commit hw).mp ht with ⟨t₀, ht₀, rfl⟩ | hnew
    · refine Or.inr ⟨t₀, ht₀, by simp, by simp, fun hrev => ?_⟩
      by_contra hlive
      have := (World.revokeIn_live.mp (by simpa using hlive)).2
      exact absurd (hrev.symm.trans this) (by simp)
    · refine Or.inl (hlate t ?_)
      obtain rfl := Option.mem_def.mp hnew
      rw [show w.writesOf q = _ from hw]
      simp
  · exact ⟨_, (Lineage.mem_commit hw).mpr (Or.inl ⟨t, ht, rfl⟩), by simp⟩

/-- **Step lemma.** -/
theorem step (h : Covers w) {a : Label} (hL : Lineage w past) (hw : (auth s).WStep w a w')
    (hg : ∀ p f op r, a = .run p f op r → Lawful p w past op) (hlate : NoLateSuccessor w past a w') :
    Covers w' := by
  cases a with
  | spawn q x =>
    obtain rfl : w' = w := hw
    exact h
  | crash q =>
    obtain rfl : w' = w.rollback q := hw
    exact h.rolledBack q
  | outer x =>
    obtain rfl : w' = w.outer x := hw
    have hof := fun p => (outer_same (w := w) x).writesOf (p := p)
    exact h.same (outer_same x).tokens (outer_same x).stmt (fun p y hy => by rwa [hof])
      fun p f _ t ht => by rwa [hof] at ht
  | run q fl op r =>
    have hlaw := hg q fl op r rfl
    by_cases hfl : fl = .failed
    · subst hfl
      obtain rfl : w' = w := hw.1
      exact h
    rcases exec_effect hw with ⟨rfl, -⟩ | ⟨r₀, hx, -⟩
    · exact h
    · cases hx with
      | quiet _ hs =>
        exact h.same hs.tokens hs.stmt (fun p y hy => by rwa [hs.writesOf])
          fun p f _ t ht => by rwa [hs.writesOf] at ht
      | begun sel hids =>
        exact h.begun hL hids hlaw.2 fun t ht => hlaw.1 t (hL.own q t ht)
      | took sel id _ _ =>
        obtain ⟨-, todo, htodo⟩ := hlaw
        refine h.visited id htodo rfl (by simp [htodo]) (fun p y hy => ?_) (fun p t ht => ?_)
          fun _ _ _ _ _ _ => by simp
        · simp only [World.visited_writesOf, World.write_writesOf, World.lock_writesOf]
          exact List.mem_append_left _ hy
        · simp only [World.visited_writesOf, World.write_writesOf, World.lock_writesOf] at ht
          rcases List.mem_append.mp ht with ht | ht
          · exact ht
          · split_ifs at ht <;> simp at ht
      | passed sel id hnone =>
        obtain ⟨-, todo, htodo⟩ := hlaw
        refine h.visited id htodo rfl (by simp [htodo]) (fun p y hy => hy) (fun p t ht => ht) ?_
        rintro f rfl t ht hf rfl
        obtain ⟨t', ht', hid, hf'⟩ := mem_view hL ht q
        refine absurd (List.find?_eq_none.mp hnone t' ht') (not_not.mpr ?_)
        exact decide_eq_true ⟨hid, hf'.trans hf⟩
      | inserted userId jti expiresAt familyId _ _ _ =>
        refine h.same rfl rfl (fun p y hy => ?_) fun p f hrev t ht => ?_
        · rw [World.write_writesOf, World.tickToken_writesOf]
          exact List.mem_append_left _ hy
        · rw [World.write_writesOf, World.tickToken_writesOf] at ht
          have hpq : p ≠ q := by
            rintro rfl
            obtain ⟨todo, htodo⟩ := hrev
            obtain ⟨j, now, heq⟩ := hlaw.2.1 _ htodo
            exact absurd heq (by simp)
          simpa [hpq] using ht
      | refused userId jti expiresAt familyId =>
        exact h.same rfl rfl (fun p y hy => hy) fun p f _ t ht => ht
      | committed => exact h.committed hL (hlate hfl)
      | rolledBack => exact h.rolledBack q
      | closed => exact h.rolledBack q

end Covers

/-! ## Dead families -/

/-- The rows of a dead family were there before: a rotation needs a live row, and a login starts another
family. -/
theorem World.Dead.origin (h : w.Dead f) {a : Label} (hL : Lineage w past)
    (hw : (auth s).WStep w a w') {t : RefreshToken} (ht : t ∈ w'.tokens) (hf : t.familyId = f) :
    ∃ t₀ ∈ w.tokens, t₀.familyId = f ∧ t₀.tokenHash = t.tokenHash ∧
      (t₀.isRevoked = true → t.isRevoked = true) := by
  have hsame : w'.tokens = w.tokens → ∃ t₀ ∈ w.tokens, t₀.familyId = f ∧
      t₀.tokenHash = t.tokenHash ∧ (t₀.isRevoked = true → t.isRevoked = true) :=
    fun he => ⟨t, he ▸ ht, hf, rfl, fun hr => hr⟩
  cases a with
  | spawn q x =>
    obtain rfl : w' = w := hw
    exact hsame rfl
  | crash q =>
    obtain rfl : w' = w.rollback q := hw
    exact hsame rfl
  | outer x =>
    obtain rfl : w' = w.outer x := hw
    exact hsame (outer_same x).tokens
  | run q fl op r =>
    rcases exec_effect hw with ⟨rfl, -⟩ | ⟨r₀, hx, -⟩
    · exact hsame rfl
    · cases hx with
      | quiet _ hs => exact hsame hs.tokens
      | committed =>
        obtain ⟨ids, new, hwrote, hnew⟩ := hL.shape q
        rcases (Lineage.mem_commit hwrote).mp ht with ⟨t₀, ht₀, rfl⟩ | hn
        · refine ⟨t₀, ht₀, by simpa using hf, by simp, fun hrev => ?_⟩
          by_contra hlive
          have := (World.revokeIn_live.mp (by simpa using hlive)).2
          exact absurd (hrev.symm.trans this) (by simp)
        · exfalso
          rcases (hnew t hn).2 with ⟨r, hr, hlive, hrf, -⟩ | ⟨-, -, hfresh⟩
          · exact absurd ((h.revoked r hr (hrf.trans hf)).symm.trans hlive) (by simp)
          · obtain ⟨t₀, ht₀, hf₀⟩ := h.inhabited
            have hid := hfresh t₀ (List.mem_append_left _ ht₀) (hf₀.trans hf.symm)
            refine hL.not_committed (p := q) (t := t) ?_ ⟨t₀, ht₀, hid⟩
            obtain rfl := Option.mem_def.mp hn
            rw [show w.writesOf q = _ from hwrote]
            simp
      | _ => exact hsame rfl

/-- **A dead family stays dead.** -/
theorem World.Dead.step (h : w.Dead f) {a : Label} (hL : Lineage w past)
    (hw : (auth s).WStep w a w') : w'.Dead f := by
  constructor
  · obtain ⟨t, ht, hf⟩ := h.inhabited
    obtain ⟨t', ht', -, -, hf', -⟩ := hL.row_step hw ht
    exact ⟨t', ht', hf'.trans hf⟩
  · intro t ht hf
    obtain ⟨t₀, ht₀, hf₀, -, hrev⟩ := h.origin hL hw ht hf
    exact hrev (h.revoked t₀ ht₀ hf₀)

theorem Dead.run (h : c.world.Dead f) (hH : (logic s).Holds c) (hr : Lts.Run (Steps s) c tr c') :
    c'.world.Dead f :=
  ((sound s).derive (P := fun _ _ _ => True) (J := fun c => c.world.Dead f)
    (hr.mono fun _ _ _ hs => ⟨hs, trivial, trivial⟩) hH h
    fun _ _ _ hL hd hs _ _ => hd.step hL hs.wstep.1).2

/-- The commit of a revocation that covers the family leaves it dead. -/
theorem Covered.dead (h : Covered w p f []) (hL : Lineage w past) : (w.commit p).Dead f := by
  obtain ⟨ids, new, hw, -⟩ := hL.shape p
  have hnone : new = none := by
    cases new with
    | none => rfl
    | some t => exact absurd (by rw [show w.writesOf p = _ from hw]; simp) (h.revokes t)
  subst hnone
  constructor
  · obtain ⟨t, ht, hf⟩ := h.inhabited
    exact ⟨_, (Lineage.mem_commit hw).mpr (Or.inl ⟨t, ht, rfl⟩), by simpa using hf⟩
  · intro t ht hf
    obtain ⟨t₀, ht₀, rfl⟩ := ((Lineage.mem_commit hw).mp ht).resolve_right (by simp)
    rw [World.revokeIn_familyId] at hf
    by_contra hlive
    obtain ⟨hid, hlive⟩ := World.revokeIn_live.mp (by simpa using hlive)
    rcases h.rows t₀ ht₀ hf with hrev | hrev | htodo
    · exact absurd (hrev.symm.trans hlive) (by simp)
    · rw [show w.writesOf p = _ from hw] at hrev
      exact hid (by simpa using hrev)
    · exact absurd htodo (by simp)

/-! ## Runs -/

theorem covers_blank (h₀ : w₀.Blank) : Covers w₀ := fun p f todo hp => by
  rw [h₀.stmt] at hp
  exact absurd hp (by simp)

/-- What the runs keep in which no successor comes late. -/
theorem covers_run (h₀ : w₀.Blank) (hr : Lts.Run (StepsIf s NoLateSuccessor) (.init w₀) tr c) :
    (logic s).Holds c ∧ Covers c.world :=
  (sound s).derive (P := fun c a c' => Allows NoLateSuccessor c a c') (J := fun c => Covers c.world)
    (hr.mono fun _ _ _ hs => ⟨hs.1, trivial, hs.2⟩)
    (holds_blank h₀)
    (covers_blank h₀) fun _ _ _ hL hJ hs hg hlate => hJ.step hL hs.wstep.1 hg.2 hlate

/-- A session commits. -/
def Commit (p : Pid) (a : Label) : Prop := ∃ fl r, fl ≠ .failed ∧ a = .run p fl .commit r

theorem commit_world {a : Label} (hs : Steps s c a c₁) (ha : Commit p a) :
    c₁.world = c.world.commit p := by
  obtain ⟨fl, r, hfl, rfl⟩ := ha
  have hx : exec fl p .commit c.world r c₁.world := hs.wstep.1
  cases fl with
  | done => exact hx.2
  | failed => exact absurd rfl hfl
  | lost =>
    obtain ⟨-, ⟨r₀, -, hw⟩, -⟩ := hx
    exact hw

/-- A crashed session executes no UPDATE and left no writes. -/
theorem crashed_idle (hr : Lts.Run (Steps s) (.init w₀) tr c) (hp : c.thread p = .crashed) :
    c.world.stmt p = none ∧ c.world.writesOf p = [] := by
  refine hr.inv (fun c => c.thread p = .crashed → c.world.stmt p = none ∧ c.world.writesOf p = [])
    (by simp [Config.init]) ?_ hp
  intro c a c' ih hs hcrash
  by_cases hpid : a.pid = some p
  · rcases hs.crashed hcrash with hold | rfl
    · cases hs with
      | spawn hf =>
        obtain rfl := Option.some.inj hpid
        exact absurd (hf.symm.trans hold) (by simp)
      | run hlive _ =>
        obtain rfl := Option.some.inj hpid
        exact absurd (hlive.symm.trans hold) (by simp)
      | crash hlive =>
        obtain rfl := Option.some.inj hpid
        exact absurd (hlive.symm.trans hold) (by simp)
      | outer => exact absurd hpid (by simp [Act.pid])
    · have hw : c'.world = c.world.rollback p := hs.wstep.1
      rw [hw]
      simp
  · have hold : c.thread p = .crashed := by
      rcases hs.crashed hcrash with hold | rfl
      · exact hold
      · exact absurd rfl hpid
    obtain ⟨hwr, hst⟩ := wstep_other hs.wstep.1 hpid
    rw [hst, hwr]
    exact ih hold

/-- Requests that do not overlap meet the condition. -/
theorem apart_steps (h₀ : w₀.Blank)
    (hr : Lts.Run (Lts.restrict (Steps s) OneByOne) (.init w₀) tr c) :
    Lts.Run (StepsIf s NoLateSuccessor) (.init w₀) tr c := by
  induction hr with
  | nil => exact .nil
  | @snoc tr c c' a hr hs ih =>
    refine ih.snoc ⟨hs.1, ?_⟩
    unfold Allows NoLateSuccessor
    split
    · rename_i q fl r
      rintro - t - p hpq ⟨todo, htodo⟩
      have hrun : (c.thread q).Running := by
        cases hs.1 with
        | run hlive _ =>
          rw [hlive]
          trivial
      have hrest : ¬ (c.thread p).Running := fun hp => hpq (one_running hr hp hrun)
      have hnone : c.world.stmt p = none := by
        by_cases hcrash : c.thread p = .crashed
        · exact (crashed_idle hr.of_restrict hcrash).1
        · rcases (run_holds h₀ hr.of_restrict).resting hrest hcrash with ⟨-, hnone, -⟩ | ⟨r, -, hnone, -⟩
          · exact hnone
          · exact hnone
      rw [hnone] at htodo
      exact absurd htodo (by simp)
    · trivial

/-- The session `p` is about to commit a revocation of the family `f`. -/
def atCommit (p : Pid) (f : FamilyId) (c : State) : Bool :=
  match c.thread p with
  | .live (.call .commit _) => decide (c.world.stmt p = some ⟨.family f, []⟩)
  | _ => false

theorem commit_step (s : Settings) (h : atCommit p f c = true) :
    ∃ a c₁, Steps s c a c₁ ∧ Commit p a ∧ c.world.Revoking p f ∧ (player s).step p c = some c₁ := by
  unfold atCommit at h
  split at h
  · rename_i k hlive
    refine ⟨_, _, Step.run hlive (f := .done) (r := .ok ()) ⟨rfl, rfl⟩, ⟨.done, .ok (), by simp, rfl⟩,
      ⟨[], of_decide_eq_true h⟩, ?_⟩
    unfold Player.step
    rw [hlive]
    rfl
  · exact absurd h (by simp)

/-- The operation finds the row of a presented token, and the row is revoked. -/
def detects (p : Pid) (f : FamilyId) : Label → Bool
  | .run q _ (.selectToken _) (.ok (some t)) => q = p && t.isRevoked && t.familyId = f
  | _ => false

/-- The request detected the reuse of a token of the family. -/
def Detected (tr : List Label) (p : Pid) (f : FamilyId) : Prop := ∃ a ∈ tr, detects p f a = true

namespace Script

/-- The first two tokens of a family, and the end of the grace period. -/
def rotated : List (Turn Request Event) :=
  [.outer (.register "u" "h"), .request 0 (.login "u" "x") 9,
    .request 1 (.refresh (some (issued defaults "j"))) 14, .outer (.tick (31 * second))]

/-- The thread 2 presents the first token again, up to its commit. -/
def reuse : List (Move Request Event) :=
  [.spawn 2 (.refresh (some (issued defaults "j"))), .go 2 8]

/-- The thread 2 rotates the second token while the thread 3 presents the first one again; it commits
after the statement of the thread 3 began. -/
def escape : List (Move Request Event) :=
  login ++ rotate defaults 1 "j" ++ [.outer (.tick (31 * second)),
    .spawn 2 (.refresh (some (issued defaults "jj"))), .go 2 10,
    .spawn 3 (.refresh (some (issued defaults "j"))), .go 3 6, .go 2 1, .go 3 2]

end Script

/-- **A revocation is complete.**  In every interleaving in which no session commits a new row of a
family while another one is revoking it: once the revocation of a family is committed, none of its rows
is live, then and ever after. -/
theorem family_revoked (h₀ : w₀.Blank) (hr : Lts.Run (StepsIf s NoLateSuccessor) (.init w₀) tr c)
    {a : Label} (hs : Steps s c a c₁) (ha : Commit p a) (hp : c.world.Revoking p f)
    (hr' : Lts.Run (Steps s) c₁ tr' c') :
    ∀ t ∈ c'.world.tokens, t.familyId = f → t.isRevoked = true := by
  obtain ⟨hH, hcovers⟩ := covers_run h₀ hr
  obtain ⟨hg, hH₁⟩ := (sound s).step hs trivial hH
  obtain ⟨todo, htodo⟩ := hp
  have hdone : c.world.Done p := by
    obtain ⟨fl, r, -, rfl⟩ := ha
    exact hg.2 p fl .commit r rfl
  obtain rfl : todo = [] := hdone _ htodo
  have hdead : c₁.world.Dead f := commit_world hs ha ▸ (hcovers p f [] htodo).dead hH.inv
  exact (Dead.run hdead hH₁ hr').revoked

/-- A token is presented again after its grace period. -/
theorem family_revoked_sample : ∃ (tr : List Label) (c : State) (a : Label) (c₁ : State),
    Lts.Run (StepsIf defaults NoLateSuccessor) (.init World.empty) tr c ∧ Steps defaults c a c₁ ∧
      Commit 2 a ∧ ∀ t ∈ c₁.world.tokens, t.familyId = 1 → t.isRevoked = true := by
  obtain ⟨c, hc, htest⟩ := (Option.any_eq_true _ _).mp (by decide +kernel :
    (((player defaults).serve Script.rotated (.init World.empty)).bind
      ((player defaults).play Script.reuse)).any (atCommit 2 1) = true)
  obtain ⟨c₀, h₀, h₁⟩ := Option.bind_eq_some_iff.mp hc
  obtain ⟨hquiet, tr₀, hr₀⟩ := Player.serve_run quiet_init h₀
  obtain ⟨⟨tr₁, hr₁⟩, -⟩ := Player.begin_orderly hquiet h₁
  obtain ⟨a, c₁, hs, ha, hp, -⟩ := commit_step defaults htest
  have hr := apart_steps blank_empty (Player.Orderly.apart (hr₀.append hr₁))
  exact ⟨_, c, a, c₁, hr, hs, ha, family_revoked blank_empty hr hs ha hp .nil⟩

/-- The successor that is committed late stays live. -/
theorem family_escapes : ¬ ∀ (s : Settings) (w₀ : World) (tr : List Label) (c : State) (a : Label)
    (c₁ : State) (p : Pid) (f : FamilyId), w₀.Blank → Lts.Run (Steps s) (.init w₀) tr c →
      Detected tr p f → Steps s c a c₁ → Commit p a → c.world.Revoking p f →
        ∀ t ∈ c₁.world.tokens, t.familyId = f → t.isRevoked = true := by
  intro h
  obtain ⟨tr, c, hr, htest⟩ := Player.play_test (player defaults) Script.escape (.init World.empty)
    (fun c => (atCommit 3 1 c && c.past.any (detects 3 1)) &&
      (c.world.view 3).any fun t => t.familyId = 1 && !t.isRevoked) (by decide +kernel)
  obtain ⟨htest, hlive⟩ := Bool.and_eq_true_iff.mp htest
  obtain ⟨hat, hdetects⟩ := Bool.and_eq_true_iff.mp htest
  have hdetected : Detected tr 3 1 := by
    rw [← show c.past = tr from run_past hr.of_restrict]
    exact List.any_eq_true.mp hdetects
  obtain ⟨a, c₁, hs, ha, hp, -⟩ := commit_step defaults hat
  obtain ⟨t, ht, htest⟩ := List.any_eq_true.mp hlive
  obtain ⟨hf, hrev⟩ := Bool.and_eq_true_iff.mp htest
  have htokens : c₁.world.tokens = c.world.view 3 := by rw [commit_world hs ha, World.commit_tokens]
  have hrevoked := h defaults World.empty tr c a c₁ 3 1 blank_empty hr.of_restrict
    hdetected hs ha hp t
    (htokens ▸ ht) (of_decide_eq_true hf)
  rw [hrevoked] at hrev
  exact absurd hrev (by simp)

end Auth

end PaymentRecon
