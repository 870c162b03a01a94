import PaymentRecon.Auth.Revocation

/-!
# Extension — what a revoked family can still get

A token of a revoked family is live no more, but the grace cache may still answer for it.  When no token
of the family has an entry that is valid at the revocation, none will ever have one: entries are made for
tokens that were just rotated, and a dead family is not rotated.
-/

namespace PaymentRecon

open Interleave Rely

namespace Auth

variable {s : Settings} {w w' w₀ : World} {p q : Pid} {past : List Label} {f : FamilyId}
  {c c' c₁ : State} {tr tr' : List Label} {a : Label}

/-- No token of the family has a valid entry in the grace cache. -/
def World.Hushed (w : World) (f : FamilyId) : Prop :=
  ∀ t ∈ w.tokens, t.familyId = f → w.cached t.tokenHash = none

/-! ## What a step does to the cache -/

/-- An entry that expired does not come back. -/
theorem cached_ticked {key : Jti} (d : ℕ) (h : w.cached key = none) :
    { w with clock := w.clock + d }.cached key = none := by
  unfold World.cached at h ⊢
  cases hentry : w.grace key with
  | none => simp
  | some entry =>
    have hexpired : ¬ w.clock < entry.2 := by simpa [hentry] using h
    have hlater : ¬ w.clock + d < entry.2 := fun hlt => hexpired ((Nat.le_add_right _ _).trans_lt hlt)
    simp [hlater]

/-- A key without a valid entry gets one by a SET alone. -/
theorem cached_step (hw : (auth s).WStep w a w') {key : Jti} (h : w.cached key = none)
    (hset : ∀ p fl value ex r, a ≠ .run p fl (.set key value ex) r) : w'.cached key = none := by
  have hsame : w'.clock = w.clock → w'.grace key = w.grace key → w'.cached key = none := by
    intro hclock hgrace
    unfold World.cached
    rw [hclock, hgrace]
    exact h
  have hgoes : ∀ q fl op r r₀, a = .run q fl op r → op.run q w r₀ w' → w'.cached key = none := by
    rintro q fl op r r₀ rfl hx
    have hclock := (run_frame hx).clock
    rcases (run_frame hx).grace with hgrace | ⟨key', value, ex, rfl, hother⟩
    · exact hsame hclock (congrFun hgrace key)
    · exact hsame hclock (hother key fun heq => hset q fl value ex r (by rw [heq]))
  cases a with
  | spawn q x =>
    obtain rfl : w' = w := hw
    exact h
  | crash q =>
    obtain rfl : w' = w.rollback q := hw
    exact h
  | outer x =>
    obtain rfl : w' = w.outer x := hw
    cases x with
    | tick d => exact cached_ticked d h
    | register username hashedPassword =>
      simp only [World.outer]
      split_ifs <;> exact h
  | run q fl op r =>
    cases fl with
    | done => exact hgoes q .done op r r rfl hw
    | failed =>
      obtain rfl : w' = w := hw.1
      exact h
    | lost =>
      obtain ⟨-, ⟨r₀, hx⟩, -⟩ := hw
      exact hgoes q .lost op r r₀ rfl hx

/-! ## What a step does to a dead family -/

/-- The rows that are inserted are not of a dead family. -/
theorem World.Dead.strange (h : w.Dead f) {fl : Fault} {userId : Id} {jti : Jti} {expiresAt : ℕ}
    {familyId : Option FamilyId} {t : RefreshToken}
    (hx : exec fl q (.insertToken userId jti expiresAt familyId) w (.ok t) w')
    (hlaw : Lawful q w past (.insertToken userId jti expiresAt familyId)) : t.familyId ≠ f := by
  rcases exec_effect hx with ⟨-, e, he⟩ | ⟨r₀, hx, hr⟩
  · exact absurd he (by simp)
  · obtain rfl := hr.resolve_right fun hl => hl.1
    cases hx with
    | quiet hq _ => exact hq.elim
    | @inserted _ _ _ _ f' _ _ hf' =>
      show f' ≠ f
      rintro rfl
      rcases hlaw.2.2 with ⟨r, hr, hlive, hrf, -⟩ | ⟨hnone, -⟩
      · -- the successor of a live row
        have hfam : r.familyId = f' := by
          rcases hf' with hf' | ⟨hf', -⟩
          · exact Option.some.inj (hrf.symm.trans hf')
          · exact absurd (hrf.symm.trans hf') (by simp)
        exact absurd ((h.revoked r hr hfam).symm.trans hlive) (by simp)
      · -- the first row of a family
        have hfresh := (hf'.resolve_left (by simp [hnone])).2
        obtain ⟨t, ht, hf⟩ := h.inhabited
        exact hfresh t (List.mem_append_left _ ht) hf

/-- The cache has nothing for a dead family until a SET for one of its tokens. -/
theorem World.Hushed.step (h : w.Hushed f) (hdead : w.Dead f) (hL : Lineage w past)
    (hw : (auth s).WStep w a w') (hset : ∀ q fl key value ex r, a = .run q fl (.set key value ex) r →
      ∀ t ∈ w.tokens, t.familyId = f → t.tokenHash ≠ key) : w'.Hushed f := by
  intro t ht hf
  obtain ⟨t₀, ht₀, hf₀, hhash, -⟩ := hdead.origin hL hw ht hf
  rw [← hhash]
  refine cached_step hw (h t₀ ht₀ hf₀) ?_
  rintro q fl value ex r rfl
  exact hset q fl _ value ex r rfl t₀ ht₀ hf₀ rfl

theorem World.Hushed.committed (h : w.Hushed f) (hL : Lineage w past)
    (hno : ∀ t, .insert t ∉ w.writesOf p) : (w.commit p).Hushed f := by
  obtain ⟨ids, new, hwrote, -⟩ := hL.shape p
  intro t ht hf
  rcases (Lineage.mem_commit hwrote).mp ht with ⟨t₀, ht₀, rfl⟩ | hnew
  · rw [World.revokeIn_tokenHash]
    exact h t₀ ht₀ (by simpa using hf)
  · refine absurd ?_ (hno t)
    obtain rfl := Option.mem_def.mp hnew
    rw [show w.writesOf p = _ from hwrote]
    simp

/-! ## After the revocation -/

/-- What holds from the commit of a revocation on.  `born` holds of the threads that start later, and
`late` of all that still move. -/
structure Cut (f : FamilyId) (born late : Pid → Prop) (c : State) : Prop where
  dead : c.world.Dead f
  hushed : c.world.Hushed f
  strange : ∀ q t, late q → Inserted c.past q t → t.familyId ≠ f
  moving : ∀ q, (c.thread q).Running ∨ c.thread q = .fresh → late q
  unread : ∀ q fl key pair, born q → .run q fl (.get key) (.ok (some pair)) ∈ c.past →
    ∀ t ∈ c.world.tokens, t.familyId = f → t.tokenHash ≠ key

namespace Cut

variable {born late : Pid → Prop}

/-- A thread that moves is late. -/
theorem mover (h : Cut f born late c) {fl : Fault} {op : Op} {r : Except Exc op.Ret}
    (hs : Steps s c (.run q fl op r) c') : late q := by
  cases hs with
  | run hlive _ =>
    refine h.moving q (Or.inl ?_)
    rw [hlive]
    trivial

/-- A GET of the key of a token of the family finds nothing. -/
theorem get_none (h : Cut f born late c) {fl : Fault} {key : Jti} {pair : TokenResponse}
    (hx : exec fl q (.get key) c.world (.ok (some pair)) c'.world) {t : RefreshToken}
    (ht : t ∈ c.world.tokens) (hf : t.familyId = f) : t.tokenHash ≠ key := by
  rintro rfl
  cases fl with
  | done =>
    have hr := Except.ok.inj hx.1
    rw [h.hushed t ht hf] at hr
    exact absurd hr (by simp)
  | failed =>
    obtain ⟨-, e, -, he⟩ := hx
    exact absurd he (by simp)
  | lost =>
    obtain ⟨-, -, e, -, he⟩ := hx
    exact absurd he (by simp)

/-- **Step lemma.** -/
theorem step (h : Cut f born late c) (hL : Lineage c.world c.past) (hs : Steps s c a c')
    (hg : ∀ q fl op r, a = .run q fl op r → Lawful q c.world c.past op) : Cut f born late c' := by
  have hw : (auth s).WStep c.world a c'.world := hs.wstep.1
  have hpast : c'.past = c.past ++ [a] := hs.wstep.2
  refine ⟨h.dead.step hL hw, ?_, ?_, ?_, ?_⟩
  · refine h.hushed.step h.dead hL hw ?_
    rintro q fl key value ex r rfl t ht hf rfl
    -- a SET is for the row that the request rotated
    obtain ⟨t', hi, r, hr, hhash, hfam⟩ := hg q fl _ _ rfl
    obtain rfl := hL.hash_eq (List.mem_append_left _ hr) (List.mem_append_left _ ht) hhash
    exact h.strange q t' (h.mover hs) hi (hfam.symm.trans hf)
  · intro q t hlate hi
    rw [hpast] at hi
    rcases inserted_append.mp hi with hi | ⟨fl, userId, jti, expiresAt, familyId, rfl⟩
    · exact h.strange q t hlate hi
    · exact h.dead.strange hw (hg q fl _ _ rfl)
  · intro q hq
    refine h.moving q ?_
    rcases hq with hrun | hfresh
    · exact hs.running hrun
    · exact Or.inr (hs.fresh hfresh).1
  · intro q fl key pair hborn hget t ht hf
    obtain ⟨t₀, ht₀, hf₀, hhash, -⟩ := h.dead.origin hL hw ht hf
    rw [hpast] at hget
    rw [← hhash]
    rcases List.mem_append.mp hget with hget | hget
    · exact h.unread q fl key pair hborn hget t₀ ht₀ hf₀
    · obtain rfl := List.mem_singleton.mp hget
      exact h.get_none hw ht₀ hf₀

end Cut

theorem Cut.run {born late : Pid → Prop} (h : Cut f born late c) (hH : (logic s).Holds c)
    (hr : Lts.Run (Steps s) c tr c') : (logic s).Holds c' ∧ Cut f born late c' :=
  (sound s).derive (P := fun _ _ _ => True) (J := Cut f born late)
    (hr.mono fun _ _ _ hs => ⟨hs, trivial, trivial⟩) hH h
    fun _ _ _ hL hc hs hg _ => hc.step hL hs hg.2

/-! ## The session that revokes -/

theorem World.Revoking.ended (h : w'.Revoking p f) (hstmt : w'.stmt = Function.update w.stmt q none) :
    w.Revoking p f := by
  obtain ⟨todo, htodo⟩ := h
  rw [hstmt] at htodo
  by_cases hpq : p = q
  · subst hpq
    rw [Function.update_self] at htodo
    exact absurd htodo (by simp)
  · rw [Function.update_of_ne hpq] at htodo
    exact ⟨todo, htodo⟩

theorem World.Revoking.of_visited {id : Id} (h : w'.Revoking p f)
    (hstmt : w'.stmt = (w.visited q id).stmt) : w.Revoking p f := by
  obtain ⟨todo, htodo⟩ := h
  rw [hstmt, World.visited_stmt] at htodo
  by_cases hpq : p = q
  · subst hpq
    rw [Function.update_self] at htodo
    obtain ⟨x, hx, heq⟩ := Option.map_eq_some_iff.mp htodo
    obtain ⟨sel, todo'⟩ := x
    obtain ⟨rfl, -⟩ := Stmt.mk.inj heq
    exact ⟨todo', hx⟩
  · rw [Function.update_of_ne hpq] at htodo
    exact ⟨todo, htodo⟩

/-- A session that revokes a family after a step did so before, or begins with it. -/
theorem World.Revoking.before (h : w'.Revoking p f) (hw : (auth s).WStep w a w') :
    w.Revoking p f ∨ ∃ fl r, a = .run p fl (.beginUpdate (.family f)) r := by
  have hsame : w'.stmt = w.stmt → w.Revoking p f := by
    intro he
    unfold World.Revoking
    rw [← he]
    exact h
  cases a with
  | spawn q x =>
    obtain rfl : w' = w := hw
    exact Or.inl h
  | crash q =>
    obtain rfl : w' = w.rollback q := hw
    exact Or.inl (h.ended rfl)
  | outer x =>
    obtain rfl : w' = w.outer x := hw
    exact Or.inl (hsame (outer_same x).stmt)
  | run q fl op r =>
    rcases exec_effect hw with ⟨rfl, -⟩ | ⟨r₀, hx, -⟩
    · exact Or.inl h
    · cases hx with
      | quiet _ hs => exact Or.inl (hsame hs.stmt)
      | @begun sel ids _ =>
        obtain ⟨todo, htodo⟩ := h
        rw [World.setStmt_stmt] at htodo
        by_cases hpq : p = q
        · subst hpq
          rw [Function.update_self] at htodo
          obtain ⟨rfl, -⟩ := Stmt.mk.inj (Option.some.inj htodo)
          exact Or.inr ⟨fl, r, rfl⟩
        · rw [Function.update_of_ne hpq] at htodo
          exact Or.inl ⟨todo, htodo⟩
      | took sel id _ _ => exact Or.inl (h.of_visited (w := w) rfl)
      | passed sel id _ => exact Or.inl (h.of_visited (w := w) rfl)
      | committed => exact Or.inl (h.ended rfl)
      | rolledBack => exact Or.inl (h.ended rfl)
      | closed => exact Or.inl (h.ended rfl)
      | _ => exact Or.inl h

/-- A session that revokes a family inserted no row. -/
def Barren (c : State) : Prop := ∀ p f, c.world.Revoking p f → ∀ t, ¬ Inserted c.past p t

theorem Barren.step (h : Barren c) (hs : Steps s c a c')
    (hg : ∀ q fl op r, a = .run q fl op r → Lawful q c.world c.past op) : Barren c' := by
  intro p f hrev t hi
  rw [hs.wstep.2] at hi
  rcases hrev.before hs.wstep.1 with hold | ⟨fl, r, rfl⟩
  · rcases inserted_append.mp hi with hi | ⟨fl, userId, jti, expiresAt, familyId, rfl⟩
    · exact h p f hold t hi
    · -- a session inserts after an UPDATE of a live row
      obtain ⟨todo, htodo⟩ := hold
      obtain ⟨jti, now, hsel⟩ := (hg p fl _ _ rfl).2.1 _ htodo
      exact absurd hsel (by simp)
  · rcases inserted_append.mp hi with hi | ⟨fl', userId, jti, expiresAt, familyId, heq⟩
    · exact (hg p fl _ _ rfl).1 t hi
    · exact absurd heq (by simp)

theorem barren_run (h₀ : w₀.Blank) (hr : Lts.Run (Steps s) (.init w₀) tr c) : Barren c :=
  ((sound s).derive (P := fun _ _ _ => True) (J := Barren)
    (hr.mono fun _ _ _ hs => ⟨hs, trivial, trivial⟩)
    (holds_blank h₀)
    (fun _ _ _ _ => by simp [Inserted, Config.init]) fun _ _ _ _ hc hs hg _ => hc.step hs hg.2).2

/-- When requests do not overlap, the commit of a revocation cuts the family off that the cache has
nothing for. -/
theorem cut_commit (h₀ : w₀.Blank) (hr : Lts.Run (Lts.restrict (Steps s) OneByOne) (.init w₀) tr c)
    (hs : Steps s c a c₁) (ha : Commit p a) (hp : c.world.Revoking p f) (hhush : c.world.Hushed f) :
    (logic s).Holds c₁ ∧
      Cut f (fun q => c₁.thread q = .fresh) (fun q => c₁.thread q = .fresh ∨ q = p) c₁ := by
  obtain ⟨hH, hcovers⟩ := covers_run h₀ (apart_steps h₀ hr)
  obtain ⟨hg, hH₁⟩ := (sound s).step hs trivial hH
  obtain ⟨todo, htodo⟩ := hp
  obtain ⟨fl, r, hfl, rfl⟩ := ha
  have hdone : c.world.Done p := hg.2 p fl .commit r rfl
  obtain rfl : todo = [] := hdone _ htodo
  have hcovered := hcovers p f [] htodo
  have hworld : c₁.world = c.world.commit p := commit_world hs ⟨fl, r, hfl, rfl⟩
  have hpast : c₁.past = c.past ++ [.run p fl .commit r] := hs.wstep.2
  have hrun : (c.thread p).Running := by
    cases hs with
    | run hlive _ =>
      rw [hlive]
      trivial
  refine ⟨hH₁, hworld ▸ hcovered.dead hH.inv, ?_, ?_, ?_, ?_⟩
  · rw [hworld]
    exact hhush.committed hH.inv hcovered.revokes
  · rintro q t (hfresh | rfl) hi
    · exact absurd hi ((hH₁.fresh q hfresh).2.2 t)
    · rw [hpast] at hi
      rcases inserted_append.mp hi with hi | ⟨_, _, _, _, _, heq⟩
      · exact absurd hi (barren_run h₀ hr.of_restrict q f ⟨[], htodo⟩ t)
      · exact absurd heq (by simp)
  · rintro q (hq | hfresh)
    · rcases hs.starts hq with hq | ⟨x, hx⟩
      · exact Or.inr (one_running hr hq hrun)
      · exact absurd hx (by simp)
    · exact Or.inl hfresh
  · intro q fl' key pair hfresh hget
    have hr₁ := hr.of_restrict.snoc hs
    exact absurd rfl (fresh_unlabelled hr₁ hfresh _ hget)

instance (w : World) (f : FamilyId) : Decidable (w.Hushed f) :=
  inferInstanceAs (Decidable (∀ t ∈ w.tokens, t.familyId = f → w.cached t.tokenHash = none))

namespace Script

/-- The thread `p` presents a token, up to its `n`-th operation. -/
def present (p : Pid) (jti : Jti) (n : ℕ) : List (Move Request Event) :=
  [.spawn p (.refresh (some (issued defaults jti))), .go p n]

/-- The second token is exchanged after the grace period of the first one. -/
def twice : List (Turn Request Event) :=
  rotated ++ [.request 2 (.refresh (some (issued defaults "jj"))) 14, .outer (.tick second)]

end Script

/-- The thread has answered a token pair. -/
def answered (p : Pid) (c : State) : Bool :=
  match c.thread p with
  | .live (.ret _) => true
  | _ => false

/-- The family has a token with this hash. -/
def hasToken (f : FamilyId) (jti : Jti) (c : State) : Bool :=
  c.world.tokens.any fun t => t.familyId = f && t.tokenHash = jti

/-- After the schedule, the thread `p` presents `j` and is about to commit a revocation with its `n`-th
operation; then the next thread presents `jj` up to its `m`-th operation.  `test` compares what the
commit found and what is left. -/
def replays (ts : List (Turn Request Event)) (p : Pid) (n m : ℕ) (test : State → State → Bool) : Bool :=
  (((player defaults).serve ts (.init World.empty)).bind
    ((player defaults).play (Script.present p "j" n))).any fun c =>
      atCommit p 1 c && (((player defaults).step p c).bind ((player defaults).steps p 2)).any fun c₂ =>
        Player.ended c₂ p && ((player defaults).play (Script.present (p + 1) "jj" m) c₂).any (test c)

theorem replays_run {ts : List (Turn Request Event)} {p : Pid} {n m : ℕ} {test : State → State → Bool}
    (h : replays ts p n m test = true) : ∃ (tr : List Label) (c : State) (a : Label) (c₁ : State)
      (tr' : List Label) (c' : State),
        Lts.Run (Lts.restrict (Steps defaults) OneByOne) (.init World.empty) tr c ∧
        Steps defaults c a c₁ ∧ Commit p a ∧ c.world.Revoking p 1 ∧
        Lts.Run (Lts.restrict (Steps defaults) OneByOne) c₁ tr' c' ∧
        .spawn (p + 1) (.refresh (some (issued defaults "jj"))) ∈ tr' ∧ test c c' = true := by
  obtain ⟨c, hc, h⟩ := (Option.any_eq_true _ _).mp h
  obtain ⟨hat, h⟩ := Bool.and_eq_true_iff.mp h
  obtain ⟨c₂, hc₂, h⟩ := (Option.any_eq_true _ _).mp h
  obtain ⟨hend, h⟩ := Bool.and_eq_true_iff.mp h
  obtain ⟨c', hc', htest⟩ := (Option.any_eq_true _ _).mp h
  obtain ⟨c₀, h₀, h₁⟩ := Option.bind_eq_some_iff.mp hc
  obtain ⟨hquiet, tr₀, hr₀⟩ := Player.serve_run quiet_init h₀
  obtain ⟨⟨tr₁, hr₁⟩, hthread₁⟩ := Player.begin_orderly hquiet h₁
  obtain ⟨a, c₁, hs, ha, hp, hstep⟩ := commit_step defaults hat
  rw [hstep] at hc₂
  obtain ⟨⟨tr₂, hr₂⟩, hthread₂⟩ := Player.steps_orderly (show _ = some c₂ from hc₂)
  have hthread : ∀ q, q ≠ p → c₂.thread q = c₀.thread q := by
    intro q hq
    rw [hthread₂ q hq, (Player.step_orderly hstep).2 q hq, hthread₁ q hq]
  obtain ⟨⟨tr₃, hr₃⟩, -⟩ := Player.begin_orderly (Player.quiet_ended hquiet hthread hend) hc'
  have hr := Player.Orderly.apart (hr₀.append hr₁)
  have hr' := Player.Orderly.apart (hr₂.append hr₃)
  exact ⟨_, c, a, c₁, _, c', hr, hs, ha, hp, hr', by simp, htest⟩

/-- **No pair for a revoked family.**  When requests do not overlap and the cache has a valid entry for
no token of a family that is being revoked: once the revocation is committed, no request that starts
later and presents a token of the family answers a token pair. -/
theorem no_extension (h₀ : w₀.Blank) (hr : Lts.Run (Lts.restrict (Steps s) OneByOne) (.init w₀) tr c)
    (hs : Steps s c a c₁) (ha : Commit p a) (hp : c.world.Revoking p f) (hhush : c.world.Hushed f)
    (hr' : Lts.Run (Steps s) c₁ tr' c') {x : Request} (hq : .spawn q x ∈ tr') {t : RefreshToken}
    (ht : t ∈ c'.world.tokens) (hf : t.familyId = f) (hx : x.jti = some t.tokenHash) :
    ∀ pair, c'.thread q ≠ .live (.ret pair) := by
  intro pair hret
  obtain ⟨hH₁, hcut⟩ := cut_commit h₀ hr hs ha hp hhush
  obtain ⟨hH', hcut'⟩ := hcut.run hH₁ hr'
  have hborn : c₁.thread q = .fresh := spawned_fresh hr' hq
  have hwhole := (hr.of_restrict.snoc hs).append hr'
  have hpast : c'.past = tr ++ [a] ++ tr' := run_past hwhole
  have hbears : Bears (tr ++ [a] ++ tr') q t.tokenHash := ⟨x, List.mem_append_right _ hq, hx⟩
  obtain ⟨-, -, hearned⟩ := hH'.final hret
  rcases hearned pair rfl with ⟨fl, key, pair', hget, hb⟩ | ⟨t', jti, hi, ⟨r, hr, hhash, hfam⟩, hb⟩ | hbare
  · rw [hpast] at hb
    refine hcut'.unread q fl key pair' hborn hget t ht hf ?_
    exact bears_unique hwhole hbears hb
  · rw [hpast] at hb
    obtain rfl := bears_unique hwhole hbears hb
    obtain rfl := hH'.inv.hash_eq (List.mem_append_left _ hr) (List.mem_append_left _ ht) hhash
    exact hcut'.strange q t' (Or.inl hborn) hi (hfam.symm.trans hf)
  · rw [hpast] at hbare
    exact not_bare hwhole hbears hbare

/-- The cache is empty when the first token is presented again; then the second one is. -/
theorem no_extension_sample : ∃ (tr : List Label) (c : State) (a : Label) (c₁ : State)
    (tr' : List Label) (c' : State) (t : RefreshToken),
      Lts.Run (Lts.restrict (Steps defaults) OneByOne) (.init World.empty) tr c ∧
      Steps defaults c a c₁ ∧ Commit 2 a ∧ Lts.Run (Steps defaults) c₁ tr' c' ∧
      t ∈ c'.world.tokens ∧ t.tokenHash = "jj" ∧ Player.ended c' 3 = true ∧
      ∀ pair, c'.thread 3 ≠ .live (.ret pair) := by
  obtain ⟨tr, c, a, c₁, tr', c', hr, hs, ha, hp, hr', hq, htest⟩ := replays_run
    (by decide +kernel : replays Script.rotated 2 8 11 (fun c c' => decide (c.world.Hushed 1) &&
      (Player.ended c' 3 && hasToken 1 "jj" c')) = true)
  obtain ⟨hhush, htest⟩ := Bool.and_eq_true_iff.mp htest
  obtain ⟨hend, htest⟩ := Bool.and_eq_true_iff.mp htest
  obtain ⟨t, ht, htest⟩ := List.any_eq_true.mp htest
  obtain ⟨hf, hhash⟩ := Bool.and_eq_true_iff.mp htest
  have hhash : t.tokenHash = "jj" := of_decide_eq_true hhash
  have hno := no_extension blank_empty hr hs ha hp (of_decide_eq_true hhush) hr'.of_restrict hq ht
    (of_decide_eq_true hf) (congrArg some hhash.symm)
  exact ⟨tr, c, a, c₁, tr', c', t, hr, hs, ha, hr'.of_restrict, ht, hhash, hend, hno⟩

/-- The entry of the second token, which was exchanged a second before, still answers for it. -/
theorem extended : ¬ ∀ (s : Settings) (w₀ : World) (tr : List Label) (c : State) (a : Label)
    (c₁ : State) (p q : Pid) (f : FamilyId) (tr' : List Label) (c' : State) (x : Request)
    (t : RefreshToken), w₀.Blank → Lts.Run (Lts.restrict (Steps s) OneByOne) (.init w₀) tr c →
      Detected tr p f → Steps s c a c₁ → Commit p a → c.world.Revoking p f →
        Lts.Run (Lts.restrict (Steps s) OneByOne) c₁ tr' c' → .spawn q x ∈ tr' →
          t ∈ c'.world.tokens → t.familyId = f → x.jti = some t.tokenHash →
            ∀ pair, c'.thread q ≠ .live (.ret pair) := by
  intro h
  obtain ⟨tr, c, a, c₁, tr', c', hr, hs, ha, hp, hr', hq, htest⟩ := replays_run
    (by decide +kernel : replays Script.twice 3 9 6 (fun c c' => c.past.any (detects 3 1) &&
      (answered 4 c' && hasToken 1 "jj" c')) = true)
  obtain ⟨hdetects, htest⟩ := Bool.and_eq_true_iff.mp htest
  obtain ⟨hanswered, htest⟩ := Bool.and_eq_true_iff.mp htest
  obtain ⟨t, ht, htest⟩ := List.any_eq_true.mp htest
  obtain ⟨hf, hhash⟩ := Bool.and_eq_true_iff.mp htest
  have hdetected : Detected tr 3 1 := by
    rw [← show c.past = tr from run_past hr.of_restrict]
    exact List.any_eq_true.mp hdetects
  have hno := h defaults World.empty tr c a c₁ 3 4 1 tr' c' _ t blank_empty hr hdetected hs ha hp hr' hq
    ht (of_decide_eq_true hf) (congrArg some (of_decide_eq_true hhash).symm)
  unfold answered at hanswered
  split at hanswered
  · rename_i pair hret
    exact hno pair hret
  · exact absurd hanswered (by simp)

end Auth

end PaymentRecon
