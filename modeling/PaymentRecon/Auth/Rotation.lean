import PaymentRecon.Auth.Guarantees
import PaymentRecon.Auth.Play

/-!
# Rotation — one live token per family, one rotation per token
-/

namespace PaymentRecon

open Interleave Rely

namespace Auth

variable {s : Settings} {w : World} {p q : Pid}

/-! ## Runs -/

variable {w₀ : World} {c c' : State} {tr tr' : List Label} {jti : Jti}

/-- No token was ever issued, and no session is open; users and time are arbitrary. -/
structure World.Blank (w : World) : Prop where
  tokens : w.tokens = []
  writes : w.writes = []
  locks : w.locks = []
  stmt : ∀ p, w.stmt p = none

theorem World.Blank.writesOf (h : w.Blank) : w.writesOf p = [] := by
  rw [World.writesOf, h.writes]
  rfl

theorem Lineage.blank (h : w.Blank) : Lineage w [] := by
  have hrows : w.rows = [] := by
    rw [World.rows, h.tokens, World.inFlight, h.writes]
    rfl
  constructor
  · simp [hrows]
  · simp [hrows]
  · simp [hrows]
  · simp [h.locks]
  · simp [h.writesOf]
  · exact fun p => ⟨[], none, h.writesOf, by simp⟩
  · simp [h.tokens]
  all_goals simp [Inserted, h.writesOf]

theorem holds_blank (h₀ : w₀.Blank) : (logic s).Holds (.init w₀) :=
  Holds.init (Lineage.blank h₀) fun p => ⟨h₀.writesOf, h₀.stmt p, by simp [Inserted]⟩

/-- What every run keeps. -/
theorem run_holds (h₀ : w₀.Blank) (hr : Lts.Run (Steps s) (.init w₀) tr c) : (logic s).Holds c :=
  ((sound s).derive (P := fun _ _ _ => True) (J := fun _ => True)
    (hr.mono fun _ _ _ hs => ⟨hs, trivial, trivial⟩)
    (holds_blank h₀) trivial
    fun _ _ _ _ _ _ _ _ => trivial).1

/-- A request presents one token. -/
theorem bears_unique (hr : Lts.Run (Steps s) (.init w₀) tr c) {j : Jti} (h : Bears tr p jti)
    (h' : Bears tr p j) : jti = j := by
  obtain ⟨x, hx, hj⟩ := h
  obtain ⟨x', hx', hj'⟩ := h'
  obtain rfl := spawn_unique hr hx hx'
  exact Option.some.inj (hj.symm.trans hj')

theorem not_bare (hr : Lts.Run (Steps s) (.init w₀) tr c) (h : Bears tr p jti) : ¬ Bare tr p := by
  rintro ⟨x', hx', hj'⟩
  obtain ⟨x, hx, hj⟩ := h
  obtain rfl := spawn_unique hr hx hx'
  exact absurd (hj.symm.trans hj') (by simp)

/-- A request that presented `jti` inserted the row. -/
def Successor (past : List Label) (jti : Jti) (t : RefreshToken) : Prop :=
  ∃ p t₀, Bears past p jti ∧ Inserted past p t₀ ∧ t₀.id = t.id

/-- A refresh token of the user `u`, as the service issues it at the start. -/
def issued (s : Settings) (jti : Jti) : Jwt :=
  .signed ⟨some "refresh", some jti, some "u", some (s.refreshLifetime / second)⟩

namespace Script

/-- The user `u` registers and logs in with the thread 0; the token is `j`. -/
def login : List (Move Request Event) :=
  [.outer (.register "u" "h"), .spawn 0 (.login "u" "x"), .go 0 9]

/-- The thread `p` exchanges a token. -/
def rotate (s : Settings) (p : Pid) (jti : Jti) : List (Move Request Event) :=
  [.spawn p (.refresh (some (issued s jti))), .go p 14]

end Script

theorem blank_empty : World.empty.Blank := ⟨rfl, rfl, rfl, fun _ => rfl⟩

def defaults : Settings := ⟨15, 30⟩

/-- Two rows of one family. -/
def sameFamily (c : State) : Bool :=
  match c.world.tokens with
  | [t, t'] => t.familyId = t'.familyId
  | _ => false

/-- **One live token per family, one rotation per token**, in every interleaving of requests that may
crash or fail anywhere. -/
theorem single_use (h₀ : w₀.Blank) (hr : Lts.Run (Steps s) (.init w₀) tr c) :
    (∀ t ∈ c.world.tokens, ∀ t' ∈ c.world.tokens, t.isRevoked = false → t'.isRevoked = false →
        t.familyId = t'.familyId → t = t') ∧
      ∀ jti, ∀ t ∈ c.world.tokens, ∀ t' ∈ c.world.tokens, Successor tr jti t → Successor tr jti t' →
        t = t' := by
  have hL : Lineage c.world c.past := (run_holds h₀ hr).inv
  rw [show c.past = tr from run_past hr] at hL
  have hrow : ∀ t ∈ c.world.tokens, ∀ t' ∈ c.world.tokens, t.id = t'.id → t = t' :=
    fun t ht t' ht' => hL.row_eq (List.mem_append_left _ ht) (List.mem_append_left _ ht')
  constructor
  · intro t ht t' ht' hlive hlive' hfam
    exact hrow t ht t' ht' (hL.single t ht t' ht' hlive hlive' hfam)
  · rintro jti t ht t' ht' ⟨p, t₀, hb, hi, hid⟩ ⟨q, t₁, hb', hi', hid'⟩
    refine hrow t ht t' ht' ?_
    rw [← hid, ← hid']
    by_cases hpq : p = q
    · subst hpq
      rw [hL.once p t₀ t₁ hi hi']
    · -- the parents of the two rows are different
      exfalso
      rcases hL.siblings p q t₀ t₁ hpq hi hi' ⟨t, ht, hid.symm⟩ ⟨t', ht', hid'.symm⟩ with
        hbare | hbare | ⟨j, j', hj, hj', hne⟩
      · exact not_bare hr hb hbare
      · exact not_bare hr hb' hbare
      · exact hne ((bears_unique hr hj hb).trans (bears_unique hr hb' hj'))

theorem single_use_sample : ∃ (tr : List Label) (c : State) (t t' : RefreshToken),
    Lts.Run (Steps defaults) (.init World.empty) tr c ∧ c.world.tokens = [t, t'] ∧
      (∀ r ∈ c.world.tokens, ∀ r' ∈ c.world.tokens, r.isRevoked = false → r'.isRevoked = false →
        r.familyId = r'.familyId → r = r') ∧ t.familyId = t'.familyId := by
  obtain ⟨tr, c, hr, htest⟩ := Player.play_test (player defaults)
    (Script.login ++ Script.rotate defaults 1 "j") (.init World.empty) sameFamily (by decide +kernel)
  unfold sameFamily at htest
  split at htest
  · rename_i t t' htokens
    have hr' := hr.of_restrict
    exact ⟨tr, c, t, t', hr', htokens, (single_use blank_empty hr').1, of_decide_eq_true htest⟩
  · exact absurd htest (by simp)

end Auth

end PaymentRecon
