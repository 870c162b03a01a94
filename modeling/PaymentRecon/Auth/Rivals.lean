import PaymentRecon.Auth.Alone
import PaymentRecon.Auth.Grace

/-!
# Rivals — two requests that present the same token

One of the two requests takes the row of the token.  It commits the successor, and only then puts the
new pair into the grace cache.  The other one finds the row revoked and asks the cache.  `Standing` says
how the two stand at any time, and `Inv` is the invariant of their interleaving.
-/

namespace PaymentRecon

open Interleave

namespace Auth

variable {s : Settings} {w w' w₀ : World} {x y : Pid} {past base tr : List Label} {c c' c₀ : State}
  {β : Type}

/-! ## The two requests -/

/-- Two requests `p` and `q` that present the token of the live row `record`, which belongs to the
`user` that the token names. -/
structure Retry (w₀ : World) where
  p : Pid
  q : Pid
  apart : p ≠ q
  payload : Payload
  jti : Jti
  sub : Username
  type : payload.type = some "refresh"
  presents : payload.jti = some jti
  subject : payload.sub = some sub
  record : RefreshToken
  mem : record ∈ w₀.tokens
  live : record.isRevoked = false
  hash : record.tokenHash = jti
  user : User
  found : w₀.users.find? (fun u => u.username = some sub) = some user
  owner : user.id = record.userId

/-- The operation asks the cache for the pair. -/
def reads (jti : Jti) : Label → Bool
  | .run _ _ (.get key) _ => key = jti
  | _ => false

/-- The operation puts the pair into the cache. -/
def stores (jti : Jti) : Label → Bool
  | .run _ _ (.set key _ _) _ => key = jti
  | _ => false

/-- The cache is asked only after it was given the pair. -/
def Sheltered (jti : Jti) (tr : List Label) : Prop :=
  AtEach (fun pre a => reads jti a = true → ∃ b ∈ pre, stores jti b = true) tr

namespace Retry

variable {d : Retry w₀}

def Asks (d : Retry w₀) (x : Pid) : Prop := x = d.p ∨ x = d.q

/-- The two requests, in one order or the other. -/
def Rivals (d : Retry w₀) (x y : Pid) : Prop := x = d.p ∧ y = d.q ∨ x = d.q ∧ y = d.p

/-- Only the two requests and the environment move, and nothing fails. -/
def Moves (d : Retry w₀) : StepCond := fun _ _ a _ =>
  match a with
  | .spawn x request => d.Asks x ∧ request = .refresh (some (.signed d.payload))
  | .run x f _ _ => d.Asks x ∧ f = .done
  | .crash _ => False
  | .outer _ => True

/-- Less than 30 seconds passed, and the token is valid. -/
structure InTime (d : Retry w₀) (clock : ℕ) : Prop where
  soon : clock < w₀.clock + 30 * second
  unexpired : clock < d.record.expiresAt
  payload : ¬ d.payload.Expired clock

theorem InTime.earlier {n m : ℕ} (h : d.InTime m) (hle : n ≤ m) : d.InTime n where
  soon := hle.trans_lt h.soon
  unexpired := hle.trans_lt h.unexpired
  payload := fun ⟨exp, hexp, hn⟩ => h.payload ⟨exp, hexp, hn.trans hle⟩

theorem Rivals.asks (h : d.Rivals x y) : d.Asks x ∧ d.Asks y := by
  rcases h with ⟨rfl, rfl⟩ | ⟨rfl, rfl⟩
  · exact ⟨Or.inl rfl, Or.inr rfl⟩
  · exact ⟨Or.inr rfl, Or.inl rfl⟩

theorem Rivals.symm (h : d.Rivals x y) : d.Rivals y x := by
  rcases h with ⟨rfl, rfl⟩ | ⟨rfl, rfl⟩
  · exact Or.inr ⟨rfl, rfl⟩
  · exact Or.inl ⟨rfl, rfl⟩

theorem Rivals.ne (h : d.Rivals x y) : x ≠ y := by
  rcases h with ⟨rfl, rfl⟩ | ⟨rfl, rfl⟩
  · exact d.apart
  · exact d.apart.symm

theorem Rivals.cases (h : d.Rivals x y) {z : Pid} (hz : d.Asks z) : z = x ∨ z = y := by
  rcases h with ⟨rfl, rfl⟩ | ⟨rfl, rfl⟩
  · exact hz
  · exact hz.symm

theorem Asks.rival (h : d.Asks x) : ∃ y, d.Rivals x y := by
  rcases h with rfl | rfl
  · exact ⟨d.q, Or.inl ⟨rfl, rfl⟩⟩
  · exact ⟨d.p, Or.inr ⟨rfl, rfl⟩⟩

/-! ## How far they are -/

/-- How far a request is. -/
inductive Stage
  | asking
  | refused
  | holding
  | grown (n : RefreshToken)
  | won (n : RefreshToken)
  | shared (n : RefreshToken) (pair : TokenResponse)
  | answered (pair : Option TokenResponse)

/-- What the session wrote. -/
def Stage.Writes (record : RefreshToken) : Stage → List Write → Prop
  | .holding, ws => ws = [.revoke record.id]
  | .grown n, ws => ws = [.revoke record.id, .insert n]
  | .answered none, _ => True
  | _, ws => ws = []

/-- A live row of the family. -/
def Heir (d : Retry w₀) (n : RefreshToken) : Prop :=
  n.familyId = d.record.familyId ∧ n.isRevoked = false

/-- How the two requests stand after the steps `tr`: nothing is committed yet; the successor is
committed and the cache has nothing; the cache has the pair; or the cache was asked too early. -/
inductive Standing (d : Retry w₀) (w : World) (tr : List Label) (gs : Pid → Stage) : Prop
  | unspent (tokens : w.tokens = w₀.tokens) (uncached : w.grace d.jti = none)
      (unstored : ∀ a ∈ tr, stores d.jti a = false) (sheltered : Sheltered d.jti tr)
      (stages : ∀ x, d.Asks x →
        gs x = .asking ∨ gs x = .holding ∨ ∃ n, d.Heir n ∧ gs x = .grown n)
  | spent {x y : Pid} {n : RefreshToken} (rivals : d.Rivals x y) (heir : d.Heir n)
      (winner : gs x = .won n) (loser : gs y = .asking ∨ gs y = .refused)
      (revoked : d.record.revoke ∈ w.tokens) (successor : n ∈ w.tokens)
      (uncached : w.grace d.jti = none) (unstored : ∀ a ∈ tr, stores d.jti a = false)
      (sheltered : Sheltered d.jti tr)
  | cached {x y : Pid} {n : RefreshToken} {pair : TokenResponse} {expiry : ℕ} (rivals : d.Rivals x y)
      (heir : d.Heir n) (winner : gs x = .shared n pair)
      (loser : gs y = .asking ∨ gs y = .refused ∨ gs y = .answered (some pair))
      (revoked : d.record.revoke ∈ w.tokens) (successor : n ∈ w.tokens)
      (entry : w.grace d.jti = some (pair, expiry)) (late : w₀.clock + 30 * second ≤ expiry)
      (stored : ∃ a ∈ tr, stores d.jti a = true) (sheltered : Sheltered d.jti tr)
  | lost {x y : Pid} (rivals : d.Rivals x y)
      (winner : (∃ n, gs x = .won n) ∨ ∃ n pair, gs x = .shared n pair)
      (loser : gs y = .answered none) (exposed : ¬ Sheltered d.jti tr)

/-- What holds all along; `base` is what happened before. -/
structure Inv (d : Retry w₀) (base : List Label) (w : World) (past : List Label) (gs : Pid → Stage) :
    Prop where
  clock : w₀.clock ≤ w.clock
  user : w.users.find? (fun u => u.username = some d.sub) = some d.user
  jtis : w₀.jtis ⊆ w.jtis
  writes : ∀ x, d.Asks x → (gs x).Writes d.record (w.writesOf x)
  standing : ∃ tr, past = base ++ tr ∧ d.Standing w tr gs

/-- What a request answers. -/
def Outcome : Except Exc TokenResponse → Stage → Prop
  | .ok pair, g => (∃ n, g = .shared n pair) ∨ g = .answered (some pair)
  | .error _, g => g = .answered none

/-- What the steps are known to meet. -/
structure Cond (d : Retry w₀) (w : World) (past : List Label) (a : Label) (w' : World) : Prop where
  known : Known w past a w'
  moves : d.Moves w past a w'
  time : d.InTime w'.clock

def protocol (d : Retry w₀) (base : List Label) :
    Protocol sig Exc TokenResponse World Request Event Stage where
  cond := d.Cond
  inv := d.Inv base
  idle := .asking
  final := fun x r g => d.Asks x → Outcome r g

/-! ## The invariant from step to step -/

theorem sheltered_concat {jti : Jti} {a : Label} (ha : reads jti a = false) :
    Sheltered jti (tr ++ [a]) ↔ Sheltered jti tr := by
  unfold Sheltered
  rw [atEach_concat, and_iff_left_iff_imp]
  intro _ hr
  exact absurd (ha.symm.trans hr) (by simp)

section

variable {gs : Pid → Stage} {a : Label}

/-- How a request stands when the cache was asked too early. -/
theorem Rivals.lost (rivals : d.Rivals x y) {z : Pid}
    (winner : (∃ n, gs x = .won n) ∨ ∃ n pair, gs x = .shared n pair) (loser : gs y = .answered none)
    (hz : d.Asks z) :
    (∃ n, gs z = .won n) ∨ (∃ n pair, gs z = .shared n pair) ∨ gs z = .answered none := by
  rcases rivals.cases hz with rfl | rfl
  · exact winner.imp_right Or.inl
  · exact Or.inr (Or.inr loser)

/-- A step that neither changes a row or the entry, nor asks the cache. -/
theorem Standing.calm (h : d.Standing w tr gs) (htokens : w'.tokens = w.tokens)
    (hgrace : w'.grace = w.grace) (hr : reads d.jti a = false) (hs : stores d.jti a = false) :
    d.Standing w' (tr ++ [a]) gs := by
  have hsnoc : (∀ b ∈ tr, stores d.jti b = false) → ∀ b ∈ tr ++ [a], stores d.jti b = false := by
    intro h b hb
    rcases List.mem_append.mp hb with hb | hb
    · exact h b hb
    · rw [List.mem_singleton.mp hb]
      exact hs
  have hshelter : Sheltered d.jti (tr ++ [a]) ↔ Sheltered d.jti tr := sheltered_concat hr
  cases h with
  | unspent tokens uncached unstored sheltered stages =>
    exact .unspent (htokens.trans tokens) (hgrace ▸ uncached) (hsnoc unstored)
      (hshelter.mpr sheltered) stages
  | spent rivals heir winner loser revoked successor uncached unstored sheltered =>
    exact .spent rivals heir winner loser (htokens ▸ revoked) (htokens ▸ successor)
      (hgrace ▸ uncached) (hsnoc unstored) (hshelter.mpr sheltered)
  | cached rivals heir winner loser revoked successor entry late stored sheltered =>
    obtain ⟨b, hb, hst⟩ := stored
    exact .cached rivals heir winner loser (htokens ▸ revoked) (htokens ▸ successor) (hgrace ▸ entry)
      late ⟨b, List.mem_append_left _ hb, hst⟩ (hshelter.mpr sheltered)
  | lost rivals winner loser exposed =>
    exact .lost rivals winner loser fun h => exposed (hshelter.mp h)

/-- The requests go on whatever happens once the cache was asked too early. -/
theorem Standing.doomed (h : d.Standing w tr gs) (hx : d.Asks x) (hg : gs x = .answered none) :
    d.Standing w' (tr ++ [a]) gs := by
  cases h with
  | unspent tokens uncached unstored sheltered stages =>
    rcases stages x hx with hs | hs | ⟨n, -, hs⟩ <;> exact absurd (hg.symm.trans hs) (by simp)
  | spent rivals heir winner loser revoked successor uncached unstored sheltered =>
    rcases rivals.cases hx with rfl | rfl
    · exact absurd (hg.symm.trans winner) (by simp)
    · rcases loser with hs | hs <;> exact absurd (hg.symm.trans hs) (by simp)
  | cached rivals heir winner loser revoked successor entry late stored sheltered =>
    rcases rivals.cases hx with rfl | rfl
    · exact absurd (hg.symm.trans winner) (by simp)
    · rcases loser with hs | hs | hs <;> exact absurd (hg.symm.trans hs) (by simp)
  | lost rivals winner loser exposed =>
    exact .lost rivals winner loser fun h => exposed (atEach_concat.mp h).1

/-- The row of the token is as it was, or revoked, while a request asks for it. -/
theorem Standing.asking (h : d.Standing w tr gs) (hx : d.Asks x) (hg : gs x = .asking) :
    d.record ∈ w.tokens ∨ d.record.revoke ∈ w.tokens := by
  cases h with
  | unspent tokens => exact Or.inl (tokens ▸ d.mem)
  | spent _ _ _ _ revoked => exact Or.inr revoked
  | cached _ _ _ _ revoked => exact Or.inr revoked
  | lost rivals winner loser =>
    rcases rivals.lost winner loser hx with ⟨n, hs⟩ | ⟨n, pair, hs⟩ | hs <;>
      exact absurd (hg.symm.trans hs) (by simp)

/-- A request is refused when the row is no longer live. -/
theorem Standing.refuse (h : d.Standing w tr gs) (hx : d.Asks x) (hg : gs x = .asking)
    (hno : d.record ∉ w.tokens) : d.Standing w tr (Function.update gs x .refused) := by
  cases h with
  | unspent tokens => exact absurd (tokens ▸ d.mem) hno
  | spent rivals heir winner loser revoked successor uncached unstored sheltered =>
    rcases rivals.cases hx with rfl | rfl
    · exact absurd (hg.symm.trans winner) (by simp)
    · refine .spent rivals heir ?_ (Or.inr (by simp)) revoked successor uncached unstored sheltered
      rw [Function.update_of_ne rivals.ne]
      exact winner
  | cached rivals heir winner loser revoked successor entry late stored sheltered =>
    rcases rivals.cases hx with rfl | rfl
    · exact absurd (hg.symm.trans winner) (by simp)
    · refine .cached rivals heir ?_ (Or.inr (Or.inl (by simp))) revoked successor entry late stored
        sheltered
      rw [Function.update_of_ne rivals.ne]
      exact winner
  | lost rivals winner loser =>
    rcases rivals.lost winner loser hx with ⟨n, hs⟩ | ⟨n, pair, hs⟩ | hs <;>
      exact absurd (hg.symm.trans hs) (by simp)

/-- A request takes the row when no one revoked it. -/
theorem Standing.take (h : d.Standing w tr gs) (hx : d.Asks x) (hg : gs x = .asking)
    (hno : d.record.revoke ∉ w.tokens) : d.Standing w tr (Function.update gs x .holding) := by
  cases h with
  | unspent tokens uncached unstored sheltered stages =>
    refine .unspent tokens uncached unstored sheltered fun y hy => ?_
    by_cases hyx : y = x
    · subst hyx
      exact Or.inr (Or.inl (by simp))
    · rw [Function.update_of_ne hyx]
      exact stages y hy
  | spent _ _ _ _ revoked => exact absurd revoked hno
  | cached _ _ _ _ revoked => exact absurd revoked hno
  | lost rivals winner loser =>
    rcases rivals.lost winner loser hx with ⟨n, hs⟩ | ⟨n, pair, hs⟩ | hs <;>
      exact absurd (hg.symm.trans hs) (by simp)

/-- Nothing is committed while a request holds the row. -/
theorem Standing.holding (h : d.Standing w tr gs) (hx : d.Asks x)
    (hg : gs x = .holding ∨ ∃ n, gs x = .grown n) :
    w.tokens = w₀.tokens ∧ w.grace d.jti = none ∧ (∀ a ∈ tr, stores d.jti a = false) ∧
      Sheltered d.jti tr ∧
      ∀ x, d.Asks x → gs x = .asking ∨ gs x = .holding ∨ ∃ n, d.Heir n ∧ gs x = .grown n := by
  have hother : ∀ {g : Stage}, gs x = g → g ≠ .holding ∧ (∀ n, g ≠ .grown n) → False := by
    rintro g hs ⟨h₁, h₂⟩
    rcases hg with hg | ⟨n, hg⟩
    · exact h₁ (hs.symm.trans hg)
    · exact h₂ n (hs.symm.trans hg)
  cases h with
  | unspent tokens uncached unstored sheltered stages =>
    exact ⟨tokens, uncached, unstored, sheltered, stages⟩
  | spent rivals heir winner loser =>
    rcases rivals.cases hx with rfl | rfl
    · exact (hother winner (by simp)).elim
    · rcases loser with hs | hs <;> exact (hother hs (by simp)).elim
  | cached rivals heir winner loser =>
    rcases rivals.cases hx with rfl | rfl
    · exact (hother winner (by simp)).elim
    · rcases loser with hs | hs | hs <;> exact (hother hs (by simp)).elim
  | lost rivals winner loser =>
    rcases rivals.lost winner loser hx with ⟨n, hs⟩ | ⟨n, pair, hs⟩ | hs <;>
      exact (hother hs (by simp)).elim

/-- An operation of one of the requests. -/
theorem Inv.run (h : d.Inv base w past gs) {op : Op} {r : Except Exc op.Ret}
    (hop : op.run x w r w') {g : Stage} (hwr : g.Writes d.record (w'.writesOf x))
    (hst : ∀ tr, d.Standing w tr gs →
      d.Standing w' (tr ++ [.run x .done op r]) (Function.update gs x g)) :
    d.Inv base w' (past ++ [.run x .done op r]) (Function.update gs x g) := by
  have hframe := run_frame hop
  obtain ⟨tr, hpast, hstanding⟩ := h.standing
  refine ⟨hframe.clock ▸ h.clock, hframe.users ▸ h.user, List.Subset.trans h.jtis hframe.jtis, fun y hy => ?_,
    tr ++ [.run x .done op r], by rw [hpast, List.append_assoc], hst tr hstanding⟩
  by_cases hyx : y = x
  · subst hyx
    rw [Function.update_self]
    exact hwr
  · rw [Function.update_of_ne hyx, ((run_effect hop).other hyx).1]
    exact h.writes y hy

end

/-! ## Single operations -/

abbrev Meets (d : Retry w₀) (base : List Label) (s : Settings) (x : Pid) (y : App β)
    (post : Except Exc β → Stage → Prop) (g : Stage) : Prop :=
  (d.protocol base).Meets (auth s) x y post g

theorem meets_run {op : Op} {g : Stage} {post : Except Exc op.Ret → Stage → Prop}
    (h : ∀ w past gs r w', d.Inv base w past gs → gs x = g → op.run x w r w' → Lineage w past →
      d.InTime w.clock → ∃ g', post r g' ∧ g'.Writes d.record (w'.writesOf x) ∧
        ∀ tr, d.Standing w tr gs →
          d.Standing w' (tr ++ [.run x .done op r]) (Function.update gs x g')) :
    Meets d base s x (await op) post g := by
  refine Protocol.Meets.perform ?_
  rintro f w past gs r w' hI hg hx ⟨hknown, ⟨-, rfl⟩, htime⟩
  rw [(run_frame hx).clock] at htime
  obtain ⟨g', hpost, hwr, hst⟩ := h w past gs r w' hI hg hx hknown.lineage htime
  exact ⟨g', hI.run hx hwr hst, hpost⟩

/-- The operations that change neither a row, nor what a session wrote, nor the cache. -/
def Op.Calm : Op → Prop
  | .now | .newJti | .selectUser _ | .selectToken _ | .beginUpdate _ | .refreshRow _ => True
  | _ => False

theorem Op.Calm.frame {op : Op} (h : Op.Calm op) {r : Except Exc op.Ret} (hop : op.run x w r w') :
    w'.tokens = w.tokens ∧ w'.grace = w.grace ∧ w'.writesOf x = w.writesOf x := by
  cases op with
  | newJti =>
    obtain ⟨jti, -, -, rfl⟩ := hop
    exact ⟨rfl, rfl, rfl⟩
  | beginUpdate sel =>
    obtain ⟨ids, -, -, rfl⟩ := hop
    exact ⟨rfl, rfl, rfl⟩
  | now | selectUser _ | selectToken _ | refreshRow _ =>
    obtain ⟨-, rfl⟩ := hop
    exact ⟨rfl, rfl, rfl⟩
  | _ => exact h.elim

theorem Op.Calm.unread {op : Op} (h : Op.Calm op) {jti : Jti} {f : Fault} {r : Except Exc op.Ret} :
    reads jti (.run x f op r) = false ∧ stores jti (.run x f op r) = false := by
  cases op <;> first | exact h.elim | exact ⟨rfl, rfl⟩

theorem meets_calm (op : Op) (hop : Op.Calm op) {g : Stage} {post : Except Exc op.Ret → Stage → Prop}
    (h : ∀ w past gs r w', d.Inv base w past gs → gs x = g → op.run x w r w' → Lineage w past →
      d.InTime w.clock → post r g) (hx : d.Asks x) : Meets d base s x (await op) post g := by
  refine meets_run fun w past gs r w' hI hg hrun hL htime => ?_
  obtain ⟨htokens, hgrace, hwrites⟩ := hop.frame hrun
  refine ⟨g, h w past gs r w' hI hg hrun hL htime, ?_, fun tr hst => ?_⟩
  · rw [hwrites, ← hg]
    exact hI.writes x hx
  · rw [← hg, Function.update_eq_self]
    exact hst.calm htokens hgrace hop.unread.1 hop.unread.2

/-- Reading the clock. -/
theorem meets_now {g : Stage} (hx : d.Asks x) : Meets d base s x (await .now)
    (fun r g' => ∃ n, r = .ok n ∧ d.InTime n ∧ g' = g) g :=
  meets_calm .now trivial
    (fun w _ _ _ _ _ _ hrun _ htime => ⟨w.clock, hrun.1, htime, rfl⟩) hx

/-- A token whose lifetime starts now. -/
theorem meets_clock {g : Stage} {f : ℕ → β} (hx : d.Asks x) :
    Meets d base s x (await .now >>= fun n => pure (f n)) (fun r g' => (∃ b, r = .ok b) ∧ g' = g) g := by
  refine Protocol.Meets.bind (meets_now hx) ?_ ?_
  · rintro n g' ⟨_, -, -, rfl⟩
    exact ⟨⟨f n, rfl⟩, rfl⟩
  · rintro e g' ⟨n, he, -⟩
    exact absurd he (by simp)

end Retry

end Auth

end PaymentRecon
