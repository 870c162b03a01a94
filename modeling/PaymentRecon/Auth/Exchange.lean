import PaymentRecon.Auth.Expiry
import PaymentRecon.Auth.Rivals

/-!
# Exchange — a request beside its rival

What one of the two requests does, operation by operation: it takes the row of the token and rotates it,
or it finds the row revoked and asks the cache.
-/

namespace PaymentRecon

open Interleave

namespace Auth

variable {s : Settings} {w w' w₀ : World} {x y : Pid} {past base tr : List Label} {β : Type}

namespace Retry

variable {d : Retry w₀}

/-! ## The UPDATE of the token -/

/-- The session sees the committed rows until it writes. -/
theorem view_of_writes (h : w.writesOf x = []) : w.view x = w.tokens := by
  rw [World.view, h]
  rfl

/-- A row with the hash of the token is the row of the token. -/
theorem row_of_hash (hL : Lineage w past) {t : RefreshToken}
    (hrow : d.record ∈ w.tokens ∨ d.record.revoke ∈ w.tokens) (ht : t ∈ w.tokens)
    (hhash : t.tokenHash = d.jti) :
    t = d.record ∧ d.record ∈ w.tokens ∨ t = d.record.revoke ∧ d.record ∉ w.tokens := by
  have huniq : ∀ r ∈ w.tokens, r.tokenHash = d.jti → t = r := fun r hr hh =>
    hL.hash_eq (List.mem_append_left _ ht) (List.mem_append_left _ hr) (hhash.trans hh.symm)
  by_cases hmem : d.record ∈ w.tokens
  · exact Or.inl ⟨huniq _ hmem d.hash, hmem⟩
  · exact Or.inr ⟨huniq _ (hrow.resolve_left hmem) d.hash, hmem⟩

/-- The UPDATE finds the row of the token, or nothing. -/
theorem live_matches (hL : Lineage w past) {n : ℕ} (hn : d.InTime n)
    (hrow : d.record ∈ w.tokens ∨ d.record.revoke ∈ w.tokens) {t : RefreshToken} (ht : t ∈ w.tokens) :
    (Where.live d.jti n).Matches t ↔ t = d.record ∧ d.record ∈ w.tokens := by
  constructor
  · rintro ⟨hhash, -, hlive⟩
    rcases row_of_hash hL hrow ht hhash with h | ⟨rfl, -⟩
    · exact h
    · exact absurd hlive (by simp [RefreshToken.revoke])
  · rintro ⟨rfl, -⟩
    exact ⟨d.hash, hn.unexpired, d.live⟩

theorem meets_beginUpdate {n : ℕ} (hn : d.InTime n) (hx : d.Asks x) :
    Meets d base s x (await (.beginUpdate (.live d.jti n)))
      (fun r g => r = .ok [d.record.id] ∧ g = .asking ∨ r = .ok [] ∧ g = .refused) .asking := by
  refine meets_run fun w past gs r w' hI hg hrun hL _ => ?_
  obtain ⟨tr, -, hst₀⟩ := hI.standing
  have hrow := hst₀.asking hx hg
  have hwr : w.writesOf x = [] := by
    have := hI.writes x hx
    rwa [hg] at this
  obtain ⟨ids, hids, rfl, rfl⟩ := hrun
  rw [view_of_writes hwr] at hids
  have hcalm : ∀ tr, d.Standing w tr gs → d.Standing (w.setStmt x (some ⟨.live d.jti n, ids⟩))
      (tr ++ [.run x .done (.beginUpdate (.live d.jti n)) (.ok ids)]) gs :=
    fun tr hst => hst.calm rfl rfl rfl rfl
  by_cases hmem : d.record ∈ w.tokens
  · have hfilter : (w.tokens.filter fun t => (Where.live d.jti n).Matches t) =
        w.tokens.filter fun t => t = d.record := by
      refine List.filter_congr fun t ht => ?_
      simp [live_matches hL hn hrow ht, hmem]
    have hcount : w.tokens.count d.record = 1 := by
      refine List.count_eq_one_of_mem ?_ hmem
      have hnodup := hL.ids
      rw [World.rows, List.map_append] at hnodup
      exact (List.nodup_append.mp hnodup).1.of_map
    rw [hfilter, List.filter_eq, hcount] at hids
    obtain rfl : ids = [d.record.id] := List.perm_singleton.mp hids
    refine ⟨.asking, Or.inl ⟨rfl, rfl⟩, hwr, fun tr hst => ?_⟩
    rw [← hg, Function.update_eq_self]
    exact hcalm tr hst
  · have hfilter : (w.tokens.filter fun t => (Where.live d.jti n).Matches t) = [] := by
      refine List.filter_eq_nil_iff.mpr fun t ht => ?_
      simp [live_matches hL hn hrow ht, hmem]
    rw [hfilter] at hids
    obtain rfl : ids = [] := hids.eq_nil
    exact ⟨.refused, Or.inr ⟨rfl, rfl⟩, hwr, fun tr hst => (hcalm tr hst).refuse hx hg hmem⟩

theorem meets_updateRow {n : ℕ} (hn : d.InTime n) (hx : d.Asks x) :
    Meets d base s x (await (.updateRow (.live d.jti n) d.record.id))
      (fun r g => r = .ok (some d.record.revoke) ∧ g = .holding ∨ r = .ok none ∧ g = .refused)
      .asking := by
  refine meets_run fun w past gs r w' hI hg hrun hL _ => ?_
  obtain ⟨tr, -, hst₀⟩ := hI.standing
  have hrow := hst₀.asking hx hg
  have hwr : w.writesOf x = [] := by
    have := hI.writes x hx
    rwa [hg] at this
  obtain ⟨-, hrun⟩ := hrun
  rw [view_of_writes hwr] at hrun
  cases hfind : w.tokens.find? fun t => t.id = d.record.id ∧ (Where.live d.jti n).Matches t with
  | some t =>
    rw [hfind] at hrun
    obtain ⟨rfl, rfl⟩ := hrun
    have hmatch := List.find?_some hfind
    obtain ⟨rfl, hmem⟩ := (live_matches hL hn hrow (List.mem_of_find?_eq_some hfind)).mp
      (of_decide_eq_true hmatch).2
    refine ⟨.holding, Or.inl ⟨rfl, rfl⟩, by simp [Stage.Writes, hwr], fun tr hst => ?_⟩
    refine Standing.take (hst.calm ?_ ?_ rfl rfl) hx hg fun hrev => ?_
    · rfl
    · rfl
    · have heq := hL.hash_eq (List.mem_append_left _ hmem) (List.mem_append_left _ hrev) rfl
      exact absurd (heq ▸ d.live) (by simp [RefreshToken.revoke])
  | none =>
    rw [hfind] at hrun
    obtain ⟨rfl, rfl⟩ := hrun
    have hmem : d.record ∉ w.tokens := by
      intro hmem
      have hno := List.find?_eq_none.mp hfind _ hmem
      exact hno (decide_eq_true ⟨rfl, (live_matches hL hn hrow hmem).mpr ⟨rfl, hmem⟩⟩)
    refine ⟨.refused, Or.inr ⟨rfl, rfl⟩, by simpa [Stage.Writes] using hwr, fun tr hst => ?_⟩
    refine Standing.refuse (hst.calm ?_ ?_ rfl rfl) hx hg hmem
    · rfl
    · rfl

/-- The row of the token with the new flag, or nothing. -/
theorem meets_validate (hx : d.Asks x) :
    Meets d base s x (validateAndRevokeRefreshTokenService d.jti)
      (fun r g => r = .ok (some d.record.revoke) ∧ g = .holding ∨ r = .ok none ∧ g = .refused)
      .asking := by
  unfold validateAndRevokeRefreshTokenService
  refine Protocol.Meets.bind (meets_now hx) ?_ fun e g h => ?_
  · rintro n g ⟨n', hn', hn, rfl⟩
    obtain rfl := Except.ok.inj hn'
    refine Protocol.Meets.bind (m := fun r g => r = .ok [d.record.revoke] ∧ g = .holding ∨
      r = .ok [] ∧ g = .refused) ?_ ?_ fun e g h => ?_
    · unfold update
      refine Protocol.Meets.bind (meets_beginUpdate hn hx) ?_ fun e g h => ?_
      · rintro ids g (⟨hids, rfl⟩ | ⟨hids, rfl⟩)
        · obtain rfl := Except.ok.inj hids
          refine Protocol.Meets.bind (meets_updateRow hn hx) ?_ fun e g h => ?_
          · rintro row g (⟨hrow, rfl⟩ | ⟨hrow, rfl⟩)
            · obtain rfl := Except.ok.inj hrow
              exact Or.inl ⟨rfl, rfl⟩
            · obtain rfl := Except.ok.inj hrow
              exact Or.inr ⟨rfl, rfl⟩
          · rcases h with ⟨h, -⟩ | ⟨h, -⟩ <;> exact absurd h (by simp)
        · obtain rfl := Except.ok.inj hids
          exact Or.inr ⟨rfl, rfl⟩
      · rcases h with ⟨h, -⟩ | ⟨h, -⟩ <;> exact absurd h (by simp)
    · rintro rows g (⟨hrows, rfl⟩ | ⟨hrows, rfl⟩)
      · obtain rfl := Except.ok.inj hrows
        exact Or.inl ⟨rfl, rfl⟩
      · obtain rfl := Except.ok.inj hrows
        exact Or.inr ⟨rfl, rfl⟩
    · rcases h with ⟨h, -⟩ | ⟨h, -⟩ <;> exact absurd h (by simp)
  · obtain ⟨n, he, -⟩ := h
    exact absurd he (by simp)

/-! ## The rotation -/

theorem meets_newJti (hx : d.Asks x) {g : Stage} : Meets d base s x (await .newJti)
    (fun r g' => ∃ jti, r = .ok jti ∧ jti ∉ w₀.jtis ∧ g' = g) g := by
  refine meets_calm .newJti trivial (fun w past gs r w' hI _ hrun _ _ => ?_) hx
  obtain ⟨jti, hnew, rfl, -⟩ := hrun
  exact ⟨jti, rfl, fun hold => hnew (hI.jtis hold), rfl⟩

theorem meets_selectUser (hx : d.Asks x) {g : Stage} :
    Meets d base s x (await (.selectUser d.sub)) (fun r g' => r = .ok (some d.user) ∧ g' = g) g := by
  refine meets_calm (.selectUser d.sub) trivial (fun w past gs r w' hI _ hrun _ _ => ?_) hx
  exact ⟨by rw [hrun.1, hI.user], rfl⟩

/-- The hash is fresh and the user is there: the constraints let the successor through. -/
theorem meets_insert {jti : Jti} {expiresAt : ℕ} (hnew : ∀ t ∈ w₀.tokens, t.tokenHash ≠ jti)
    (hx : d.Asks x) : Meets d base s x
      (await (.insertToken d.user.id jti expiresAt (some d.record.familyId)))
      (fun r g => ∃ n, r = .ok n ∧ g = .grown n) .holding := by
  refine meets_run fun w past gs r w' hI hg hrun _ _ => ?_
  obtain ⟨tr, -, hst₀⟩ := hI.standing
  have htokens := (hst₀.holding hx (Or.inl hg)).1
  have hwr : w.writesOf x = [.revoke d.record.id] := by
    have := hI.writes x hx
    rwa [hg] at this
  obtain ⟨-, hrun⟩ := hrun
  have hok : ¬ w.Refuses x d.user.id jti := by
    rintro (⟨t, ht, hhash⟩ | hno)
    · have hwrote : w.Wrote x [d.record.id] none := by simpa [World.Wrote] using hwr
      rw [World.view_of_revokes hwrote] at ht
      obtain ⟨t₀, ht₀, rfl⟩ := List.mem_map.mp ht
      exact hnew t₀ (htokens ▸ ht₀) (by simpa using hhash)
    · exact hno _ (List.mem_of_find?_eq_some hI.user) rfl
  rw [if_neg hok] at hrun
  obtain ⟨f, hf, rfl, rfl⟩ := hrun
  obtain rfl := Option.some.inj (hf.resolve_right (by simp))
  refine ⟨.grown _, ⟨_, rfl, rfl⟩, by simp [Stage.Writes, hwr], fun tr hst => ?_⟩
  obtain ⟨htokens, hgrace, hunstored, hsheltered, hstages⟩ := hst.holding hx (Or.inl hg)
  have hcalm : d.Standing (w.tickToken.write x (.insert (w.newToken d.user.id jti expiresAt
      d.record.familyId))) (tr ++ [.run x .done (.insertToken d.user.id jti expiresAt
        (some d.record.familyId)) (.ok (w.newToken d.user.id jti expiresAt d.record.familyId))]) gs := by
    refine hst.calm ?_ ?_ rfl rfl
    · rfl
    · rfl
  obtain ⟨-, -, hunstored, hsheltered, -⟩ := hcalm.holding hx (Or.inl hg)
  refine .unspent htokens hgrace hunstored hsheltered fun y hy => ?_
  by_cases hyx : y = x
  · subst hyx
    exact Or.inr (Or.inr ⟨w.newToken d.user.id jti expiresAt d.record.familyId, ⟨rfl, rfl⟩, by simp⟩)
  · rw [Function.update_of_ne hyx]
    exact hstages y hy

/-- The rotation is committed; the other request holds nothing. -/
theorem meets_commit {n : RefreshToken} (hx : d.Asks x) :
    Meets d base s x (await .commit) (fun r g => r = .ok () ∧ g = .won n) (.grown n) := by
  refine meets_run fun w past gs r w' hI hg hrun hL _ => ?_
  obtain ⟨rfl, rfl⟩ := hrun
  have hwr : w.writesOf x = [.revoke d.record.id, .insert n] := by
    have := hI.writes x hx
    rwa [hg] at this
  refine ⟨.won n, ⟨rfl, rfl⟩, by simp [Stage.Writes], fun tr hst => ?_⟩
  obtain ⟨htokens, hgrace, hunstored, hsheltered, hstages⟩ := hst.holding hx (Or.inr ⟨n, hg⟩)
  obtain ⟨y, hrivals⟩ := hx.rival
  have hheir : d.Heir n := by
    rcases hstages x hx with hs | hs | ⟨n', hn', hs⟩
    · exact absurd (hg.symm.trans hs) (by simp)
    · exact absurd (hg.symm.trans hs) (by simp)
    · obtain rfl := Stage.grown.inj (hg.symm.trans hs)
      exact hn'
  have hloser : gs y = .asking := by
    -- two sessions do not hold one row
    have hfree : Write.revoke d.record.id ∉ w.writesOf y := fun hy =>
      hrivals.ne (hL.revoke_unique (by rw [hwr]; simp) hy)
    have hown := hI.writes y hrivals.asks.2
    rcases hstages y hrivals.asks.2 with hs | hs | ⟨n', -, hs⟩
    · exact hs
    · rw [hs] at hown
      exact absurd (by rw [show w.writesOf y = _ from hown]; simp) hfree
    · rw [hs] at hown
      exact absurd (by rw [show w.writesOf y = _ from hown]; simp) hfree
  have hwrote : w.Wrote x [d.record.id] (some n) := by simpa [World.Wrote] using hwr
  refine .spent hrivals hheir (by simp) (Or.inl ?_) ?_ ?_ hgrace ?_ ((sheltered_concat rfl).mpr hsheltered)
  · rw [Function.update_of_ne hrivals.ne.symm]
    exact hloser
  · refine (Lineage.mem_commit hwrote).mpr (Or.inl ⟨d.record, htokens ▸ d.mem, ?_⟩)
    simp [World.revokeIn]
  · exact (Lineage.mem_commit hwrote).mpr (Or.inr rfl)
  · intro a ha
    rcases List.mem_append.mp ha with ha | ha
    · exact hunstored a ha
    · rw [List.mem_singleton.mp ha]
      rfl

/-- The pair goes into the cache, for at least as long as the requests take. -/
theorem meets_set {n : RefreshToken} {pair : TokenResponse} (hx : d.Asks x) :
    Meets d base s x (addTokenToGracePeriod d.jti pair)
      (fun r g => r = .ok () ∧ g = .shared n pair) (.won n) := by
  refine meets_run fun w past gs r w' hI hg hrun _ _ => ?_
  obtain ⟨rfl, rfl⟩ := hrun
  refine ⟨.shared n pair, ⟨rfl, rfl⟩, ?_, fun tr hst => ?_⟩
  · have := hI.writes x hx
    rwa [hg] at this
  · cases hst with
    | unspent tokens uncached unstored sheltered stages =>
      rcases stages x hx with hs | hs | ⟨n', -, hs⟩ <;> exact absurd (hg.symm.trans hs) (by simp)
    | @spent x' y n' rivals heir winner loser revoked successor uncached unstored sheltered =>
      rcases rivals.cases hx with rfl | rfl
      · obtain rfl := Stage.won.inj (hg.symm.trans winner)
        refine .cached rivals heir (Function.update_self _ _ _) ?_ revoked successor
          (Function.update_self _ _ _) (Nat.add_le_add_right hI.clock _)
          ⟨_, List.mem_append_right _ (List.mem_singleton_self _), ?_⟩
          ((sheltered_concat rfl).mpr sheltered)
        · rw [Function.update_of_ne rivals.ne.symm]
          exact loser.imp_right Or.inl
        · simp [stores]
      · rcases loser with hs | hs <;> exact absurd (hg.symm.trans hs) (by simp)
    | cached rivals heir winner loser =>
      rcases rivals.cases hx with rfl | rfl
      · exact absurd (hg.symm.trans winner) (by simp)
      · rcases loser with hs | hs | hs <;> exact absurd (hg.symm.trans hs) (by simp)
    | @lost x' y rivals winner loser exposed =>
      rcases rivals.cases hx with rfl | rfl
      · refine .lost rivals (Or.inr ⟨n, pair, by simp⟩) ?_ fun h => exposed (atEach_concat.mp h).1
        rw [Function.update_of_ne rivals.ne.symm]
        exact loser
      · exact absurd (hg.symm.trans loser) (by simp)

theorem meets_refreshRow {g : Stage} {id : Id} (hx : d.Asks x) :
    Meets d base s x (await (.refreshRow id)) (fun r g' => r = .ok () ∧ g' = g) g :=
  meets_calm (.refreshRow id) trivial (fun _ _ _ _ _ _ _ hrun _ _ => ⟨hrun.1, rfl⟩) hx

theorem meets_rotateToken (hfresh : ∀ t ∈ w₀.tokens, t.tokenHash ∈ w₀.jtis) (hx : d.Asks x) :
    Meets d base s x (rotateToken s d.jti d.sub (some d.record.revoke)) Outcome .holding := by
  unfold rotateToken
  refine Protocol.Meets.bind (meets_selectUser hx) ?_ fun e g h => absurd h.1 (by simp)
  rintro user g ⟨huser, rfl⟩
  obtain rfl := Except.ok.inj huser
  simp only [getattr, Prog.ofExcept_ok, Prog.ret_bind]
  rw [if_neg (not_not.mpr (show d.user.id = d.record.revoke.userId from d.owner))]
  refine Protocol.Meets.bind (meets_newJti hx) ?_ fun e g h => ?_
  · rintro jti g ⟨jti', hj, hnew, rfl⟩
    obtain rfl := Except.ok.inj hj
    refine Protocol.Meets.bind (meets_now hx) ?_ fun e g h => ?_
    · rintro now g ⟨n, -, -, rfl⟩
      refine Protocol.Meets.bind (meets_clock hx) ?_ fun e g h => ?_
      · rintro newRefreshToken g ⟨-, rfl⟩
        refine Protocol.Meets.bind (m := fun r g => ∃ n, r = .ok (some n) ∧ g = .grown n) ?_ ?_
          fun e g h => ?_
        · refine Protocol.Meets.tryCatch (m := fun r g => ∃ n, r = .ok (some n) ∧ g = .grown n) ?_
            (fun _ _ h => h) fun e g h => ?_
          · refine Protocol.Meets.bind
              (meets_insert (fun t ht hh => hnew (hh ▸ hfresh t ht)) hx) ?_ fun e g h => ?_
            · rintro n g ⟨n', hn, rfl⟩
              obtain rfl := Except.ok.inj hn
              exact ⟨n, rfl, rfl⟩
            · obtain ⟨n, he, -⟩ := h
              exact absurd he (by simp)
          · obtain ⟨n, he, -⟩ := h
            exact absurd he (by simp)
        · rintro row g ⟨n, hrow, rfl⟩
          obtain rfl := Except.ok.inj hrow
          refine Protocol.Meets.bind (meets_clock hx) ?_ fun e g h => ?_
          · rintro newAccessToken g ⟨-, rfl⟩
            refine Protocol.Meets.bind (meets_commit hx) ?_ fun e g h => absurd h.1 (by simp)
            rintro _ g ⟨-, rfl⟩
            refine Protocol.Meets.bind (meets_refreshRow hx) ?_ fun e g h => absurd h.1 (by simp)
            rintro _ g ⟨-, rfl⟩
            refine Protocol.Meets.bind (meets_set hx) ?_ fun e g h => absurd h.1 (by simp)
            rintro _ g ⟨-, rfl⟩
            exact Or.inl ⟨n, rfl⟩
          · obtain ⟨⟨n, he⟩, -⟩ := h
            exact absurd he (by simp)
        · obtain ⟨n, he, -⟩ := h
          exact absurd he (by simp)
      · obtain ⟨⟨n, he⟩, -⟩ := h
        exact absurd he (by simp)
    · obtain ⟨n, he, -⟩ := h
      exact absurd he (by simp)
  · obtain ⟨n, he, -⟩ := h
    exact absurd he (by simp)

/-! ## The refusal -/

/-- The row of the token is revoked when a request was refused. -/
theorem Standing.refused (h : d.Standing w tr gs) (hx : d.Asks x) (hg : gs x = .refused) :
    d.record.revoke ∈ w.tokens := by
  cases h with
  | unspent tokens uncached unstored sheltered stages =>
    rcases stages x hx with hs | hs | ⟨n', -, hs⟩ <;> exact absurd (hg.symm.trans hs) (by simp)
  | spent _ _ _ _ revoked => exact revoked
  | cached _ _ _ _ revoked => exact revoked
  | lost rivals winner loser =>
    rcases rivals.lost winner loser hx with ⟨n, hs⟩ | ⟨n, pair, hs⟩ | hs <;>
      exact absurd (hg.symm.trans hs) (by simp)

theorem meets_selectToken (hx : d.Asks x) : Meets d base s x (getRefreshToken d.jti)
    (fun r g => r = .ok (some d.record.revoke) ∧ g = .refused) .refused := by
  refine meets_calm (.selectToken d.jti) trivial (fun w past gs r w' hI hg hrun hL _ => ?_) hx
  obtain ⟨tr, -, hst⟩ := hI.standing
  have hmem := hst.refused hx hg
  have hwr : w.writesOf x = [] := by
    have := hI.writes x hx
    rwa [hg] at this
  have hnodup : (w.tokens.map (·.tokenHash)).Nodup := by
    have := hL.hashes
    rw [World.rows, List.map_append] at this
    exact (List.nodup_append.mp this).1
  rw [← view_of_writes hwr] at hmem hnodup
  exact ⟨by rw [hrun.1, find_hash hnodup hmem d.hash], rfl⟩

/-- The cache answers the pair when it was given to it. -/
theorem meets_get (hx : d.Asks x) : Meets d base s x (tokenInGracePeriod d.jti)
    (fun r g => ∃ pair, r = .ok pair ∧ g = .answered pair) .refused := by
  refine meets_run fun w past gs r w' hI hg hrun _ htime => ?_
  obtain ⟨rfl, hsame⟩ := hrun
  obtain rfl : w = w' := hsame.symm
  have hwr : w.writesOf x = [] := by
    have := hI.writes x hx
    rwa [hg] at this
  refine ⟨.answered (w.cached d.jti), ⟨_, rfl, rfl⟩, ?_, fun tr hst => ?_⟩
  · cases w.cached d.jti with
    | none => trivial
    | some pair => exact hwr
  · cases hst with
    | unspent tokens uncached unstored sheltered stages =>
      rcases stages x hx with hs | hs | ⟨n', -, hs⟩ <;> exact absurd (hg.symm.trans hs) (by simp)
    | @spent _ _ n rivals heir winner loser revoked successor uncached unstored sheltered =>
      rcases rivals.cases hx with rfl | rfl
      · exact absurd (hg.symm.trans winner) (by simp)
      · -- the successor is committed, and the pair is not in the cache yet
        have hnone : w.cached d.jti = none := by simp [World.cached, uncached]
        refine .lost rivals (Or.inl ⟨n, ?_⟩) ?_ fun h => ?_
        · rw [Function.update_of_ne rivals.ne]
          exact winner
        · rw [Function.update_self, hnone]
        · obtain ⟨b, hb, hs⟩ := (atEach_concat.mp h).2 (by simp [reads])
          exact absurd ((unstored b hb).symm.trans hs) (by simp)
    | @cached _ _ n pair expiry rivals heir winner loser revoked successor entry late stored sheltered =>
      rcases rivals.cases hx with rfl | rfl
      · exact absurd (hg.symm.trans winner) (by simp)
      · have hsome : w.cached d.jti = some pair := by
          simp only [World.cached, entry]
          exact if_pos (htime.soon.trans_le late)
        obtain ⟨b, hb, hs⟩ := stored
        refine .cached rivals heir ?_ (Or.inr (Or.inr ?_)) revoked successor entry late
          ⟨b, List.mem_append_left _ hb, hs⟩ (atEach_concat.mpr ⟨sheltered, fun _ => ⟨b, hb, hs⟩⟩)
        · rw [Function.update_of_ne rivals.ne]
          exact winner
        · rw [Function.update_self, hsome]
    | lost rivals winner loser =>
      rcases rivals.lost winner loser hx with ⟨n, hs⟩ | ⟨n, pair, hs⟩ | hs <;>
        exact absurd (hg.symm.trans hs) (by simp)

/-- Whatever a request does that asked the cache too early. -/
theorem meets_doomed (hx : d.Asks x) (y : App β) :
    Meets d base s x y (fun _ g => g = .answered none) (.answered none) := by
  induction y with
  | ret b => rfl
  | raise e => rfl
  | call op k ih =>
    rintro f w past gs r w' hI hg hrun ⟨-, ⟨-, rfl⟩, -⟩
    refine ⟨.answered none, hI.run hrun trivial fun tr hst => ?_, ih r⟩
    rw [← hg, Function.update_eq_self]
    exact hst.doomed hx hg

/-- The family is revoked, and the request is refused. -/
theorem meets_revoke {sel : Where} {e : Exc} {post : Except Exc β → Stage → Prop} (hx : d.Asks x)
    (hpost : ∀ e, post (.error e) (.answered none)) : Meets d base s x (do
      (do let _ ← update sel : App Unit)
      await .commit
      throw e) post (.answered none) := by
  refine Protocol.Meets.bind (meets_doomed hx _) ?_ ?_
  · rintro _ g rfl
    refine Protocol.Meets.bind (meets_doomed hx _) ?_ ?_
    · rintro _ g rfl
      exact hpost e
    · rintro e g rfl
      exact hpost e
  · rintro e g rfl
    exact hpost e

theorem meets_refuseToken (hx : d.Asks x) : Meets d base s x (refuseToken d.jti)
    (fun r g => match r with
      | .ok (some pair) => g = .answered (some pair)
      | .ok none => False
      | .error _ => g = .answered none) .refused := by
  unfold refuseToken
  refine Protocol.Meets.bind (meets_selectToken hx) ?_ fun e g h => absurd h.1 (by simp)
  rintro record g ⟨hrecord, rfl⟩
  obtain rfl := Except.ok.inj hrecord
  simp only [RefreshToken.revoke, if_true]
  refine Protocol.Meets.bind (meets_get hx) ?_ fun e g h => ?_
  · rintro pair g ⟨pair', hpair, rfl⟩
    obtain rfl := Except.ok.inj hpair
    cases pair with
    | none => exact meets_revoke hx fun _ => rfl
    | some pair => rfl
  · obtain ⟨pair, he, -⟩ := h
    exact absurd he (by simp)

/-! ## The endpoint -/

theorem meets_refreshJti (hfresh : ∀ t ∈ w₀.tokens, t.tokenHash ∈ w₀.jtis) (hx : d.Asks x) :
    Meets d base s x (refreshJti s d.jti d.sub) Outcome .asking := by
  unfold refreshJti
  refine Protocol.Meets.bind (meets_validate hx) ?_ fun e g h => ?_
  · rintro record g (⟨hrecord, rfl⟩ | ⟨hrecord, rfl⟩)
    · obtain rfl := Except.ok.inj hrecord
      exact meets_rotateToken hfresh hx
    · obtain rfl := Except.ok.inj hrecord
      refine Protocol.Meets.bind (meets_refuseToken hx) ?_ fun _ _ h => h
      intro pair g h
      cases pair with
      | none => exact h.elim
      | some pair => exact Or.inr h
  · rcases h with ⟨h, -⟩ | ⟨h, -⟩ <;> exact absurd h (by simp)

/-- The token has not expired when it is decoded. -/
theorem meets_decodeRequest {g : Stage} (hx : d.Asks x) :
    Meets d base s x (decodeRequest (some (.signed d.payload)))
      (fun r g' => r = .ok d.payload ∧ g' = g) g := by
  refine Protocol.Meets.tryCatch (m := fun r g' => r = .ok d.payload ∧ g' = g) ?_ (fun _ _ h => h)
    fun e g' h => absurd h.1 (by simp)
  refine Protocol.Meets.bind (meets_now hx) ?_ fun e g h => ?_
  · rintro n g ⟨n', hn', hn, rfl⟩
    obtain rfl := Except.ok.inj hn'
    rw [show (Jwt.signed d.payload).decode n = .ok d.payload from if_neg hn.payload]
    exact ⟨rfl, rfl⟩
  · obtain ⟨n, he, -⟩ := h
    exact absurd he (by simp)

theorem meets_close {pair : TokenResponse} {g : Stage} (hg : Outcome (.ok pair) g) :
    Meets d base s x (await .close) (fun r g' => r = .ok () ∧ g' = g) g := by
  refine meets_run fun w past gs r w' hI hgx hrun _ _ => ?_
  obtain ⟨rfl, rfl⟩ := hrun
  refine ⟨g, ⟨rfl, rfl⟩, ?_, fun tr hst => ?_⟩
  · have hnil : (w.rollback x).writesOf x = [] := by simp
    rcases hg with ⟨n, rfl⟩ | rfl <;> exact hnil
  · rw [← hgx, Function.update_eq_self]
    refine hst.calm ?_ ?_ rfl rfl
    · rfl
    · rfl

theorem meets_refreshToken (hfresh : ∀ t ∈ w₀.tokens, t.tokenHash ∈ w₀.jtis) (hx : d.Asks x) :
    Meets d base s x (refreshToken s (some (.signed d.payload))) Outcome .asking := by
  unfold refreshToken withDb
  refine Protocol.Meets.bind (m := Outcome) ?_ ?_ fun _ _ h => h
  · refine Protocol.Meets.tryCatch (m := Outcome) ?_ (fun _ _ h => h) ?_
    · refine Protocol.Meets.bind (meets_decodeRequest hx) ?_ fun e g h => absurd h.1 (by simp)
      rintro payload g ⟨hpayload, rfl⟩
      obtain rfl := Except.ok.inj hpayload
      rw [if_neg (not_not.mpr d.type), d.presents, d.subject]
      exact meets_refreshJti hfresh hx
    · rintro e g rfl
      refine Protocol.Meets.bind (meets_doomed hx _) ?_ fun _ _ h => h
      rintro _ g rfl
      refine Protocol.Meets.bind (meets_doomed hx _) ?_ fun _ _ h => h
      rintro _ g rfl
      rfl
  · intro pair g hg
    refine Protocol.Meets.bind (meets_close hg) ?_ fun e g h => absurd h.1 (by simp)
    rintro _ g' ⟨-, rfl⟩
    exact hg

end Retry

end Auth

end PaymentRecon
