import PaymentRecon.Auth.Refresh
import PaymentRecon.Lib.Script

/-!
# Play — executing the requests of the users

The player of the machine `auth`.  It generates identifiers in order and finds every password right.
-/

namespace PaymentRecon

open Interleave

namespace Auth

/-- One outcome of an operation that does not have to wait. -/
def Op.attempt (p : Pid) : (op : Op) → World → Option (Except Exc op.Ret × World)
  | .now, w => some (.ok w.clock, w)
  | .newJti, w =>
    let jti := String.ofList (List.replicate (w.jtis.length + 1) 'j')
    if jti ∈ w.jtis then none else some (.ok jti, { w with jtis := jti :: w.jtis })
  | .verifyPassword _ _, w => some (.ok true, w)
  | .selectUser username, w => some (.ok (w.users.find? fun u => u.username = some username), w)
  | .beginUpdate sel, w =>
    let ids := ((w.view p).filter fun t => sel.Matches t).map (·.id)
    some (.ok ids, w.setStmt p (some ⟨sel, ids⟩))
  | .updateRow sel id, w =>
    if w.LockedByOther p id then none
    else match (w.view p).find? fun t => t.id = id ∧ sel.Matches t with
      | some t => some (.ok (some t.revoke), ((w.lock p id).write p (.revoke id)).visited p id)
      | none => some (.ok none, w.visited p id)
  | .selectToken jti, w => some (.ok ((w.view p).find? fun t => t.tokenHash = jti), w)
  | .insertToken userId jti expiresAt familyId, w =>
    if w.HashBusy p jti then none
    else if w.Refuses p userId jti then some (.error IntegrityError, w.tickToken)
    else
      let f := familyId.getD w.nextToken.toNat
      if familyId = none ∧ ¬ w.FreshFamily f then none
      else some (.ok (w.newToken userId jti expiresAt f),
        w.tickToken.write p (.insert (w.newToken userId jti expiresAt f)))
  | .refreshRow _, w => some (.ok (), w)
  | .commit, w => some (.ok (), w.commit p)
  | .rollback, w => some (.ok (), w.rollback p)
  | .close, w => some (.ok (), w.rollback p)
  | .get key, w => some (.ok (w.cached key), w)
  | .set key value ex, w => some (.ok (),
    { w with grace := Function.update w.grace key (some (value, w.clock + ex * second)) })

theorem attempt_run {p : Pid} {op : Op} {w w' : World} {r : Except Exc op.Ret}
    (h : op.attempt p w = some (r, w')) : op.run p w r w' := by
  cases op with
  | newJti =>
    simp only [Op.attempt] at h
    split_ifs at h with hj
    obtain ⟨rfl, rfl⟩ := Prod.mk.inj (Option.some.inj h)
    exact ⟨_, hj, rfl, rfl⟩
  | verifyPassword plain hashed =>
    obtain ⟨rfl, rfl⟩ := Prod.mk.inj (Option.some.inj h)
    exact ⟨⟨true, rfl⟩, rfl⟩
  | beginUpdate sel =>
    obtain ⟨rfl, rfl⟩ := Prod.mk.inj (Option.some.inj h)
    exact ⟨_, .refl _, rfl, rfl⟩
  | updateRow sel id =>
    simp only [Op.attempt] at h
    split_ifs at h with hl
    refine ⟨hl, ?_⟩
    cases ht : (w.view p).find? fun t => t.id = id ∧ sel.Matches t with
    | none =>
      rw [ht] at h
      obtain ⟨rfl, rfl⟩ := Prod.mk.inj (Option.some.inj h)
      exact ⟨rfl, rfl⟩
    | some t =>
      rw [ht] at h
      obtain ⟨rfl, rfl⟩ := Prod.mk.inj (Option.some.inj h)
      exact ⟨rfl, rfl⟩
  | insertToken userId jti expiresAt familyId =>
    simp only [Op.attempt] at h
    split_ifs at h with hb hr hf
    · obtain ⟨rfl, rfl⟩ := Prod.mk.inj (Option.some.inj h)
      exact ⟨hb, (if_pos hr).mpr ⟨rfl, rfl⟩⟩
    · obtain ⟨rfl, rfl⟩ := Prod.mk.inj (Option.some.inj h)
      refine ⟨hb, (if_neg hr).mpr ⟨_, ?_, rfl, rfl⟩⟩
      cases familyId with
      | some f => exact Or.inl rfl
      | none => exact Or.inr ⟨rfl, not_not.mp fun hn => hf ⟨rfl, hn⟩⟩
  | _ =>
    obtain ⟨rfl, rfl⟩ := Prod.mk.inj (Option.some.inj h)
    exact ⟨rfl, rfl⟩

def player (s : Settings) : Player (auth s) := ⟨Op.attempt, fun _ _ _ _ _ => attempt_run⟩

end Auth

end PaymentRecon
