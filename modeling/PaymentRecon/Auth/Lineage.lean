import PaymentRecon.Auth.Sessions

/-!
# Lineage — where the rows of `refresh_tokens` come from

`Lineage` is the invariant of the table, of the sessions and of the requests.  A session that inserted a
row either started a new family or holds the lock of the one live row of its family, which it revoked:
so the commit leaves at most one live row in every family.  A row that was committed has a revoked
parent, the row that its request presented; two requests never share a parent.
-/

namespace PaymentRecon

open Interleave

namespace Auth

variable {w w' : World} {p q : Pid} {past past' : List Label} {t t' : RefreshToken} {ids : List Id}
  {new : Option RefreshToken}

/-! ## History -/

/-- The request of the thread `p` presents a token with this `jti`. -/
def Bears (past : List Label) (p : Pid) (jti : Jti) : Prop :=
  ∃ x, .spawn p x ∈ past ∧ x.jti = some jti

/-- The request of the thread `p` presents no token. -/
def Bare (past : List Label) (p : Pid) : Prop := ∃ x, .spawn p x ∈ past ∧ x.jti = none

/-- The thread `p` inserted the row. -/
def Inserted (past : List Label) (p : Pid) (t : RefreshToken) : Prop :=
  ∃ f userId jti expiresAt familyId,
    .run p f (.insertToken userId jti expiresAt familyId) (.ok t) ∈ past

theorem Bears.append {jti : Jti} {a : Label} (h : Bears past p jti) : Bears (past ++ [a]) p jti := by
  obtain ⟨x, hx, hj⟩ := h
  exact ⟨x, List.mem_append_left _ hx, hj⟩

theorem Bare.append {a : Label} (h : Bare past p) : Bare (past ++ [a]) p := by
  obtain ⟨x, hx, hj⟩ := h
  exact ⟨x, List.mem_append_left _ hx, hj⟩

theorem Inserted.append {a : Label} (h : Inserted past p t) : Inserted (past ++ [a]) p t := by
  obtain ⟨f, userId, jti, expiresAt, familyId, hm⟩ := h
  exact ⟨f, userId, jti, expiresAt, familyId, List.mem_append_left _ hm⟩

theorem inserted_append {a : Label} : Inserted (past ++ [a]) p t ↔ Inserted past p t ∨
    ∃ f userId jti expiresAt familyId,
      a = .run p f (.insertToken userId jti expiresAt familyId) (.ok t) := by
  constructor
  · rintro ⟨f, userId, jti, expiresAt, familyId, hm⟩
    rcases List.mem_append.mp hm with hm | hm
    · exact Or.inl ⟨f, userId, jti, expiresAt, familyId, hm⟩
    · exact Or.inr ⟨f, userId, jti, expiresAt, familyId, (List.mem_singleton.mp hm).symm⟩
  · rintro (h | ⟨f, userId, jti, expiresAt, familyId, rfl⟩)
    · exact h.append
    · exact ⟨f, userId, jti, expiresAt, familyId, by simp⟩

/-- The label of an insertion that went through. -/
def Inserts : Label → Prop
  | .run _ _ (.insertToken _ _ _ _) (.ok _) => True
  | _ => False

/-- A longer history, with the same insertions. -/
structure Extends (past past' : List Label) : Prop where
  inserted : ∀ p t, Inserted past' p t ↔ Inserted past p t
  bears : ∀ p jti, Bears past p jti → Bears past' p jti
  bare : ∀ p, Bare past p → Bare past' p

theorem Extends.append {a : Label} (ha : ¬ Inserts a) : Extends past (past ++ [a]) where
  inserted p t := by
    rw [inserted_append]
    constructor
    · rintro (h | ⟨f, userId, jti, expiresAt, familyId, rfl⟩)
      · exact h
      · exact absurd trivial ha
    · exact Or.inl
  bears _ _ h := h.append
  bare _ h := h.append

/-! ## The invariant -/

/-- The session revoked the row that its request presented, the live row of the family of `t`. -/
def Rotates (w : World) (past : List Label) (p : Pid) (ids : List Id) (t : RefreshToken) : Prop :=
  ∃ r ∈ w.tokens, r.isRevoked = false ∧ r.familyId = t.familyId ∧ ids = [r.id] ∧
    Bears past p r.tokenHash

/-- The session starts the family of `t`. -/
def Starts (w : World) (past : List Label) (p : Pid) (ids : List Id) (t : RefreshToken) : Prop :=
  ids = [] ∧ Bare past p ∧ ∀ t' ∈ w.rows, t'.familyId = t.familyId → t'.id = t.id

/-- The row is in the table. -/
def World.Committed (w : World) (t : RefreshToken) : Prop := ∃ t' ∈ w.tokens, t'.id = t.id

structure Lineage (w : World) (past : List Label) : Prop where
  ids : (w.rows.map (·.id)).Nodup
  hashes : (w.rows.map (·.tokenHash)).Nodup
  next : ∀ t ∈ w.rows, t.id < w.nextToken
  locks : ∀ p q id, (p, id) ∈ w.locks → (q, id) ∈ w.locks → p = q
  held : ∀ p id, .revoke id ∈ w.writesOf p → (p, id) ∈ w.locks
  shape : ∀ p, ∃ ids new, w.Wrote p ids new ∧
    ∀ t ∈ new, t.isRevoked = false ∧ (Rotates w past p ids t ∨ Starts w past p ids t)
  single : ∀ t ∈ w.tokens, ∀ t' ∈ w.tokens, t.isRevoked = false → t'.isRevoked = false →
    t.familyId = t'.familyId → t.id = t'.id
  known : ∀ p t, Inserted past p t → t.id < w.nextToken
  author : ∀ p q t t', Inserted past p t → Inserted past q t' → t.id = t'.id → p = q ∧ t = t'
  once : ∀ p t t', Inserted past p t → Inserted past p t' → t = t'
  own : ∀ p t, .insert t ∈ w.writesOf p → Inserted past p t
  parent : ∀ p t, Inserted past p t → w.Committed t →
    (∃ r ∈ w.tokens, r.isRevoked = true ∧ Bears past p r.tokenHash) ∨ Bare past p
  siblings : ∀ p q t t', p ≠ q → Inserted past p t → Inserted past q t' → w.Committed t →
    w.Committed t' → Bare past p ∨ Bare past q ∨ ∃ j j', Bears past p j ∧ Bears past q j' ∧ j ≠ j'

namespace Lineage

theorem empty : Lineage World.empty [] where
  ids := List.nodup_nil
  hashes := List.nodup_nil
  next := by simp [World.empty, World.rows, World.inFlight]
  locks := by simp [World.empty]
  held := by simp [World.empty, World.writesOf]
  shape p := ⟨[], none, rfl, by simp⟩
  single := by simp [World.empty]
  known := by simp [Inserted]
  author := by simp [Inserted]
  once := by simp [Inserted]
  own := by simp [World.empty, World.writesOf]
  parent := by simp [Inserted]
  siblings := by simp [Inserted]

theorem mem_rows_of_writes (h : .insert t ∈ w.writesOf p) : t ∈ w.rows :=
  List.mem_append_right _ (World.mem_inFlight.mpr ⟨p, h⟩)

section

variable (h : Lineage w past)
include h

theorem row_eq (ht : t ∈ w.rows) (ht' : t' ∈ w.rows) (hid : t.id = t'.id) : t = t' :=
  List.inj_on_of_nodup_map h.ids ht ht' hid

theorem hash_eq (ht : t ∈ w.rows) (ht' : t' ∈ w.rows) (hh : t.tokenHash = t'.tokenHash) : t = t' :=
  List.inj_on_of_nodup_map h.hashes ht ht' hh

/-- A row in flight is not in the table. -/
theorem not_committed (ht : .insert t ∈ w.writesOf p) : ¬ w.Committed t := by
  rintro ⟨t', ht', hid⟩
  have hnodup := h.ids
  rw [World.rows, List.map_append] at hnodup
  refine (List.nodup_append.mp hnodup).2.2 t'.id (List.mem_map_of_mem ht') t.id ?_ hid
  exact List.mem_map_of_mem (World.mem_inFlight.mpr ⟨p, ht⟩)

/-- A row that two sessions revoke is locked by both. -/
theorem revoke_unique {id : Id} (hp : .revoke id ∈ w.writesOf p) (hq : .revoke id ∈ w.writesOf q) :
    p = q := h.locks p q id (h.held p id hp) (h.held q id hq)

end

/-! ## Steps -/

theorem parent_of (h : Lineage w past) (hp : Extends past past') (htokens : w'.tokens = w.tokens)
    (hi : Inserted past p t) (hc : w.Committed t) :
    (∃ r ∈ w'.tokens, r.isRevoked = true ∧ Bears past' p r.tokenHash) ∨ Bare past' p := by
  rcases h.parent p t hi hc with ⟨r, hr, hrev, hb⟩ | hb
  · exact Or.inl ⟨r, htokens ▸ hr, hrev, hp.bears _ _ hb⟩
  · exact Or.inr (hp.bare _ hb)

theorem siblings_of (h : Lineage w past) (hp : Extends past past') (hne : p ≠ q)
    (hi : Inserted past p t) (hi' : Inserted past q t') (hc : w.Committed t) (hc' : w.Committed t') :
    Bare past' p ∨ Bare past' q ∨ ∃ j j', Bears past' p j ∧ Bears past' q j' ∧ j ≠ j' := by
  rcases h.siblings p q t t' hne hi hi' hc hc' with hb | hb | ⟨j, j', hj, hj', hjj⟩
  · exact Or.inl (hp.bare _ hb)
  · exact Or.inr (Or.inl (hp.bare _ hb))
  · exact Or.inr (Or.inr ⟨j, j', hp.bears _ _ hj, hp.bears _ _ hj', hjj⟩)

/-- Neither a row, nor a lock, nor an uncommitted write changes. -/
theorem calm (h : Lineage w past) (hp : Extends past past') (htokens : w'.tokens = w.tokens)
    (hwrites : w'.writes = w.writes) (hlocks : w'.locks = w.locks)
    (hnext : w.nextToken ≤ w'.nextToken) : Lineage w' past' := by
  have hof : ∀ p, w'.writesOf p = w.writesOf p := fun p => by
    rw [World.writesOf, hwrites, World.writesOf]
  have hrows : w'.rows = w.rows := by
    rw [World.rows, htokens, World.inFlight, hwrites, World.rows, World.inFlight]
  have hcom : ∀ t, w'.Committed t ↔ w.Committed t := fun t => by
    rw [World.Committed, htokens, World.Committed]
  constructor
  · rw [hrows]
    exact h.ids
  · rw [hrows]
    exact h.hashes
  · intro t ht
    rw [hrows] at ht
    exact (h.next t ht).trans_le hnext
  · rw [hlocks]
    exact h.locks
  · intro p id hw
    rw [hof] at hw
    rw [hlocks]
    exact h.held p id hw
  · intro p
    obtain ⟨ids, new, hw, hnew⟩ := h.shape p
    refine ⟨ids, new, (hof p).trans hw, fun t ht => ⟨(hnew t ht).1, ?_⟩⟩
    rcases (hnew t ht).2 with ⟨r, hr, hlive, hfam, hids, hbears⟩ | ⟨hids, hbare, hfresh⟩
    · exact Or.inl ⟨r, htokens ▸ hr, hlive, hfam, hids, hp.bears _ _ hbears⟩
    · exact Or.inr ⟨hids, hp.bare _ hbare, hrows ▸ hfresh⟩
  · rw [htokens]
    exact h.single
  · exact fun p t hi => (h.known p t ((hp.inserted p t).mp hi)).trans_le hnext
  · exact fun p q t t' hi hi' => h.author p q t t' ((hp.inserted p t).mp hi) ((hp.inserted q t').mp hi')
  · exact fun p t t' hi hi' => h.once p t t' ((hp.inserted p t).mp hi) ((hp.inserted p t').mp hi')
  · intro p t hw
    rw [hof] at hw
    exact (hp.inserted p t).mpr (h.own p t hw)
  · exact fun q t hi hc => h.parent_of hp htokens ((hp.inserted q t).mp hi) ((hcom t).mp hc)
  · exact fun q q' t t' hne hi hi' hc hc' => h.siblings_of hp hne ((hp.inserted q t).mp hi)
      ((hp.inserted q' t').mp hi') ((hcom t).mp hc) ((hcom t').mp hc')

/-- The UPDATE of a session that did not insert takes a row. -/
theorem took (h : Lineage w past) (hp : Extends past past') {id : Id}
    (hfree : ¬ w.LockedByOther p id) (hno : ∀ t, .insert t ∉ w.writesOf p)
    (htokens : w'.tokens = w.tokens) (hnext : w'.nextToken = w.nextToken)
    (hwrites : w'.writes = w.writes ++ [(p, .revoke id)]) (hlocks : w'.locks = w.locks ++ [(p, id)]) :
    Lineage w' past' := by
  have hof : ∀ q, w'.writesOf q = w.writesOf q ++ if q = p then [.revoke id] else [] := fun q => by
    rw [← World.write_writesOf, World.writesOf, hwrites]
    rfl
  have hrows : w'.rows = w.rows := by
    rw [World.rows, htokens, World.inFlight, hwrites, List.filterMap_append]
    exact congrArg (w.tokens ++ ·) (List.append_nil _)
  have hcom : ∀ t, w'.Committed t ↔ w.Committed t := fun t => by
    rw [World.Committed, htokens, World.Committed]
  have hmem : ∀ q t, .insert t ∈ w'.writesOf q → .insert t ∈ w.writesOf q := by
    intro q t hw
    rw [hof] at hw
    rcases List.mem_append.mp hw with hw | hw
    · exact hw
    · split_ifs at hw
      · simp at hw
      · simp at hw
  constructor
  · rw [hrows]
    exact h.ids
  · rw [hrows]
    exact h.hashes
  · rw [hrows, hnext]
    exact h.next
  · -- nobody else has the row
    have hother : ∀ q, (q, id) ∈ w.locks → q = p := fun q hq => by
      by_contra hne
      exact hfree ⟨_, hq, hne, rfl⟩
    intro q q' id' hq hq'
    rw [hlocks] at hq hq'
    rcases List.mem_append.mp hq with h₁ | h₁ <;> rcases List.mem_append.mp hq' with h₂ | h₂
    · exact h.locks q q' id' h₁ h₂
    · obtain ⟨rfl, rfl⟩ := Prod.mk.inj (List.mem_singleton.mp h₂)
      exact hother q h₁
    · obtain ⟨rfl, rfl⟩ := Prod.mk.inj (List.mem_singleton.mp h₁)
      exact (hother q' h₂).symm
    · obtain ⟨rfl, -⟩ := Prod.mk.inj (List.mem_singleton.mp h₁)
      obtain ⟨rfl, -⟩ := Prod.mk.inj (List.mem_singleton.mp h₂)
      rfl
  · intro q id' hw
    rw [hof] at hw
    rw [hlocks]
    rcases List.mem_append.mp hw with h₁ | h₁
    · exact List.mem_append_left _ (h.held q id' h₁)
    · split_ifs at h₁ with hq
      · obtain rfl := Write.revoke.inj (List.mem_singleton.mp h₁)
        exact List.mem_append_right _ (by simp [hq])
      · simp at h₁
  · intro q
    obtain ⟨ids, new, hw, hnew⟩ := h.shape q
    by_cases hq : q = p
    · subst hq
      cases new with
      | none =>
        refine ⟨ids ++ [id], none, ?_, by simp⟩
        rw [World.Wrote, hof, if_pos rfl, show w.writesOf q = _ from hw]
        simp
      | some t => exact absurd (by rw [show w.writesOf q = _ from hw]; simp) (hno t)
    · refine ⟨ids, new, ?_, fun t ht => ⟨(hnew t ht).1, ?_⟩⟩
      · rw [World.Wrote, hof, if_neg hq, List.append_nil]
        exact hw
      · rcases (hnew t ht).2 with ⟨r, hr, hlive, hfam, hids, hbears⟩ | ⟨hids, hbare, hfresh⟩
        · exact Or.inl ⟨r, htokens ▸ hr, hlive, hfam, hids, hp.bears _ _ hbears⟩
        · exact Or.inr ⟨hids, hp.bare _ hbare, hrows ▸ hfresh⟩
  · rw [htokens]
    exact h.single
  · exact fun q t hi => (h.known q t ((hp.inserted q t).mp hi)).trans_eq hnext.symm
  · exact fun q q' t t' hi hi' =>
      h.author q q' t t' ((hp.inserted q t).mp hi) ((hp.inserted q' t').mp hi')
  · exact fun q t t' hi hi' => h.once q t t' ((hp.inserted q t).mp hi) ((hp.inserted q t').mp hi')
  · exact fun q t hw => (hp.inserted q t).mpr (h.own q t (hmem q t hw))
  · exact fun q t hi hc => h.parent_of hp htokens ((hp.inserted q t).mp hi) ((hcom t).mp hc)
  · exact fun q q' t t' hne hi hi' hc hc' => h.siblings_of hp hne ((hp.inserted q t).mp hi)
      ((hp.inserted q' t').mp hi') ((hcom t).mp hc) ((hcom t').mp hc')

/-- A session ends without effect. -/
theorem rolledBack (h : Lineage w past) (hp : Extends past past') (p : Pid) :
    Lineage (w.rollback p) past' := by
  have hrows : ∀ t ∈ (w.rollback p).rows, t ∈ w.rows := World.rollback_rows_sublist.subset
  have hmem : ∀ q x, x ∈ (w.rollback p).writesOf q → q ≠ p ∧ x ∈ w.writesOf q := by
    intro q x hw
    rw [World.rollback_writesOf] at hw
    split_ifs at hw with hq
    · simp at hw
    · exact ⟨hq, hw⟩
  constructor
  · exact h.ids.sublist (World.rollback_rows_sublist.map _)
  · exact h.hashes.sublist (World.rollback_rows_sublist.map _)
  · exact fun t ht => h.next t (hrows t ht)
  · exact fun q q' id hq hq' =>
      h.locks q q' id (World.mem_rollback_locks.mp hq).2 (World.mem_rollback_locks.mp hq').2
  · intro q id hw
    obtain ⟨hq, hw⟩ := hmem q _ hw
    exact World.mem_rollback_locks.mpr ⟨hq, h.held q id hw⟩
  · intro q
    by_cases hq : q = p
    · subst hq
      exact ⟨[], none, by simp [World.Wrote], by simp⟩
    · obtain ⟨ids, new, hw, hnew⟩ := h.shape q
      refine ⟨ids, new, ?_, fun t ht => ⟨(hnew t ht).1, ?_⟩⟩
      · rw [World.Wrote, World.rollback_writesOf, if_neg hq]
        exact hw
      · rcases (hnew t ht).2 with ⟨r, hr, hlive, hfam, hids, hbears⟩ | ⟨hids, hbare, hfresh⟩
        · exact Or.inl ⟨r, hr, hlive, hfam, hids, hp.bears _ _ hbears⟩
        · exact Or.inr ⟨hids, hp.bare _ hbare, fun t' ht' => hfresh t' (hrows t' ht')⟩
  · exact h.single
  · exact fun q t hi => h.known q t ((hp.inserted q t).mp hi)
  · exact fun q q' t t' hi hi' =>
      h.author q q' t t' ((hp.inserted q t).mp hi) ((hp.inserted q' t').mp hi')
  · exact fun q t t' hi hi' => h.once q t t' ((hp.inserted q t).mp hi) ((hp.inserted q t').mp hi')
  · exact fun q t hw => (hp.inserted q t).mpr (h.own q t (hmem q _ hw).2)
  · exact fun q t hi hc => h.parent_of hp rfl ((hp.inserted q t).mp hi) hc
  · exact fun q q' t t' hne hi hi' hc hc' => h.siblings_of hp hne ((hp.inserted q t).mp hi)
      ((hp.inserted q' t').mp hi') hc hc'

/-- What a session guarantees when it inserts a row of the family `f`. -/
def MayInsert (w : World) (past : List Label) (p : Pid) (f : FamilyId) : Prop :=
  (∀ t, ¬ Inserted past p t) ∧
    ((∃ r ∈ w.tokens, r.isRevoked = false ∧ r.familyId = f ∧ w.writesOf p = [.revoke r.id] ∧
      Bears past p r.tokenHash) ∨ w.writesOf p = [] ∧ Bare past p ∧ w.FreshFamily f)

theorem MayInsert.wrote {f : FamilyId} (h : MayInsert w past p f) : ∃ ids, w.Wrote p ids none := by
  rcases h.2 with ⟨r, -, -, -, hw, -⟩ | ⟨hw, -⟩
  · exact ⟨[r.id], by simpa [World.Wrote] using hw⟩
  · exact ⟨[], by simpa [World.Wrote] using hw⟩

/-- The hash of a row that the constraints let through is new. -/
theorem new_hash {userId : Id} {jti : Jti} (hw : w.Wrote p ids none) (hbusy : ¬ w.HashBusy p jti)
    (hok : ¬ w.Refuses p userId jti) : ∀ t ∈ w.rows, t.tokenHash ≠ jti := by
  intro t ht hh
  rcases List.mem_append.mp ht with ht | ht
  · refine hok (Or.inl ⟨World.revokeIn ids t, ?_, by simpa using hh⟩)
    rw [World.view_of_revokes hw]
    exact List.mem_map_of_mem ht
  · obtain ⟨q, hq⟩ := World.mem_inFlight.mp ht
    by_cases hqp : q = p
    · rw [hqp, show w.writesOf p = _ from hw] at hq
      simp at hq
    · exact hbusy ⟨_, World.mem_writesOf.mp hq, hqp, t, rfl, hh⟩

/-- A session inserts a row. -/
theorem inserted (h : Lineage w past) {f : FamilyId} {fl : Fault} {userId : Id} {jti : Jti}
    {expiresAt : ℕ} {familyId : Option FamilyId} (hmay : MayInsert w past p f)
    (hbusy : ¬ w.HashBusy p jti) (hok : ¬ w.Refuses p userId jti) :
    Lineage (w.tickToken.write p (.insert (w.newToken userId jti expiresAt f)))
      (past ++ [.run p fl (.insertToken userId jti expiresAt familyId)
        (.ok (w.newToken userId jti expiresAt f))]) := by
  obtain ⟨ids, hw⟩ := hmay.wrote
  have hins : ∀ q t, Inserted (past ++ [.run p fl (.insertToken userId jti expiresAt familyId)
      (.ok (w.newToken userId jti expiresAt f))]) q t ↔
      Inserted past q t ∨ q = p ∧ t = w.newToken userId jti expiresAt f := by
    intro q t
    rw [inserted_append]
    refine or_congr_right ⟨?_, ?_⟩
    · rintro ⟨f', userId', jti', expiresAt', familyId', heq⟩
      cases heq
      exact ⟨rfl, rfl⟩
    · rintro ⟨rfl, rfl⟩
      exact ⟨_, _, _, _, _, rfl⟩
  have hold : ∀ t ∈ w.rows, t.id < w.nextToken := h.next
  have hrows : (w.tickToken.write p (.insert (w.newToken userId jti expiresAt f))).rows =
      w.rows ++ [w.newToken userId jti expiresAt f] := by
    simp [World.rows, World.inFlight, World.write, World.tickToken, List.filterMap_append,
      Write.inserted]
  have hnotnew : ∀ t, w.Committed t → t ≠ w.newToken userId jti expiresAt f := by
    rintro t ⟨t', ht', hid⟩ rfl
    have hlt := hold t' (List.mem_append_left _ ht')
    rw [hid] at hlt
    exact absurd hlt (lt_irrefl _)
  constructor
  · rw [hrows, List.map_append]
    refine List.nodup_append.mpr ⟨h.ids, List.nodup_singleton _, ?_⟩
    intro id hid id' hid' heq
    obtain ⟨t, ht, rfl⟩ := List.mem_map.mp hid
    obtain rfl : id' = w.nextToken := List.mem_singleton.mp hid'
    exact absurd (hold t ht) (by rw [heq]; exact lt_irrefl _)
  · rw [hrows, List.map_append]
    refine List.nodup_append.mpr ⟨h.hashes, List.nodup_singleton _, ?_⟩
    intro j hj j' hj' heq
    obtain ⟨t, ht, rfl⟩ := List.mem_map.mp hj
    obtain rfl : j' = jti := List.mem_singleton.mp hj'
    exact new_hash hw hbusy hok t ht heq
  · intro t ht
    rw [hrows] at ht
    show t.id < w.nextToken + 1
    rcases List.mem_append.mp ht with ht | ht
    · exact (hold t ht).trans (Int.lt_succ _)
    · rw [List.mem_singleton.mp ht]
      exact Int.lt_succ w.nextToken
  · exact h.locks
  · intro q id hq
    rw [World.write_writesOf] at hq
    rcases List.mem_append.mp hq with hq | hq
    · exact h.held q id hq
    · split_ifs at hq
      · simp at hq
      · simp at hq
  · intro q
    by_cases hq : q = p
    · subst hq
      refine ⟨ids, some (w.newToken userId jti expiresAt f), ?_, ?_⟩
      · rw [World.Wrote, World.write_writesOf, if_pos rfl, World.tickToken_writesOf,
          show w.writesOf q = _ from hw]
        simp
      · rintro t ht
        obtain rfl := Option.some.inj ht
        refine ⟨rfl, ?_⟩
        rcases hmay.2 with ⟨r, hr, hlive, hfam, hwr, hbears⟩ | ⟨hwr, hbare, hfresh⟩
        · refine Or.inl ⟨r, hr, hlive, hfam, ?_, hbears.append⟩
          rw [show w.writesOf q = _ from hw] at hwr
          exact List.map_injective_iff.mpr (fun _ _ => Write.revoke.inj) (by simpa using hwr)
        · refine Or.inr ⟨?_, hbare.append, ?_⟩
          · rw [show w.writesOf q = _ from hw] at hwr
            simpa using hwr
          · intro t' ht' hfam
            rw [hrows] at ht'
            rcases List.mem_append.mp ht' with ht' | ht'
            · exact absurd hfam (hfresh t' ht')
            · rw [List.mem_singleton.mp ht']
    · obtain ⟨ids', new, hw', hnew⟩ := h.shape q
      refine ⟨ids', new, ?_, fun t ht => ⟨(hnew t ht).1, ?_⟩⟩
      · rw [World.Wrote, World.write_writesOf, if_neg hq, List.append_nil]
        exact hw'
      · rcases (hnew t ht).2 with ⟨r, hr, hlive, hfam, hids, hbears⟩ | ⟨hids, hbare, hfresh⟩
        · exact Or.inl ⟨r, hr, hlive, hfam, hids, hbears.append⟩
        · refine Or.inr ⟨hids, hbare.append, ?_⟩
          intro t' ht' hfam
          rw [hrows] at ht'
          rcases List.mem_append.mp ht' with ht' | ht'
          · exact hfresh t' ht' hfam
          · -- the new row is of a family of the table, or of a fresh one; `t` is neither
            rw [List.mem_singleton.mp ht'] at hfam
            have hins' : .insert t ∈ w.writesOf q := by
              obtain rfl := Option.mem_def.mp ht
              rw [show w.writesOf q = _ from hw']
              simp
            rcases hmay.2 with ⟨r, hr, -, hrf, -, -⟩ | ⟨-, -, hff⟩
            · exact absurd ⟨r, hr, hfresh r (List.mem_append_left _ hr) (hrf.trans hfam)⟩
                (h.not_committed hins')
            · exact absurd hfam.symm (hff t (mem_rows_of_writes hins'))
  · exact h.single
  · intro q t hi
    show t.id < w.nextToken + 1
    rcases (hins q t).mp hi with hi | ⟨-, rfl⟩
    · exact (h.known q t hi).trans (Int.lt_succ _)
    · exact Int.lt_succ w.nextToken
  · intro q q' t t' hi hi' hid
    rcases (hins q t).mp hi with h₁ | ⟨rfl, rfl⟩ <;> rcases (hins q' t').mp hi' with h₂ | ⟨rfl, rfl⟩
    · exact h.author q q' t t' h₁ h₂ hid
    · exact absurd (h.known q t h₁) (by rw [hid]; exact lt_irrefl _)
    · exact absurd (h.known q' t' h₂) (by rw [← hid]; exact lt_irrefl _)
    · exact ⟨rfl, rfl⟩
  · intro q t t' hi hi'
    rcases (hins q t).mp hi with h₁ | ⟨rfl, rfl⟩ <;> rcases (hins q t').mp hi' with h₂ | ⟨hq, rfl⟩
    · exact h.once q t t' h₁ h₂
    · exact absurd h₁ (hq ▸ hmay.1 t)
    · exact absurd h₂ (hmay.1 t')
    · rfl
  · intro q t hq
    rw [World.write_writesOf] at hq
    rw [hins]
    rcases List.mem_append.mp hq with hq | hq
    · exact Or.inl (h.own q t hq)
    · split_ifs at hq with hqp
      · exact Or.inr ⟨hqp, Write.insert.inj (List.mem_singleton.mp hq)⟩
      · simp at hq
  · intro q t hi hc
    rcases (hins q t).mp hi with hi | ⟨-, rfl⟩
    · rcases h.parent q t hi hc with ⟨r, hr, hrev, hb⟩ | hb
      · exact Or.inl ⟨r, hr, hrev, hb.append⟩
      · exact Or.inr hb.append
    · exact absurd rfl (hnotnew _ hc)
  · intro q q' t t' hne hi hi' hc hc'
    rcases (hins q t).mp hi with hi | ⟨-, rfl⟩
    · rcases (hins q' t').mp hi' with hi' | ⟨-, rfl⟩
      · rcases h.siblings q q' t t' hne hi hi' hc hc' with hb | hb | ⟨j, j', hj, hj', hjj⟩
        · exact Or.inl hb.append
        · exact Or.inr (Or.inl hb.append)
        · exact Or.inr (Or.inr ⟨j, j', hj.append, hj'.append, hjj⟩)
      · exact absurd rfl (hnotnew _ hc')
    · exact absurd rfl (hnotnew _ hc)

/-- A row after the commit was in the table before, perhaps live, or is the new one. -/
theorem mem_commit (hw : w.Wrote p ids new) :
    t ∈ (w.commit p).tokens ↔ (∃ t₀ ∈ w.tokens, World.revokeIn ids t₀ = t) ∨ t ∈ new := by
  rw [World.commit_tokens, World.view_eq hw, List.mem_append, List.mem_map]
  simp

theorem committed_commit (hw : w.Wrote p ids new) (h : (w.commit p).Committed t) :
    w.Committed t ∨ ∃ t' ∈ new, t'.id = t.id := by
  obtain ⟨t', ht', hid⟩ := h
  rcases (mem_commit hw).mp ht' with ⟨t₀, ht₀, rfl⟩ | hnew
  · exact Or.inl ⟨t₀, ht₀, by simpa using hid⟩
  · exact Or.inr ⟨t', hnew, hid⟩

/-- A revoked row stays revoked. -/
theorem revoked_commit (hw : w.Wrote p ids new) (ht : t ∈ w.tokens) (hrev : t.isRevoked = true) :
    ∃ t' ∈ (w.commit p).tokens, t'.isRevoked = true ∧ t'.tokenHash = t.tokenHash ∧
      t'.familyId = t.familyId := by
  refine ⟨_, (mem_commit hw).mpr (Or.inl ⟨t, ht, rfl⟩), ?_, by simp, by simp⟩
  unfold World.revokeIn
  split_ifs
  · rfl
  · exact hrev

/-- The row that the session commits has its parent revoked with it, or has none. -/
theorem parent_new (hw : w.Wrote p ids new)
    (hshape : Rotates w past p ids t ∨ Starts w past p ids t) :
    (∃ r ∈ (w.commit p).tokens, r.isRevoked = true ∧ Bears past p r.tokenHash) ∨ Bare past p := by
  rcases hshape with ⟨r, hr, -, -, hids, hbears⟩ | ⟨-, hbare, -⟩
  · refine Or.inl ⟨_, (mem_commit hw).mpr (Or.inl ⟨r, hr, rfl⟩), ?_, by simpa using hbears⟩
    simp [World.revokeIn, hids, RefreshToken.revoke]
  · exact Or.inr hbare

/-- Two live rows of a family after the commit are the same. -/
theorem single_new (h : Lineage w past)
    (hshape : Rotates w past p ids t ∨ Starts w past p ids t) (ht' : t' ∈ w.tokens)
    (hlive : (World.revokeIn ids t').isRevoked = false) (hfam : t'.familyId = t.familyId) :
    t'.id = t.id := by
  obtain ⟨hid, hlive₀⟩ := World.revokeIn_live.mp hlive
  rcases hshape with ⟨r, hr, hrlive, hrfam, rfl, -⟩ | ⟨-, -, hfresh⟩
  · refine absurd ?_ hid
    rw [h.single t' ht' r hr hlive₀ hrlive (hfam.trans hrfam.symm)]
    exact List.mem_singleton_self _
  · exact hfresh t' (List.mem_append_left _ ht') hfam

/-- A session commits. -/
theorem committed (h : Lineage w past) (hp : Extends past past') (p : Pid) :
    Lineage (w.commit p) past' := by
  obtain ⟨ids, new, hw, hnew⟩ := h.shape p
  have hmem : ∀ q x, x ∈ (w.commit p).writesOf q → q ≠ p ∧ x ∈ w.writesOf q := by
    intro q x hx
    rw [World.commit_writesOf] at hx
    split_ifs at hx with hq
    · simp at hx
    · exact ⟨hq, hx⟩
  have hrows : ∀ t ∈ (w.commit p).rows, ∃ t₀ ∈ w.rows, t₀.id = t.id ∧ t₀.familyId = t.familyId := by
    intro t ht
    have hperm := World.commit_rows_perm (fun t => (t.id, t.familyId)) (fun _ => rfl) hw
    obtain ⟨t₀, ht₀, heq⟩ := List.mem_map.mp (hperm.subset (List.mem_map_of_mem ht))
    exact ⟨t₀, ht₀, congrArg Prod.fst heq, congrArg Prod.snd heq⟩
  have hauthor : ∀ q t, Inserted past q t → (w.commit p).Committed t →
      w.Committed t ∨ q = p ∧ t ∈ new := by
    intro q t hi hc
    rcases committed_commit hw hc with hc | ⟨n, hn, hid⟩
    · exact Or.inl hc
    · have hown : .insert n ∈ w.writesOf p := by
        obtain rfl := Option.mem_def.mp hn
        rw [show w.writesOf p = _ from hw]
        simp
      obtain ⟨rfl, rfl⟩ := h.author q p t n hi (h.own p n hown) hid.symm
      exact Or.inr ⟨rfl, hn⟩
  have hparent : ∀ q t, Inserted past q t → w.Committed t →
      (∃ r ∈ w.tokens, r.isRevoked = true ∧ Bears past q r.tokenHash) ∨ Bare past q := h.parent
  -- a request that committed before, and the one that commits now
  have hsibling : ∀ q t t', Inserted past q t → w.Committed t → t' ∈ new →
      Bare past q ∨ Bare past p ∨ ∃ j j', Bears past q j ∧ Bears past p j' ∧ j ≠ j' := by
    intro q t t' hi hc ht'
    rcases hparent q t hi hc with ⟨r, hr, hrev, hb⟩ | hb
    · rcases (hnew t' ht').2 with ⟨r', hr', hlive, -, -, hb'⟩ | ⟨-, hb', -⟩
      · refine Or.inr (Or.inr ⟨_, _, hb, hb', fun hh => ?_⟩)
        obtain rfl := h.hash_eq (List.mem_append_left _ hr) (List.mem_append_left _ hr') hh
        exact absurd (hrev.symm.trans hlive) (by simp)
      · exact Or.inr (Or.inl hb')
    · exact Or.inl hb
  constructor
  · exact (World.commit_rows_perm (·.id) (fun _ => rfl) hw).nodup_iff.mpr h.ids
  · exact (World.commit_rows_perm (·.tokenHash) (fun _ => rfl) hw).nodup_iff.mpr h.hashes
  · intro t ht
    obtain ⟨t₀, ht₀, hid, -⟩ := hrows t ht
    rw [← hid]
    exact h.next t₀ ht₀
  · exact fun q q' id hq hq' =>
      h.locks q q' id (World.mem_commit_locks.mp hq).2 (World.mem_commit_locks.mp hq').2
  · intro q id hx
    obtain ⟨hq, hx⟩ := hmem q _ hx
    exact World.mem_commit_locks.mpr ⟨hq, h.held q id hx⟩
  · intro q
    by_cases hq : q = p
    · subst hq
      exact ⟨[], none, by simp [World.Wrote], by simp⟩
    · obtain ⟨ids', new', hw', hnew'⟩ := h.shape q
      refine ⟨ids', new', ?_, fun t ht => ⟨(hnew' t ht).1, ?_⟩⟩
      · rw [World.Wrote, World.commit_writesOf, if_neg hq]
        exact hw'
      · rcases (hnew' t ht).2 with ⟨r, hr, hlive, hfam, rfl, hbears⟩ | ⟨hids, hbare, hfresh⟩
        · -- the parent is locked by `q`, so that `p` did not revoke it
          have hnot : r.id ∉ ids := by
            intro hid
            have hother : Write.revoke r.id ∈ w.writesOf q := by
              rw [show w.writesOf q = _ from hw']
              simp
            have hown : Write.revoke r.id ∈ w.writesOf p := by
              rw [show w.writesOf p = _ from hw]
              exact List.mem_append_left _ (List.mem_map_of_mem hid)
            exact hq (h.revoke_unique hother hown)
          refine Or.inl ⟨r, (mem_commit hw).mpr (Or.inl ⟨r, hr, if_neg hnot⟩), hlive, hfam, rfl, ?_⟩
          exact hp.bears _ _ hbears
        · refine Or.inr ⟨hids, hp.bare _ hbare, fun t' ht' hfam => ?_⟩
          obtain ⟨t₀, ht₀, hid, hfam₀⟩ := hrows t' ht'
          rw [← hid]
          exact hfresh t₀ ht₀ (hfam₀.trans hfam)
  · intro t ht t' ht' hlive hlive' hfam
    rcases (mem_commit hw).mp ht with ⟨t₀, ht₀, rfl⟩ | hn <;>
      rcases (mem_commit hw).mp ht' with ⟨t₁, ht₁, rfl⟩ | hn'
    · simp only [World.revokeIn_id, World.revokeIn_familyId] at hfam ⊢
      exact h.single t₀ ht₀ t₁ ht₁ (World.revokeIn_live.mp hlive).2 (World.revokeIn_live.mp hlive').2 hfam
    · simp only [World.revokeIn_id, World.revokeIn_familyId] at hfam ⊢
      exact h.single_new (hnew t' hn').2 ht₀ hlive hfam
    · simp only [World.revokeIn_id, World.revokeIn_familyId] at hfam ⊢
      exact (h.single_new (hnew t hn).2 ht₁ hlive' hfam.symm).symm
    · rw [Option.mem_unique hn hn']
  · exact fun q t hi => h.known q t ((hp.inserted q t).mp hi)
  · exact fun q q' t t' hi hi' =>
      h.author q q' t t' ((hp.inserted q t).mp hi) ((hp.inserted q' t').mp hi')
  · exact fun q t t' hi hi' => h.once q t t' ((hp.inserted q t).mp hi) ((hp.inserted q t').mp hi')
  · exact fun q t hx => (hp.inserted q t).mpr (h.own q t (hmem q _ hx).2)
  · intro q t hi hc
    rcases hauthor q t ((hp.inserted q t).mp hi) hc with hc | ⟨rfl, hn⟩
    · rcases hparent q t ((hp.inserted q t).mp hi) hc with ⟨r, hr, hrev, hb⟩ | hb
      · obtain ⟨r', hr', hrev', hh, -⟩ := revoked_commit hw hr hrev
        exact Or.inl ⟨r', hr', hrev', by rw [hh]; exact hp.bears _ _ hb⟩
      · exact Or.inr (hp.bare _ hb)
    · rcases parent_new hw (hnew t hn).2 with ⟨r, hr, hrev, hb⟩ | hb
      · exact Or.inl ⟨r, hr, hrev, hp.bears _ _ hb⟩
      · exact Or.inr (hp.bare _ hb)
  · intro q q' t t' hne hi hi' hc hc'
    have hi₀ := (hp.inserted q t).mp hi
    have hi₁ := (hp.inserted q' t').mp hi'
    rcases hauthor q t hi₀ hc with h₀ | ⟨rfl, hn⟩ <;> rcases hauthor q' t' hi₁ hc' with h₁ | ⟨rfl, hn'⟩
    · exact h.siblings_of hp hne hi₀ hi₁ h₀ h₁
    · rcases hsibling q t t' hi₀ h₀ hn' with hb | hb | ⟨j, j', hj, hj', hjj⟩
      · exact Or.inl (hp.bare _ hb)
      · exact Or.inr (Or.inl (hp.bare _ hb))
      · exact Or.inr (Or.inr ⟨j, j', hp.bears _ _ hj, hp.bears _ _ hj', hjj⟩)
    · rcases hsibling q' t' t hi₁ h₁ hn with hb | hb | ⟨j, j', hj, hj', hjj⟩
      · exact Or.inr (Or.inl (hp.bare _ hb))
      · exact Or.inl (hp.bare _ hb)
      · exact Or.inr (Or.inr ⟨j', j, hp.bears _ _ hj', hp.bears _ _ hj, hjj.symm⟩)
    · exact absurd rfl hne

end Lineage

end Auth

end PaymentRecon
