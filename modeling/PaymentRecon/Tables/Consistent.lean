import PaymentRecon.Lib.Lts
import PaymentRecon.Tables.TableStep

/-!
# Consistent — what PostgreSQL guarantees whatever the sessions do

A row is committed (`Row none`) or flushed by a session (`Row (some p)`).  Ids identify rows, at most
one PENDING row holds an amount, an SMS transaction settles at most one intent, row locks exclude
each other, and keys of SMS transactions are distinct.  `Consistent.step` keeps all of it along every
step, whatever the programs do.
-/

namespace PaymentRecon

open Interleave

/-! ## Rows -/

/-- An intent that is committed, or flushed by the session given. -/
def World.Row (w : World) : Option Pid → PaymentIntent → Prop
  | none, i => i ∈ w.db.intents
  | some p, i => Write.insIntent i ∈ (w.txn p).writes

/-- An SMS transaction that is committed, or flushed by the session given. -/
def World.SmsRow (w : World) : Option Pid → SMSTransaction → Prop
  | none, r => r ∈ w.db.sms
  | some p, r => Write.insSms r ∈ (w.txn p).writes

structure IntentsOk (w : World) : Prop where
  nodup : (w.db.intents.map (·.id)).Nodup
  nodupFlushed : ∀ p, (insertedIds (w.txn p).writes).Nodup
  bound : ∀ o i, w.Row o i → i.id < w.db.nextIntent
  unique : ∀ o o' i i', w.Row o i → w.Row o' i' → i.id = i'.id → o = o'
  new : ∀ p i, w.Row (some p) i → i.status = .PENDING ∧ i.smsTransactionId = none
  holder : ∀ o o' i i' a, w.Row o i → w.Row o' i' → i.Holds a → i'.Holds a → i.id = i'.id
  pos : 1 ≤ w.db.nextIntent ∧ ∀ o i, w.Row o i → 1 ≤ i.id

structure LocksOk (w : World) : Prop where
  excl : ∀ p q id, id ∈ (w.txn p).locks → id ∈ (w.txn q).locks → p = q
  paid : ∀ p id sms, Write.payIntent id sms ∈ (w.txn p).writes → id ∈ (w.txn p).locks

/-- Attached SMS transactions. -/
structure SettledOk (w : World) : Prop where
  paid : ∀ i ∈ w.db.intents, ∀ t, i.smsTransactionId = some t → i.status = .PAID
  known : ∀ i ∈ w.db.intents, ∀ t, i.smsTransactionId = some t → ∃ r ∈ w.db.sms, r.id = t
  attached : ∀ i ∈ w.db.intents, ∀ j ∈ w.db.intents, ∀ t, i.smsTransactionId = some t →
    j.smsTransactionId = some t → i.id = j.id
  flying : ∀ p q id id' t, Write.payIntent id (some t) ∈ (w.txn p).writes →
    Write.payIntent id' (some t) ∈ (w.txn q).writes → id = id'
  cross : ∀ p id t, Write.payIntent id (some t) ∈ (w.txn p).writes → ∀ i ∈ w.db.intents,
    i.smsTransactionId = some t → i.id = id
  flyingKnown : ∀ p id t, Write.payIntent id (some t) ∈ (w.txn p).writes → ∃ r ∈ w.db.sms, r.id = t

structure SmsOk (w : World) : Prop where
  ids : (w.db.sms.map (·.id)).Nodup
  keys : (w.db.sms.map (·.key)).Nodup
  flushed : ∀ p, ((insertedSms (w.txn p).writes).map (·.id)).Nodup ∧
    ((insertedSms (w.txn p).writes).map (·.key)).Nodup
  bound : ∀ o r, w.SmsRow o r → r.id < w.db.nextSms
  unique : ∀ o o' r r', w.SmsRow o r → w.SmsRow o' r' → r.id = r'.id ∨ r.key = r'.key → o = o'

structure Consistent (w : World) : Prop where
  intents : IntentsOk w
  locks : LocksOk w
  settled : SettledOk w
  sms : SmsOk w

/-- Committed intents with one id are equal. -/
theorem Consistent.intent_eq {w : World} (h : Consistent w) {i j : PaymentIntent} (hi : i ∈ w.db.intents)
    (hj : j ∈ w.db.intents) (hid : i.id = j.id) : i = j :=
  List.inj_on_of_nodup_map h.intents.nodup hi hj hid

/-- No session is open. -/
def World.Closed (w : World) : Prop := ∀ p, w.txn p = Txn.empty

theorem World.empty_closed : World.empty.Closed := fun _ => rfl

/-- Committed tables that meet the constraints are consistent when no session is open. -/
theorem Consistent.of_closed {w : World} (h : w.Closed) (ids : (w.db.intents.map (·.id)).Nodup)
    (bound : ∀ i ∈ w.db.intents, i.id < w.db.nextIntent)
    (pos : 1 ≤ w.db.nextIntent ∧ ∀ i ∈ w.db.intents, 1 ≤ i.id)
    (holder : ∀ i ∈ w.db.intents, ∀ j ∈ w.db.intents, ∀ a, i.Holds a → j.Holds a → i.id = j.id)
    (paid : ∀ i ∈ w.db.intents, ∀ t, i.smsTransactionId = some t → i.status = .PAID)
    (known : ∀ i ∈ w.db.intents, ∀ t, i.smsTransactionId = some t → ∃ r ∈ w.db.sms, r.id = t)
    (attached : ∀ i ∈ w.db.intents, ∀ j ∈ w.db.intents, ∀ t, i.smsTransactionId = some t →
      j.smsTransactionId = some t → i.id = j.id)
    (smsIds : (w.db.sms.map (·.id)).Nodup) (keys : (w.db.sms.map (·.key)).Nodup)
    (smsBound : ∀ r ∈ w.db.sms, r.id < w.db.nextSms) : Consistent w := by
  have hw : ∀ p, (w.txn p).writes = [] := fun p => by rw [h p]; rfl
  have hrow : ∀ o i, w.Row o i → o = none ∧ i ∈ w.db.intents := by
    intro o i hi
    cases o with
    | none => exact ⟨rfl, hi⟩
    | some p =>
      have : Write.insIntent i ∈ (w.txn p).writes := hi
      rw [hw p] at this
      simp at this
  have hsms : ∀ o r, w.SmsRow o r → o = none ∧ r ∈ w.db.sms := by
    intro o r hr
    cases o with
    | none => exact ⟨rfl, hr⟩
    | some p =>
      have : Write.insSms r ∈ (w.txn p).writes := hr
      rw [hw p] at this
      simp at this
  refine ⟨⟨ids, ?_, ?_, ?_, ?_, ?_, pos.1, fun o i hi => pos.2 i (hrow o i hi).2⟩, ⟨?_, ?_⟩, ⟨paid, known, attached, ?_, ?_, ?_⟩,
    ⟨smsIds, keys, ?_, ?_, ?_⟩⟩
  · intro p; simp [hw p, insertedIds]
  · intro o i hi; exact bound i (hrow o i hi).2
  · intro o o' i i' hi hi' _; rw [(hrow o i hi).1, (hrow o' i' hi').1]
  · intro p i hi; exact absurd (hrow _ i hi).1 (by simp)
  · intro o o' i i' a hi hi' ha ha'
    exact holder i (hrow o i hi).2 i' (hrow o' i' hi').2 a ha ha'
  · intro p q id hp; simp [h p, Txn.empty] at hp
  · intro p id sms hp; simp [hw p] at hp
  · intro p q id id' t hp; simp [hw p] at hp
  · intro p id t hp; simp [hw p] at hp
  · intro p id t hp; simp [hw p] at hp
  · intro p; simp [hw p, insertedSms]
  · intro o r hr; exact smsBound r (hsms o r hr).2
  · intro o o' r r' hr hr' _; rw [(hsms o r hr).1, (hsms o' r' hr').1]

theorem Consistent.empty : Consistent World.empty := by
  refine .of_closed World.empty_closed ?_ ?_ ?_ ?_ ?_ ?_ ?_ ?_ ?_ ?_ <;> simp [World.empty, Db.empty]

/-! ## Steps that leave a part alone -/

variable {p : Pid} {w w' : World}

theorem SessionIs.mem_writes {locks : List Id} {ws : List Write}
    (h : SessionIs p w w' locks ((w.txn p).writes ++ ws)) {q : Pid} {x : Write}
    (hx : x ∈ (w'.txn q).writes) : x ∈ (w.txn q).writes ∨ q = p ∧ x ∈ ws := by
  by_cases hq : q = p
  · subst hq
    rw [h.writes] at hx
    exact (List.mem_append.mp hx).imp_right fun hx => ⟨rfl, hx⟩
  · rw [h.others q hq] at hx
    exact Or.inl hx

theorem SessionIs.mem_locks {ids : List Id} {writes : List Write}
    (h : SessionIs p w w' ((w.txn p).locks ++ ids) writes) {q : Pid} {id : Id}
    (hx : id ∈ (w'.txn q).locks) : id ∈ (w.txn q).locks ∨ q = p ∧ id ∈ ids := by
  by_cases hq : q = p
  · subst hq
    rw [h.locks] at hx
    exact (List.mem_append.mp hx).imp_right fun hx => ⟨rfl, hx⟩
  · rw [h.others q hq] at hx
    exact Or.inl hx

/-- The session `p` is over, the others stay. -/
theorem SessionIs.mem_closed (h : SessionIs p w w' [] []) {q : Pid} {x : Write}
    (hx : x ∈ (w'.txn q).writes) : q ≠ p ∧ x ∈ (w.txn q).writes := by
  by_cases hq : q = p
  · subst hq
    rw [h.writes] at hx
    simp at hx
  · rw [h.others q hq] at hx
    exact ⟨hq, hx⟩

theorem SessionIs.mem_closed_locks (h : SessionIs p w w' [] []) {q : Pid} {id : Id}
    (hx : id ∈ (w'.txn q).locks) : q ≠ p ∧ id ∈ (w.txn q).locks := by
  by_cases hq : q = p
  · subst hq
    rw [h.locks] at hx
    simp at hx
  · rw [h.others q hq] at hx
    exact ⟨hq, hx⟩

/-- Fewer rows, the same or larger sequence. -/
theorem IntentsOk.anti (h : IntentsOk w) (hnext : w.db.nextIntent ≤ w'.db.nextIntent)
    (hintents : w'.db.intents = w.db.intents)
    (hrow : ∀ q i, w'.Row (some q) i → w.Row (some q) i)
    (hnd : ∀ q, (insertedIds (w'.txn q).writes).Nodup) : IntentsOk w' := by
  have hr : ∀ o i, w'.Row o i → w.Row o i := by
    intro o i hi
    cases o with
    | none => exact (hintents ▸ hi : i ∈ w.db.intents)
    | some q => exact hrow q i hi
  refine ⟨hintents ▸ h.nodup, hnd, ?_, ?_, ?_, ?_, h.pos.1.trans hnext,
    fun o i hi => h.pos.2 o i (hr o i hi)⟩
  · intro o i hi
    exact lt_of_lt_of_le (h.bound o i (hr o i hi)) hnext
  · intro o o' i i' hi hi' hid
    exact h.unique o o' i i' (hr _ _ hi) (hr _ _ hi') hid
  · intro q i hi
    exact h.new q i (hr _ _ hi)
  · intro o o' i i' a hi hi' ha ha'
    exact h.holder o o' i i' a (hr _ _ hi) (hr _ _ hi') ha ha'

theorem SmsOk.anti (h : SmsOk w) (hnext : w.db.nextSms ≤ w'.db.nextSms)
    (hsms : w'.db.sms = w.db.sms) (hrow : ∀ q r, w'.SmsRow (some q) r → w.SmsRow (some q) r)
    (hnd : ∀ q, ((insertedSms (w'.txn q).writes).map (·.id)).Nodup ∧
      ((insertedSms (w'.txn q).writes).map (·.key)).Nodup) : SmsOk w' := by
  have hr : ∀ o r, w'.SmsRow o r → w.SmsRow o r := by
    intro o r hr
    cases o with
    | none => exact (hsms ▸ hr : r ∈ w.db.sms)
    | some q => exact hrow q r hr
  refine ⟨hsms ▸ h.ids, hsms ▸ h.keys, hnd, ?_, ?_⟩
  · intro o r hrow
    exact lt_of_lt_of_le (h.bound o r (hr o r hrow)) hnext
  · intro o o' r r' h1 h2 hid
    exact h.unique o o' r r' (hr _ _ h1) (hr _ _ h2) hid

theorem SettledOk.anti (h : SettledOk w) (hintents : w'.db.intents = w.db.intents)
    (hsms : w'.db.sms = w.db.sms)
    (hpay : ∀ q id t, Write.payIntent id (some t) ∈ (w'.txn q).writes →
      Write.payIntent id (some t) ∈ (w.txn q).writes) : SettledOk w' := by
  refine ⟨hintents ▸ h.paid, ?_, hintents ▸ h.attached, ?_, ?_, ?_⟩
  · rw [hintents, hsms]
    exact h.known
  · intro q q' id id' t hq hq'
    exact h.flying q q' id id' t (hpay _ _ _ hq) (hpay _ _ _ hq')
  · intro q id t hq i hi
    exact h.cross q id t (hpay _ _ _ hq) i (hintents ▸ hi)
  · intro q id t hq
    rw [hsms]
    exact h.flyingKnown q id t (hpay _ _ _ hq)

/-! ## The step lemmas -/

theorem insertedIds_minor {ws : List Write} (h : ∀ x ∈ ws, x.Minor) : insertedIds ws = [] := by
  rw [List.eq_nil_iff_forall_not_mem]
  intro id hid
  obtain ⟨i, hi, -⟩ := mem_insertedIds.mp hid
  exact h _ hi

theorem insertedSms_minor {ws : List Write} (h : ∀ x ∈ ws, x.Minor) : insertedSms ws = [] := by
  rw [List.eq_nil_iff_forall_not_mem]
  intro r hr
  exact h _ (mem_insertedSms.mp hr)

/-- What a session flushed, in terms of what the sessions had flushed before. -/
theorem SessionIs.inserted {locks : List Id} {ws : List Write}
    (h : SessionIs p w w' locks ((w.txn p).writes ++ ws)) (q : Pid) :
    insertedIds (w'.txn q).writes =
      insertedIds (w.txn q).writes ++ if q = p then insertedIds ws else [] := by
  split_ifs with hq
  · subst hq
    rw [h.writes, insertedIds_append]
  · rw [h.others q hq, List.append_nil]

theorem SessionIs.insertedSms {locks : List Id} {ws : List Write}
    (h : SessionIs p w w' locks ((w.txn p).writes ++ ws)) (q : Pid) :
    insertedSms (w'.txn q).writes =
      PaymentRecon.insertedSms (w.txn q).writes ++
        if q = p then PaymentRecon.insertedSms ws else [] := by
  split_ifs with hq
  · subst hq
    rw [h.writes, insertedSms_append]
  · rw [h.others q hq, List.append_nil]

/-- A session that is over flushed nothing. -/
theorem SessionIs.closed_writes (h : SessionIs p w w' [] []) (q : Pid) :
    (w'.txn q).writes = if q = p then [] else (w.txn q).writes := by
  split_ifs with hq
  · subst hq
    exact h.writes
  · rw [h.others q hq]

/-- Where a row comes from after a commit of `p`. -/
theorem row_commit (hdb : w'.db = w.db.commit (w.txn p).writes) (hs : SessionIs p w w' [] [])
    {o : Option Pid} {j : PaymentIntent} (hj : w'.Row o j) :
    ∃ o' i, w.Row o' i ∧ Evolves (w.txn p).writes i j ∧ (o' = o ∧ o ≠ some p ∨ o' = some p ∧ o = none) := by
  cases o with
  | none =>
    have hj' : j ∈ (w.db.commit (w.txn p).writes).intents := hdb ▸ hj
    obtain ⟨i, hi | hi, he⟩ := Db.mem_commit _ hj'
    · exact ⟨none, i, hi, he, Or.inl ⟨rfl, by simp⟩⟩
    · exact ⟨some p, i, hi, he, Or.inr ⟨rfl, rfl⟩⟩
  | some q =>
    obtain ⟨hq, hm⟩ := hs.mem_closed hj
    exact ⟨some q, j, hm, Evolves.refl _ _, Or.inl ⟨rfl, by simpa using hq⟩⟩

/-- A row that is PENDING after a commit held the same amount before. -/
theorem Evolves.holds {ws : List Write} {i j : PaymentIntent} {a : Amount} (h : Evolves ws i j)
    (hj : j.Holds a) : i.Holds a := by
  obtain ⟨hs, ha⟩ := hj
  refine ⟨?_, h.exact ▸ ha⟩
  rcases h.status with hst | ⟨hst, -⟩
  · exact hst ▸ hs
  · rw [hst] at hs
    exact absurd hs (by decide)

theorem IntentsOk.commit (h : IntentsOk w) (hdb : w'.db = w.db.commit (w.txn p).writes)
    (hs : SessionIs p w w' [] []) : IntentsOk w' := by
  have hnext : w'.db.nextIntent = w.db.nextIntent := by rw [hdb, (Db.commit_next _ _).2.1]
  refine ⟨?_, ?_, ?_, ?_, ?_, ?_, hnext ▸ h.pos.1, ?_⟩
  · rw [hdb, Db.commit_ids, List.nodup_append]
    refine ⟨h.nodup, h.nodupFlushed p, ?_⟩
    intro a ha b hb
    obtain ⟨i, hi, rfl⟩ := List.mem_map.mp ha
    obtain ⟨j, hj, rfl⟩ := mem_insertedIds.mp hb
    intro hid
    exact absurd (h.unique none (some p) i j hi hj hid) (by simp)
  · intro q
    rw [hs.closed_writes q]
    split_ifs
    · simp [insertedIds]
    · exact h.nodupFlushed q
  · intro o j hj
    obtain ⟨o', i, hi, he, -⟩ := row_commit hdb hs hj
    rw [hnext, he.id]
    exact h.bound o' i hi
  · intro o o' j j' hj hj' hid
    obtain ⟨o₁, i, hi, he, h1⟩ := row_commit hdb hs hj
    obtain ⟨o₂, i', hi', he', h2⟩ := row_commit hdb hs hj'
    have := h.unique o₁ o₂ i i' hi hi' (by rw [← he.id, ← he'.id, hid])
    subst this
    rcases h1 with ⟨rfl, hne⟩ | ⟨rfl, rfl⟩
    · rcases h2 with ⟨rfl, -⟩ | ⟨rfl, rfl⟩
      · rfl
      · exact absurd rfl hne
    · rcases h2 with ⟨rfl, hne⟩ | ⟨-, rfl⟩
      · exact absurd rfl hne
      · rfl
  · intro q j hj
    exact h.new q j (hs.mem_closed hj).2
  · intro o o' j j' a hj hj' ha ha'
    obtain ⟨o₁, i, hi, he, -⟩ := row_commit hdb hs hj
    obtain ⟨o₂, i', hi', he', -⟩ := row_commit hdb hs hj'
    rw [he.id, he'.id]
    exact h.holder o₁ o₂ i i' a hi hi' (he.holds ha) (he'.holds ha')
  · intro o j hj
    obtain ⟨o', i, hi, he, -⟩ := row_commit hdb hs hj
    rw [he.id]
    exact h.pos.2 o' i hi

theorem IntentsOk.store (h : IntentsOk w) {o : Order} {i : PaymentIntent}
    (notBusy : ¬ w.AmountBusy p i.exactAmount) (notTaken : ¬ w.AmountTaken p i.exactAmount)
    (hid : i.id = w.db.nextIntent) (pending : i.status = .PENDING)
    (noSms : i.smsTransactionId = none) (hintents : w'.db.intents = w.db.intents)
    (hnext : w'.db.nextIntent = w.db.nextIntent + 1)
    (hs : SessionIs p w w' (w.txn p).locks
      ((w.txn p).writes ++ [.insOrder o, .insIntent i])) : IntentsOk w' := by
  -- a row is an old row, or the new one
  have hrow : ∀ o j, w'.Row o j → w.Row o j ∨ o = some p ∧ j = i := by
    intro o j hj
    cases o with
    | none => exact Or.inl (hintents ▸ hj : j ∈ w.db.intents)
    | some q =>
      rcases hs.mem_writes hj with hj | ⟨rfl, hj⟩
      · exact Or.inl hj
      · exact Or.inr ⟨rfl, by simpa using hj⟩
  have hlt : ∀ o j, w.Row o j → j.id ≠ i.id := by
    intro o j hj heq
    exact absurd (h.bound o j hj) (by rw [heq, hid]; exact lt_irrefl _)
  have hfree : ∀ o j, w.Row o j → ¬ j.Holds i.exactAmount := by
    intro o j hj ha
    cases o with
    | none => exact notTaken (Or.inl ⟨j, hj, ha⟩)
    | some q =>
      by_cases hq : q = p
      · subst hq
        exact notTaken (Or.inr ⟨j, hj, ha⟩)
      · exact notBusy (Or.inl ⟨q, j, hq, hj, ha⟩)
  refine ⟨hintents ▸ h.nodup, ?_, ?_, ?_, ?_, ?_, ?_, ?_⟩
  · intro q
    rw [hs.inserted q]
    split_ifs with hq
    · subst hq
      rw [List.nodup_append]
      refine ⟨h.nodupFlushed q, by simp [insertedIds], ?_⟩
      intro a ha b hb
      obtain ⟨j, hj, rfl⟩ := mem_insertedIds.mp ha
      obtain rfl : b = i.id := by simpa [insertedIds] using hb
      exact hlt (some q) j hj
    · rw [List.append_nil]
      exact h.nodupFlushed q
  · intro o j hj
    rw [hnext]
    rcases hrow o j hj with hj | ⟨-, rfl⟩
    · exact (h.bound o j hj).trans (Int.lt_succ _)
    · rw [hid]
      exact Int.lt_succ _
  · intro o o' j j' hj hj' heq
    rcases hrow o j hj with hj | ⟨rfl, rfl⟩
    · rcases hrow o' j' hj' with hj' | ⟨rfl, rfl⟩
      · exact h.unique o o' j j' hj hj' heq
      · exact absurd heq (hlt o j hj)
    · rcases hrow o' j' hj' with hj' | ⟨rfl, rfl⟩
      · exact absurd heq.symm (hlt o' j' hj')
      · rfl
  · intro q j hj
    rcases hrow (some q) j hj with hj | ⟨-, rfl⟩
    · exact h.new q j hj
    · exact ⟨pending, noSms⟩
  · intro o o' j j' a hj hj' ha ha'
    rcases hrow o j hj with hj | ⟨rfl, rfl⟩
    · rcases hrow o' j' hj' with hj' | ⟨rfl, rfl⟩
      · exact h.holder o o' j j' a hj hj' ha ha'
      · obtain rfl := ha'.2
        exact absurd ha (hfree o j hj)
    · rcases hrow o' j' hj' with hj' | ⟨rfl, rfl⟩
      · obtain rfl := ha.2
        exact absurd ha' (hfree o' j' hj')
      · rfl
  · rw [hnext]
    exact h.pos.1.trans (Int.lt_succ _).le
  · intro o j hj
    rcases hrow o j hj with hj | ⟨-, rfl⟩
    · exact h.pos.2 o j hj
    · exact hid ▸ h.pos.1

theorem SmsOk.commit (h : SmsOk w) (hdb : w'.db = w.db.commit (w.txn p).writes)
    (hs : SessionIs p w w' [] []) : SmsOk w' := by
  have hsms : w'.db.sms = w.db.sms ++ insertedSms (w.txn p).writes := by rw [hdb, Db.commit_sms]
  have hnext : w'.db.nextSms = w.db.nextSms := by rw [hdb, (Db.commit_next _ _).2.2.1]
  have hrow : ∀ o r, w'.SmsRow o r →
      ∃ o', w.SmsRow o' r ∧ (o' = o ∧ o ≠ some p ∨ o' = some p ∧ o = none) := by
    intro o r hr
    cases o with
    | none =>
      have hr' : r ∈ w.db.sms ++ insertedSms (w.txn p).writes := hsms ▸ hr
      rcases List.mem_append.mp hr' with hr | hr
      · exact ⟨none, hr, Or.inl ⟨rfl, by simp⟩⟩
      · exact ⟨some p, mem_insertedSms.mp hr, Or.inr ⟨rfl, rfl⟩⟩
    | some q =>
      obtain ⟨hq, hm⟩ := hs.mem_closed hr
      exact ⟨some q, hm, Or.inl ⟨rfl, by simpa using hq⟩⟩
  refine ⟨?_, ?_, ?_, ?_, ?_⟩
  · rw [hsms, List.map_append, List.nodup_append]
    refine ⟨h.ids, (h.flushed p).1, ?_⟩
    intro a ha b hb
    obtain ⟨r, hr, rfl⟩ := List.mem_map.mp ha
    obtain ⟨r', hr', rfl⟩ := List.mem_map.mp hb
    intro hid
    exact absurd (h.unique none (some p) r r' hr (mem_insertedSms.mp hr') (Or.inl hid)) (by simp)
  · rw [hsms, List.map_append, List.nodup_append]
    refine ⟨h.keys, (h.flushed p).2, ?_⟩
    intro a ha b hb
    obtain ⟨r, hr, rfl⟩ := List.mem_map.mp ha
    obtain ⟨r', hr', rfl⟩ := List.mem_map.mp hb
    intro hk
    exact absurd (h.unique none (some p) r r' hr (mem_insertedSms.mp hr') (Or.inr hk)) (by simp)
  · intro q
    rw [hs.closed_writes q]
    split_ifs
    · simp [insertedSms]
    · exact h.flushed q
  · intro o r hr
    obtain ⟨o', hr', -⟩ := hrow o r hr
    rw [hnext]
    exact h.bound o' r hr'
  · intro o o' r r' hr hr' hid
    obtain ⟨o₁, hr₁, h1⟩ := hrow o r hr
    obtain ⟨o₂, hr₂, h2⟩ := hrow o' r' hr'
    have := h.unique o₁ o₂ r r' hr₁ hr₂ hid
    subst this
    rcases h1 with ⟨rfl, hne⟩ | ⟨rfl, rfl⟩
    · rcases h2 with ⟨rfl, -⟩ | ⟨rfl, rfl⟩
      · rfl
      · exact absurd rfl hne
    · rcases h2 with ⟨rfl, hne⟩ | ⟨-, rfl⟩
      · exact absurd rfl hne
      · rfl

theorem SmsOk.record (h : SmsOk w) {r : SMSTransaction} (notBusy : ¬ w.KeyBusy p r.key)
    (notTaken : ¬ w.KeyTaken p r.key) (hid : r.id = w.db.nextSms) (hsms : w'.db.sms = w.db.sms)
    (hnext : w'.db.nextSms = w.db.nextSms + 1)
    (hs : SessionIs p w w' (w.txn p).locks ((w.txn p).writes ++ [.insSms r])) : SmsOk w' := by
  have hrow : ∀ o x, w'.SmsRow o x → w.SmsRow o x ∨ o = some p ∧ x = r := by
    intro o x hx
    cases o with
    | none => exact Or.inl (hsms ▸ hx : x ∈ w.db.sms)
    | some q =>
      rcases hs.mem_writes hx with hx | ⟨rfl, hx⟩
      · exact Or.inl hx
      · exact Or.inr ⟨rfl, by simpa using hx⟩
  have hlt : ∀ o x, w.SmsRow o x → x.id ≠ r.id := by
    intro o x hx heq
    exact absurd (h.bound o x hx) (by rw [heq, hid]; exact lt_irrefl _)
  have hkey : ∀ o x, w.SmsRow o x → x.key ≠ r.key := by
    intro o x hx heq
    cases o with
    | none => exact notTaken (Or.inl ⟨x, hx, heq⟩)
    | some q =>
      by_cases hq : q = p
      · subst hq
        exact notTaken (Or.inr ⟨x, hx, heq⟩)
      · exact notBusy ⟨q, x, hq, hx, heq⟩
  refine ⟨hsms ▸ h.ids, hsms ▸ h.keys, ?_, ?_, ?_⟩
  · intro q
    rw [hs.insertedSms q]
    split_ifs with hq
    · subst hq
      have h1 : insertedSms [Write.insSms r] = [r] := rfl
      rw [h1, List.map_append, List.map_append, List.nodup_append, List.nodup_append]
      refine ⟨⟨(h.flushed q).1, by simp, ?_⟩, (h.flushed q).2, by simp, ?_⟩
      · intro a ha b hb
        obtain ⟨x, hx, rfl⟩ := List.mem_map.mp ha
        obtain rfl : b = r.id := by simpa using hb
        exact hlt (some q) x (mem_insertedSms.mp hx)
      · intro a ha b hb
        obtain ⟨x, hx, rfl⟩ := List.mem_map.mp ha
        obtain rfl : b = r.key := by simpa using hb
        exact hkey (some q) x (mem_insertedSms.mp hx)
    · rw [List.append_nil]
      exact h.flushed q
  · intro o x hx
    rw [hnext]
    rcases hrow o x hx with hx | ⟨-, rfl⟩
    · exact (h.bound o x hx).trans (Int.lt_succ _)
    · rw [hid]
      exact Int.lt_succ _
  · intro o o' x x' hx hx' heq
    rcases hrow o x hx with hx | ⟨rfl, rfl⟩
    · rcases hrow o' x' hx' with hx' | ⟨rfl, rfl⟩
      · exact h.unique o o' x x' hx hx' heq
      · exact absurd heq (not_or.mpr ⟨hlt o x hx, hkey o x hx⟩)
    · rcases hrow o' x' hx' with hx' | ⟨rfl, rfl⟩
      · exact absurd heq (not_or.mpr ⟨(hlt o' x' hx').symm, (hkey o' x' hx').symm⟩)
      · rfl

theorem SettledOk.commit (h : SettledOk w) (hi : IntentsOk w)
    (hdb : w'.db = w.db.commit (w.txn p).writes) (hs : SessionIs p w w' [] []) :
    SettledOk w' := by
  have hmem : ∀ j ∈ w'.db.intents, ∃ i, (i ∈ w.db.intents ∨ w.Row (some p) i) ∧
      Evolves (w.txn p).writes i j := by
    intro j hj
    rw [hdb] at hj
    exact Db.mem_commit _ hj
  -- an attached SMS transaction was attached before, or the session attached it
  have hsms : ∀ j ∈ w'.db.intents, ∀ t, j.smsTransactionId = some t →
      (∃ i ∈ w.db.intents, i.id = j.id ∧ i.smsTransactionId = some t ∧
        (i.status = .PAID → j.status = .PAID)) ∨
      Write.payIntent j.id (some t) ∈ (w.txn p).writes ∧ j.status = .PAID := by
    intro j hj t ht
    obtain ⟨i, hrow, he⟩ := hmem j hj
    rcases he.sms with hsame | ⟨t', hpay, ht', hpaid⟩
    · rcases hrow with hrow | hrow
      · refine Or.inl ⟨i, hrow, he.id.symm, hsame ▸ ht, ?_⟩
        intro hp
        rcases he.status with hst | ⟨hst, -⟩
        · rw [hst, hp]
        · exact hst
      · rw [hsame, (hi.new p i hrow).2] at ht
        exact absurd ht (by simp)
    · rw [ht] at ht'
      cases ht'
      exact Or.inr ⟨he.id ▸ hpay, hpaid⟩
  have hold : ∀ r ∈ w.db.sms, r ∈ w'.db.sms := by
    intro r hr
    rw [hdb, Db.commit_sms]
    exact List.mem_append_left _ hr
  have hpay : ∀ q id t, Write.payIntent id (some t) ∈ (w'.txn q).writes →
      Write.payIntent id (some t) ∈ (w.txn q).writes := fun q id t hm => (hs.mem_closed hm).2
  refine ⟨?_, ?_, ?_, ?_, ?_, ?_⟩
  · intro j hj t ht
    rcases hsms j hj t ht with ⟨i, hmem, -, hit, himp⟩ | ⟨-, hp⟩
    · exact himp (h.paid i hmem t hit)
    · exact hp
  · intro j hj t ht
    rcases hsms j hj t ht with ⟨i, hmem, -, hit, -⟩ | ⟨hp, -⟩
    · obtain ⟨r, hr, hrt⟩ := h.known i hmem t hit
      exact ⟨r, hold r hr, hrt⟩
    · obtain ⟨r, hr, hrt⟩ := h.flyingKnown p _ t hp
      exact ⟨r, hold r hr, hrt⟩
  · intro j hj j' hj' t ht ht'
    rcases hsms j hj t ht with ⟨i, hmem, hid, hit, -⟩ | ⟨hp, -⟩
    · rcases hsms j' hj' t ht' with ⟨i', hmem', hid', hit', -⟩ | ⟨hp', -⟩
      · rw [← hid, ← hid']
        exact h.attached i hmem i' hmem' t hit hit'
      · rw [← hid]
        exact h.cross p _ t hp' i hmem hit
    · rcases hsms j' hj' t ht' with ⟨i', hmem', hid', hit', -⟩ | ⟨hp', -⟩
      · rw [← hid']
        exact (h.cross p _ t hp i' hmem' hit').symm
      · exact h.flying p p _ _ t hp hp'
  · intro q q' id id' t hq hq'
    exact h.flying q q' id id' t (hpay _ _ _ hq) (hpay _ _ _ hq')
  · intro q id t hq j hj ht
    rcases hsms j hj t ht with ⟨i, hmem, hid, hit, -⟩ | ⟨hp, -⟩
    · rw [← hid]
      exact h.cross q id t (hpay _ _ _ hq) i hmem hit
    · exact h.flying p q _ _ t hp (hpay _ _ _ hq)
  · intro q id t hq
    obtain ⟨r, hr, hrt⟩ := h.flyingKnown q id t (hpay _ _ _ hq)
    exact ⟨r, hold r hr, hrt⟩

theorem SettledOk.settle (h : SettledOk w) {i : PaymentIntent} {s : Option Id}
    (notBusy : ∀ n ∈ s, ¬ w.SmsBusy p n) (notTaken : ∀ n ∈ s, ¬ w.SmsTaken p i.id n)
    (known : ∀ n ∈ s, ∃ r ∈ w.db.sms, r.id = n) (hdb : w'.db = w.db)
    (hs : SessionIs p w w' ((w.txn p).locks ++ [i.id])
      ((w.txn p).writes ++ [.payIntent i.id s, .payOrder i.orderId])) : SettledOk w' := by
  have hmem : ∀ q id t, Write.payIntent id (some t) ∈ (w'.txn q).writes →
      Write.payIntent id (some t) ∈ (w.txn q).writes ∨ q = p ∧ id = i.id ∧ s = some t := by
    intro q id t hq
    rcases hs.mem_writes hq with hq | ⟨rfl, hq⟩
    · exact Or.inl hq
    · simp only [List.mem_cons, Write.payIntent.injEq, reduceCtorEq, List.not_mem_nil, or_false] at hq
      exact Or.inr ⟨rfl, hq.1, hq.2.symm⟩
  -- what another write or row says about the SMS transaction that is being attached
  have hnew : ∀ q id t, s = some t → Write.payIntent id (some t) ∈ (w.txn q).writes →
      id = i.id := by
    intro q id t hst hq
    by_cases hqp : q = p
    · subst hqp
      by_contra hne
      exact notTaken t (by simp [hst]) (Or.inr ⟨id, hne, hq⟩)
    · exact absurd ⟨q, id, hqp, hq⟩ (notBusy t (by simp [hst]))
  refine ⟨hdb ▸ h.paid, ?_, hdb ▸ h.attached, ?_, ?_, ?_⟩
  · rw [hdb]
    exact h.known
  · intro q q' id id' t hq hq'
    rcases hmem q id t hq with hq | ⟨rfl, rfl, hst⟩
    · rcases hmem q' id' t hq' with hq' | ⟨rfl, rfl, hst⟩
      · exact h.flying q q' id id' t hq hq'
      · exact hnew q id t hst hq
    · rcases hmem q' id' t hq' with hq' | ⟨rfl, rfl, -⟩
      · exact (hnew q' id' t hst hq').symm
      · rfl
  · intro q id t hq j hj ht
    rw [hdb] at hj
    rcases hmem q id t hq with hq | ⟨rfl, rfl, hst⟩
    · exact h.cross q id t hq j hj ht
    · by_contra hne
      exact notTaken t (by simp [hst]) (Or.inl ⟨j, hj, hne, ht⟩)
  · intro q id t hq
    rw [hdb]
    rcases hmem q id t hq with hq | ⟨-, -, hst⟩
    · exact h.flyingKnown q id t hq
    · exact known t (by simp [hst])

theorem LocksOk.grow (h : LocksOk w) (ids : List Id) (ws : List Write)
    (free : ∀ id ∈ ids, ¬ w.LockedByOther p id)
    (hpay : ∀ id sms, Write.payIntent id sms ∈ ws → id ∈ ids)
    (hs : SessionIs p w w' ((w.txn p).locks ++ ids) ((w.txn p).writes ++ ws)) : LocksOk w' := by
  constructor
  · intro q q' id hq hq'
    rcases hs.mem_locks hq with hq | ⟨rfl, hq⟩
    · rcases hs.mem_locks hq' with hq' | ⟨rfl, hq'⟩
      · exact h.excl q q' id hq hq'
      · by_contra hne
        exact free id hq' ⟨q, hne, hq⟩
    · rcases hs.mem_locks hq' with hq' | ⟨rfl, hq'⟩
      · by_contra hne
        exact free id hq ⟨q', fun heq => hne heq.symm, hq'⟩
      · rfl
  · intro q id sms hq
    by_cases hqp : q = p
    · subst hqp
      rw [hs.locks]
      rw [hs.writes] at hq
      rcases List.mem_append.mp hq with hq | hq
      · exact List.mem_append_left _ (h.paid q id sms hq)
      · exact List.mem_append_right _ (hpay id sms hq)
    · rw [hs.others q hqp] at hq ⊢
      exact h.paid q id sms hq

theorem LocksOk.close (h : LocksOk w) (hs : SessionIs p w w' [] []) : LocksOk w' := by
  constructor
  · intro q q' id hq hq'
    exact h.excl q q' id (hs.mem_closed_locks hq).2 (hs.mem_closed_locks hq').2
  · intro q id sms hq
    obtain ⟨hqp, hq⟩ := hs.mem_closed hq
    rw [hs.others q hqp]
    exact h.paid q id sms hq

/-- **Step lemma** for the tables. -/
theorem Consistent.tableStep (h : Consistent w) (hs : TableStep p w w') : Consistent w' := by
  obtain ⟨hi, hl, ht, hm⟩ := h
  cases hs with
  | aside ws intents sms nextIntent nextSms minor session =>
    have hrow : ∀ q x, ¬ x.Minor → x ∈ (w'.txn q).writes → x ∈ (w.txn q).writes := by
      intro q x hx hq
      rcases session.mem_writes hq with hq | ⟨-, hq⟩
      · exact hq
      · exact absurd (minor x hq) hx
    refine ⟨?_, ?_, ?_, ?_⟩
    · refine hi.anti nextIntent intents (fun q i => hrow q _ (by simp [Write.Minor])) ?_
      intro q
      rw [session.inserted q, insertedIds_minor minor]
      simpa using hi.nodupFlushed q
    · refine hl.grow [] ws (by simp) ?_ (by simpa using session)
      intro id s hx
      exact absurd (minor _ hx) (by simp [Write.Minor])
    · exact ht.anti intents sms fun q id t => hrow q _ (by simp [Write.Minor])
    · refine hm.anti nextSms sms (fun q i => hrow q _ (by simp [Write.Minor])) ?_
      intro q
      rw [session.insertedSms q, insertedSms_minor minor]
      simpa using hm.flushed q
  | lock ids free db session =>
    have hw : ∀ q, (w'.txn q).writes = (w.txn q).writes := by
      intro q
      by_cases hq : q = p
      · subst hq
        exact session.writes
      · rw [session.others q hq]
    refine ⟨?_, ?_, ?_, ?_⟩
    · refine hi.anti (by rw [db]) (by rw [db]) ?_ fun q => by rw [hw q]; exact hi.nodupFlushed q
      intro q i hq
      show Write.insIntent i ∈ (w.txn q).writes
      rw [← hw q]
      exact hq
    · exact hl.grow _ [] free (by simp) (by simpa using session)
    · exact ht.anti (by rw [db]) (by rw [db]) fun q id t hq => hw q ▸ hq
    · refine hm.anti (by rw [db]) (by rw [db]) ?_ fun q => by rw [hw q]; exact hm.flushed q
      intro q r hq
      show Write.insSms r ∈ (w.txn q).writes
      rw [← hw q]
      exact hq
  | store o i notBusy notTaken id pending noSms intents sms nextIntent nextSms session =>
    have hrow : ∀ q x, x ∈ (w'.txn q).writes → x ∈ (w.txn q).writes ∨ x = .insOrder o ∨
        x = .insIntent i := by
      intro q x hq
      rcases session.mem_writes hq with hq | ⟨-, hq⟩
      · exact Or.inl hq
      · exact Or.inr (by simpa using hq)
    refine ⟨hi.store notBusy notTaken id pending noSms intents nextIntent session, ?_, ?_, ?_⟩
    · refine hl.grow [] _ (by simp) ?_ (by simpa using session)
      intro id s hx
      simp at hx
    · refine ht.anti intents sms fun q id t hq => ?_
      simpa using hrow q _ hq
    · refine hm.anti (by rw [nextSms]) sms (fun q r hq => by simpa [World.SmsRow] using hrow q _ hq) ?_
      intro q
      have h0 : insertedSms [Write.insOrder o, Write.insIntent i] = [] := rfl
      rw [session.insertedSms q, h0]
      simpa using hm.flushed q
  | settle i s free notBusy notTaken known db session =>
    have hrow : ∀ q x, x ∈ (w'.txn q).writes → x ∈ (w.txn q).writes ∨ x = .payIntent i.id s ∨
        x = .payOrder i.orderId := by
      intro q x hq
      rcases session.mem_writes hq with hq | ⟨-, hq⟩
      · exact Or.inl hq
      · exact Or.inr (by simpa using hq)
    refine ⟨?_, ?_, ht.settle notBusy notTaken known db session, ?_⟩
    · refine hi.anti (by rw [db]) (by rw [db]) (fun q j hq => by simpa [World.Row] using hrow q _ hq) ?_
      intro q
      have h0 : insertedIds [Write.payIntent i.id s, Write.payOrder i.orderId] = [] := rfl
      rw [session.inserted q, h0]
      simpa using hi.nodupFlushed q
    · refine hl.grow _ _ (by simpa using free) ?_ session
      intro id s' hx
      simpa using (by simpa using hx : id = i.id ∧ s' = s).1
    · refine hm.anti (by rw [db]) (by rw [db]) (fun q r hq => by simpa [World.SmsRow] using hrow q _ hq) ?_
      intro q
      have h0 : insertedSms [Write.payIntent i.id s, Write.payOrder i.orderId] = [] := rfl
      rw [session.insertedSms q, h0]
      simpa using hm.flushed q
  | record r notBusy notTaken id intents sms nextIntent nextSms session =>
    have hrow : ∀ q x, x ∈ (w'.txn q).writes → x ∈ (w.txn q).writes ∨ x = .insSms r := by
      intro q x hq
      rcases session.mem_writes hq with hq | ⟨-, hq⟩
      · exact Or.inl hq
      · exact Or.inr (by simpa using hq)
    refine ⟨?_, ?_, ?_, hm.record notBusy notTaken id sms nextSms session⟩
    · refine hi.anti (by rw [nextIntent]) intents (fun q j hq => by simpa [World.Row] using hrow q _ hq) ?_
      intro q
      have h0 : insertedIds [Write.insSms r] = [] := rfl
      rw [session.inserted q, h0]
      simpa using hi.nodupFlushed q
    · refine hl.grow [] _ (by simp) ?_ (by simpa using session)
      intro id s hx
      simp at hx
    · refine ht.anti intents sms fun q id t hq => ?_
      simpa using hrow q _ hq
  | commit db session =>
    exact ⟨hi.commit db session, hl.close session, ht.commit hi db session, hm.commit db session⟩
  | rollback db session =>
    refine ⟨?_, hl.close session, ?_, ?_⟩
    · refine hi.anti (by rw [db]) (by rw [db]) (fun q i hq => (session.mem_closed hq).2) ?_
      intro q
      rw [session.closed_writes q]
      split_ifs
      · simp [insertedIds]
      · exact hi.nodupFlushed q
    · exact ht.anti (by rw [db]) (by rw [db]) fun q id t hq => (session.mem_closed hq).2
    · refine hm.anti (by rw [db]) (by rw [db]) (fun q r hq => (session.mem_closed hq).2) ?_
      intro q
      rw [session.closed_writes q]
      split_ifs
      · simp [insertedSms]
      · exact hm.flushed q

/-- **Run lemma** for the tables. -/
theorem Consistent.run {c c' : State} {tr : List Label} (h : Consistent c.world)
    (hr : Lts.Run Steps c tr c') : Consistent c'.world :=
  hr.inv (fun c => Consistent c.world) h fun _ _ _ hc hs =>
    let ⟨_, ht⟩ := step_tableStep hs
    hc.tableStep ht

end PaymentRecon
