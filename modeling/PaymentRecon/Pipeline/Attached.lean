import PaymentRecon.Pipeline.Programs

/-!
# Attached — the amounts of attached SMS transactions

A settlement flushes the id of an SMS transaction into a PENDING intent whose lock the session holds,
and the payload it was told by is genuine; so the amounts agree, in the flushed writes and, after the
commit, in the table.
-/

namespace PaymentRecon

open Interleave Streams

namespace Pipeline

variable {p : Pid} {w w' : World} {a : Label} {past : List Label}

/-- The intent `i` has the amount of the SMS transaction `t`. -/
def Matches (w : World) (i : PaymentIntent) (t : Id) : Prop :=
  ∃ r ∈ w.db.sms, r.id = t ∧ i.exactAmount = r.smsAmount

structure AttachedOk (w : World) : Prop where
  attached : ∀ i ∈ w.db.intents, ∀ t, i.smsTransactionId = some t → Matches w i t
  flying : ∀ p id t, Write.payIntent id (some t) ∈ (w.txn p).writes →
    ∃ k ∈ w.db.intents, k.id = id ∧ Matches w k t
  unpaid : ∀ p id t, Write.payIntent id t ∈ (w.txn p).writes →
    ∀ i ∈ w.db.intents, i.id = id → i.status ≠ .PAID

/-- The promise under which a settlement is flushed. -/
theorem lawful_flushPaid {i : PaymentIntent} {t : Option Id}
    (h : Lawful p w past (.flushPaid i t)) : w.Held p i ∧ i.status ≠ .PAID ∧
      ∀ n ∈ t, ∃ r ∈ w.db.sms, r.id = n ∧ i.Holds r.smsAmount ∧
        ∃ traceId, Got p past (transactionData r.id traceId r.smsAmount) := by
  cases t with
  | none =>
    obtain ⟨hheld, hs⟩ := h
    refine ⟨hheld, ?_, by simp⟩
    rcases hs with hs | hs <;> simp [hs]
  | some t =>
    obtain ⟨hheld, r, hr, hid, hholds, hgot⟩ := h
    refine ⟨hheld, by simp [hholds.1], ?_⟩
    rintro n hn
    obtain rfl : t = n := by simpa using hn
    exact ⟨r, hr, hid, hholds, hgot⟩

theorem Matches.step (h : system.WStep w a w') {i j : PaymentIntent} {t : Id} (hm : Matches w i t)
    (heq : j.exactAmount = i.exactAmount) : Matches w' j t := by
  obtain ⟨r, hr, hid, ha⟩ := hm
  exact ⟨r, wstep_sms h hr, hid, heq.trans ha⟩

theorem AttachedOk.step (h : AttachedOk w) (hc : Consistent w) (hw : system.WStep w a w')
    (hg : logic.Guarded w past a w') : AttachedOk w' := by
  obtain ⟨q, hq, -⟩ := wstep_tableStep (p := 0) hw
  have hflushed : ∀ p id t, Write.payIntent id t ∈ (w'.txn p).writes →
      Write.payIntent id t ∈ (w.txn p).writes ∨ ∃ i, i.id = id ∧ Lawful p w past (.flushPaid i t) := by
    intro p id t hx
    rcases wstep_payIntent hw hx with hx | ⟨f, i, r, rfl, hid⟩
    · exact Or.inl hx
    · exact Or.inr ⟨i, hid, hg.2 p f _ r rfl⟩
  -- what is flushed now concerns an unpaid row
  have hopen : ∀ p id t, Write.payIntent id t ∈ (w'.txn p).writes →
      ∀ i ∈ w.db.intents, i.id = id → i.status ≠ .PAID := by
    intro p id t hx i hi hid
    rcases hflushed p id t hx with hx | ⟨k, hk, hl⟩
    · exact h.unpaid p id t hx i hi hid
    · obtain ⟨hheld, hs, -⟩ := lawful_flushPaid hl
      rwa [hc.intent_eq hi hheld.1 (hid.trans hk.symm)]
  refine ⟨?_, ?_, ?_⟩
  · intro j hj t ht
    rcases hq.intents with heq | heq
    · rw [heq] at hj
      exact (h.attached j hj t ht).step hw rfl
    · rw [heq] at hj
      obtain ⟨i, hi, he⟩ := Db.mem_commit _ hj
      rcases he.sms with hsame | ⟨n, hn, hjn, -⟩
      · rcases hi with hi | hi
        · exact (h.attached i hi t (hsame ▸ ht)).step hw he.exact
        · have hnone := (hc.intents.new q i hi).2
          rw [← hsame, ht] at hnone
          exact absurd hnone (by simp)
      · obtain rfl : n = t := by simpa [hjn] using ht
        obtain ⟨k, hk, hkid, hm⟩ := h.flying q _ _ hn
        rcases hi with hi | hi
        · rw [← hc.intent_eq hk hi hkid] at he
          exact hm.step hw he.exact
        · -- a row that is committed is not flushed as new
          exact absurd (hc.intents.unique none (some q) k i hk hi hkid) (by simp)
  · intro p id t hx
    have hk : ∃ k ∈ w.db.intents, k.id = id ∧ Matches w k t := by
      rcases hflushed p id (some t) hx with hx | ⟨i, hid, hl⟩
      · exact h.flying p id t hx
      · obtain ⟨hheld, -, hr⟩ := lawful_flushPaid hl
        obtain ⟨r, hr, hrid, hholds, -⟩ := hr t rfl
        exact ⟨i, hheld.1, hid, r, hr, hrid, hholds.2⟩
    obtain ⟨k, hk, hkid, hm⟩ := hk
    obtain ⟨j, hj, hjid, hja⟩ := hq.intent_mono hk
    exact ⟨j, hj, hjid.trans hkid, hm.step hw hja⟩
  · intro p id t hx j hj hjid
    rcases hq.settles with heq | ⟨hdb, hs⟩
    · exact hopen p id t hx j (heq ▸ hj) hjid
    · obtain ⟨hpq, hxold⟩ := hs.mem_closed hx
      rw [hdb] at hj
      obtain ⟨i, hi, he⟩ := Db.mem_commit _ hj
      rcases he.status with hst | ⟨-, n, hn⟩
      · rw [hst]
        rcases hi with hi | hi
        · exact hopen p id t hx i hi (he.id.symm.trans hjid)
        · simp [(hc.intents.new q i hi).1]
      · -- two sessions would hold the lock of the row
        have hlock := hc.locks.paid p id t hxold
        have hlock' := hc.locks.paid q i.id n hn
        rw [← he.id, hjid] at hlock'
        exact absurd (hc.locks.excl p q id hlock hlock') hpq

theorem AttachedOk.empty : AttachedOk World.empty := by
  refine ⟨?_, ?_, ?_⟩ <;> simp [World.empty, Db.empty, Txn.empty]

/-- An attached SMS transaction stays attached. -/
theorem AttachedOk.stays (h : AttachedOk w) (hc : Consistent w) (hw : system.WStep w a w')
    {i : PaymentIntent} (hi : i ∈ w.db.intents) {t : Id} (ht : i.smsTransactionId = some t) :
    i ∈ w'.db.intents := by
  obtain ⟨q, hq, -⟩ := wstep_tableStep (p := 0) hw
  rcases hq.intents with heq | heq
  · exact heq ▸ hi
  · rw [heq]
    refine Db.commit_unpaid hi fun n hn => ?_
    exact h.unpaid q _ n hn i hi rfl (hc.settled.paid i hi t ht)

/-- **Amount-exact, single use of each SMS.**  In every state that the requests reach, an intent with
an SMS transaction is PAID and has its amount, and no two intents have the same one. -/
theorem attached_exact_and_unique {c : State} {tr : List Label}
    (hr : Lts.Run (StepsIf ByStream) (.init World.empty) tr c) :
    (∀ i ∈ c.world.db.intents, ∀ t, i.smsTransactionId = some t →
      i.status = .PAID ∧ ∃ r ∈ c.world.db.sms, r.id = t ∧ i.exactAmount = r.smsAmount) ∧
    ∀ i ∈ c.world.db.intents, ∀ j ∈ c.world.db.intents, ∀ t, i.smsTransactionId = some t →
      j.smsTransactionId = some t → i = j := by
  have hr' : Lts.Run (Lts.restrict Steps fun c a c' => Allows ByStream c a c' ∧ True)
      (.init World.empty) tr c := hr.mono fun _ _ _ hs => ⟨hs.1, hs.2, trivial⟩
  obtain ⟨hH, hA⟩ := lawful_run (J := fun c => AttachedOk c.world) Provenance.empty hr'
    AttachedOk.empty fun c a c' hI hJ hs hg _ => hJ.step hI.consistent hs.wstep.1 hg
  have hcons : Consistent c.world := hH.1.consistent
  refine ⟨fun i hi t ht => ⟨hcons.settled.paid i hi t ht, hA.attached i hi t ht⟩, ?_⟩
  intro i hi j hj t hti htj
  exact hcons.intent_eq hi hj (hcons.settled.attached i hi j hj t hti htj)

theorem attached_exact_and_unique_sample : ∃ (c : State) (tr : List Label),
    Lts.Run (StepsIf ByStream) (.init World.empty) tr c ∧
      (∃ i ∈ c.world.db.intents, i.smsTransactionId = some 1) ∧
      ∀ i ∈ c.world.db.intents, ∀ t, i.smsTransactionId = some t →
        i.status = .PAID ∧ ∃ r ∈ c.world.db.sms, r.id = t ∧ i.exactAmount = r.smsAmount := by
  obtain ⟨tr, c, hr, htest, -⟩ := plays_run 4 byStream
    (Script.createDown 0 1500001 ++ Script.webhook 1 1500001 ++ Script.relay 2 ++ Script.pay 3)
    (fun c => c.world.db.intents.any fun i => i.smsTransactionId = some 1) (by decide +kernel)
    World.empty_closed
  have hr' := hr.mono fun _ _ _ => byStream_steps
  exact ⟨c, tr, hr', by simpa using htest, (attached_exact_and_unique hr').1⟩

end Pipeline

end PaymentRecon
