import PaymentRecon.Pool.Programs

/-!
# Linked — the rows and the stages of the requests

What a session flushed and did not commit is told by the stage of its request, and the other way round.
A row is live as long as it is PENDING and nobody moved its amount; only a successful insertion makes
an amount live.
-/

namespace PaymentRecon

open Interleave Rely SetStore

namespace Pool

variable {p q : Pid} {w w' : World} {past : List Label} {a : Amount}

/-! ## Rows -/

/-- What the sessions flushed agrees with the stages of the requests. -/
structure Linked (w : World) (past : List Label) : Prop where
  inserted : ∀ p i, Write.insIntent i ∈ (w.txn p).writes → stageOf p past = .stored i.exactAmount
  paying : ∀ p id t, Write.payIntent id t ∈ (w.txn p).writes →
    ∃ i, i.id = id ∧ (stageOf p past).Settles i
  settling : ∀ p i, (stageOf p past).Settles i → i ∈ w.db.intents ∧ i.status = .PENDING ∧
    ∃ t, Write.payIntent i.id t ∈ (w.txn p).writes
  statuses : ∀ i ∈ w.db.intents, i.status = .PENDING ∨ i.status = .PAID

/-- The writes of the session after the operation. -/
theorem outage_writes {boot : Prop} {f : Fault} {op : Op} {r : Except Exc op.Ret}
    (hx : exec f p op w r w') (hc : (logic boot).cond w past (.run p f op r) w') :
    (w'.txn p).writes = op.writesAfter p w r := by
  rcases outage_cases hx hc with ⟨-, hrun⟩ | ⟨-, hop, rfl, rfl⟩
  · exact (run_effect hrun).writes
  · cases op <;> first
      | exact hop.elim
      | simp [Op.writesAfter, Op.flushed]

theorem mem_writesAfter {op : Op} {r : Except Exc op.Ret} {x : Write}
    (h : x ∈ op.writesAfter p w r) :
    op ≠ .commit ∧ op ≠ .rollback ∧ (x ∈ (w.txn p).writes ∨ x ∈ op.flushed w r) := by
  cases op with
  | commit => simp [Op.writesAfter] at h
  | rollback => simp [Op.writesAfter] at h
  | _ => exact ⟨by simp, by simp, List.mem_append.mp h⟩

theorem writesAfter_mono {op : Op} {r : Except Exc op.Ret} {x : Write} (h1 : op ≠ .commit)
    (h2 : op ≠ .rollback) (h : x ∈ (w.txn p).writes) : x ∈ op.writesAfter p w r := by
  cases op with
  | commit => exact absurd rfl h1
  | rollback => exact absurd rfl h2
  | _ => exact List.mem_append_left _ h

theorem flushed_insIntent {op : Op} {r : Except Exc op.Ret} {i : PaymentIntent}
    (h : Write.insIntent i ∈ op.flushed w r) : ∀ s : Stage, s.next op r = .stored i.exactAmount := by
  cases op with
  | insertOrder u m a =>
    cases r with
    | ok o =>
      obtain rfl : i = w.newIntent m a := by simpa [Op.flushed] using h
      exact fun _ => rfl
    | error e => simp [Op.flushed] at h
  | flushPaid j t | insertSms _ _ _ _ _ | insertEvent _ => cases r <;> simp [Op.flushed] at h
  | _ => simp [Op.flushed] at h

theorem flushed_payIntent {op : Op} {r : Except Exc op.Ret} {id : Id} {t : Option Id}
    (h : Write.payIntent id t ∈ op.flushed w r) :
    ∃ i : PaymentIntent, i.id = id ∧ ∀ s : Stage, s.next op r = .matched i := by
  cases op with
  | flushPaid i s =>
    cases r with
    | ok u =>
      obtain ⟨rfl, rfl⟩ : id = i.id ∧ t = s := by simpa [Op.flushed] using h
      exact ⟨i, rfl, fun _ => rfl⟩
    | error e => simp [Op.flushed] at h
  | insertOrder _ _ _ | insertSms _ _ _ _ _ | insertEvent _ => cases r <;> simp [Op.flushed] at h
  | _ => simp [Op.flushed] at h

section Next

variable {boot : Prop} {op : Op} {r : Except Exc op.Ret} {i : PaymentIntent}

/-- A flushed order stays until the session ends. -/
theorem next_stored (hg : Lawful boot p w past op) (hs : stageOf p past = .stored a)
    (h1 : op ≠ .commit) (h2 : op ≠ .rollback) : (stageOf p past).next op r = .stored a := by
  cases op with
  | commit => exact absurd rfl h1
  | rollback => exact absurd rfl h2
  | spop k => simp [Lawful, hs] at hg
  | smove src dst b => cases src <;> cases dst <;> simp [Lawful, hs] at hg
  | sadd k as =>
    cases k with
    | freeAmounts => simp [Lawful, hs] at hg
    | _ => exact hs
  | insertOrder u m b => simp [Lawful, hs] at hg
  | flushPaid j t => simp [Lawful, hs] at hg
  | _ => exact hs

/-- So does a flushed payment. -/
theorem next_settles (hg : Lawful boot p w past op) (hs : (stageOf p past).Settles i)
    (h1 : op ≠ .commit) (h2 : op ≠ .rollback) : ((stageOf p past).next op r).Settles i := by
  have hne : stageOf p past = .matched i ∨ stageOf p past = .moved i := hs
  cases op with
  | commit => exact absurd rfl h1
  | rollback => exact absurd rfl h2
  | spop k => rcases hne with hs | hs <;> simp [Lawful, hs] at hg
  | smove src dst b =>
    cases src <;> cases dst <;> first
      | exact hg.elim
      | (rcases hne with hs | hs <;> simp [Lawful, hs] at hg)
    · rw [hs]
      cases r with
      | ok u => exact Or.inr rfl
      | error e => exact Or.inl rfl
  | sadd k as =>
    cases k with
    | freeAmounts => rcases hne with hs | hs <;> simp [Lawful, hs] at hg
    | _ => exact hs
  | insertOrder u m b => rcases hne with hs | hs <;> simp [Lawful, hs] at hg
  | flushPaid j t => rcases hne with hs | hs <;> simp [Lawful, hs] at hg
  | _ => exact hs

/-- A settlement was flushed before, or the operation flushes it. -/
theorem settles_from {f : Fault} (hx : exec f p op w r w')
    (hc : (logic boot).cond w past (.run p f op r) w') (hg : Lawful boot p w past op)
    (h : ((stageOf p past).next op r).Settles i) :
    (stageOf p past).Settles i ∧ op ≠ .commit ∧ op ≠ .rollback ∨
      (w.Held p i ∧ (i.status = .PENDING ∨ i.status = .FAILED)) ∧
        ∃ t, Write.payIntent i.id t ∈ op.flushed w r := by
  cases op with
  | commit =>
    obtain ⟨rfl, -⟩ := outage_run hx hc id
    generalize stageOf p past = s at h
    cases s <;> simp [Stage.next, Stage.Settles] at h
  | rollback => simp [Stage.next, Stage.Settles] at h
  | spop k =>
    obtain ⟨rfl, hs⟩ := hg
    rw [hs] at h
    rcases r with e | _ | b <;> simp [Stage.next, Stage.Settles] at h
  | smove src dst b =>
    cases src <;> cases dst <;> first
      | exact hg.elim
      | skip
    · cases r <;> simp [Stage.next, Stage.Settles] at h
    · have hs : stageOf p past = .reserved b := hg
      rw [hs] at h
      cases r <;> simp [Stage.next, Stage.Settles] at h
    · rcases hg with hs | ⟨-, j, hs, -⟩
      · rw [hs] at h
        cases r <;> simp [Stage.next, Stage.Settles] at h
      · rw [hs] at h ⊢
        refine Or.inl ⟨?_, by simp, by simp⟩
        cases r with
        | ok u =>
          obtain rfl : j = i := by simpa [Stage.next, Stage.Settles] using h
          exact Or.inl rfl
        | error e => exact h
  | sadd k as =>
    cases k with
    | freeAmounts =>
      obtain ⟨b, -, hs⟩ := hg
      rw [hs] at h
      cases r <;> simp [Stage.next, Stage.Settles] at h
    | _ => exact Or.inl ⟨h, by simp, by simp⟩
  | insertOrder u m b =>
    have hs : ¬ (stageOf p past).Settles i := by
      rcases hg with hs | ⟨hs, -⟩ <;> simp [hs, Stage.Settles]
    cases r with
    | ok o => simp [Stage.next, Stage.Settles] at h
    | error e => exact absurd h hs
  | flushPaid j t =>
    obtain ⟨hs, hheld, hst⟩ := hg
    cases r with
    | ok u =>
      obtain rfl : j = i := by simpa [Stage.next, Stage.Settles] using h
      exact Or.inr ⟨⟨hheld, hst⟩, t, by simp [Op.flushed]⟩
    | error e =>
      rw [hs] at h
      simp [Stage.next, Stage.Settles] at h
  | _ => exact Or.inl ⟨h, by simp, by simp⟩

end Next

/-- **Step lemma** of the links. -/
theorem Linked.run {boot : Prop} {f : Fault} {op : Op} {r : Except Exc op.Ret} (h : Linked w past)
    (hC : Consistent w) (hx : exec f p op w r w') (hc : (logic boot).cond w past (.run p f op r) w')
    (hg : Lawful boot p w past op) : Linked w' (past ++ [.run p f op r]) := by
  have hwrites := outage_writes hx hc
  have hothers : ∀ q, q ≠ p → w'.txn q = w.txn q ∧
      stageOf q (past ++ [.run p f op r]) = stageOf q past := by
    intro q hq
    refine ⟨(exec_tableStep hx).others hq, stageOf_other ?_⟩
    simpa [Act.pid] using Ne.symm hq
  have hown : stageOf p (past ++ [.run p f op r]) = (stageOf p past).next op r := stageOf_own
  constructor
  · intro q i hm
    by_cases hq : q = p
    · subst hq
      rw [hwrites] at hm
      obtain ⟨h1, h2, hold | hnew⟩ := mem_writesAfter hm
      · rw [hown, next_stored hg (h.inserted q i hold) h1 h2]
      · rw [hown, flushed_insIntent hnew]
    · rw [(hothers q hq).1] at hm
      rw [(hothers q hq).2, h.inserted q i hm]
  · intro q id t hm
    by_cases hq : q = p
    · subst hq
      rw [hwrites] at hm
      obtain ⟨h1, h2, hold | hnew⟩ := mem_writesAfter hm
      · obtain ⟨i, hid, hs⟩ := h.paying q id t hold
        exact ⟨i, hid, by rw [hown]; exact next_settles hg hs h1 h2⟩
      · obtain ⟨i, hid, hs⟩ := flushed_payIntent hnew
        exact ⟨i, hid, by rw [hown]; exact Or.inl (hs _)⟩
    · rw [(hothers q hq).1] at hm
      rw [(hothers q hq).2]
      exact h.paying q id t hm
  · intro q i hs
    by_cases hq : q = p
    · subst hq
      rw [hown] at hs
      rw [hwrites]
      rcases settles_from hx hc hg hs with ⟨hs, h1, h2⟩ | ⟨⟨hheld, hst⟩, t, hm⟩
      · obtain ⟨hi, hst, t, hm⟩ := h.settling q i hs
        rw [exec_intents hx h1]
        exact ⟨hi, hst, t, writesAfter_mono h1 h2 hm⟩
      · have h1 : op ≠ .commit := by
          rintro rfl
          simp [Op.flushed] at hm
        have h2 : op ≠ .rollback := by
          rintro rfl
          simp [Op.flushed] at hm
        rw [exec_intents hx h1]
        refine ⟨hheld.1, ?_, t, ?_⟩
        · rcases hst with hst | hst
          · exact hst
          · rcases h.statuses i hheld.1 with hst' | hst' <;> rw [hst] at hst' <;>
              exact absurd hst' (by decide)
        · cases op with
          | commit => exact absurd rfl h1
          | rollback => exact absurd rfl h2
          | _ => exact List.mem_append_right _ hm
    · rw [(hothers q hq).2] at hs
      rw [(hothers q hq).1]
      obtain ⟨hi, hst, t, hm⟩ := h.settling q i hs
      have hheld : w.Held q i := ⟨hi, hC.locks.paid q _ _ hm⟩
      exact ⟨((exec_tableStep hx).held hC.locks (Ne.symm hq) hheld).1, hst, t, hm⟩
  · intro j hj
    rcases wstep_intent (a := .run p f op r) hx hj with hold | ⟨q, -, -, i, -, -, hi, he⟩
    · exact h.statuses j hold
    · rcases he.status with hst | ⟨hst, -⟩
      · rw [hst]
        rcases hi with hi | hi
        · exact h.statuses i hi
        · exact Or.inl (hC.intents.new q i hi).1
      · exact Or.inr hst

/-- What is linked stays linked. -/
theorem Linked.step {boot : Prop} {a : Label} (h : Linked w past) (hC : Consistent w)
    (hw : system.WStep w a w') (hg : (logic boot).Guarded w past a w') :
    Linked w' (past ++ [a]) := by
  have same : w'.db.intents = w.db.intents → w'.txn = w.txn →
      (∀ q, stageOf q (past ++ [a]) = stageOf q past) → Linked w' (past ++ [a]) := by
    intro hi ht hs
    constructor
    · intro q i hm
      rw [ht] at hm
      rw [hs, h.inserted q i hm]
    · intro q id t hm
      rw [ht] at hm
      rw [hs]
      exact h.paying q id t hm
    · intro q i hst
      rw [hs] at hst
      rw [hi, ht]
      exact h.settling q i hst
    · rw [hi]
      exact h.statuses
  cases a with
  | spawn q x =>
    obtain rfl : w' = w := hw
    exact same rfl rfl fun _ => stageOf_spawn
  | run q f op r => exact h.run hC hw hg.1 (hg.2 q f op r rfl)
  | crash q => exact hg.1.elim
  | outer x =>
    obtain rfl : w' = w.tick x := hw
    cases x
    exact same rfl rfl fun _ => stageOf_other (by simp [Act.pid])

/-! ## Live rows -/

/-- A PENDING row, committed or flushed, holds the amount, and nobody moved the amount yet. -/
def Live (w : World) (past : List Label) (a : Amount) : Prop :=
  ∃ o i, w.Row o i ∧ i.Holds a ∧ ∀ q j, stageOf q past = .moved j → j.id ≠ i.id

/-- The row that a request matched is live. -/
theorem Linked.live (h : Linked w past) (hC : Consistent w) {i : PaymentIntent}
    (hi : stageOf p past = .matched i) : Live w past i.exactAmount := by
  obtain ⟨hmem, hst, t, hm⟩ := h.settling p i (Or.inl hi)
  refine ⟨none, i, hmem, ⟨hst, rfl⟩, ?_⟩
  intro q j hq hid
  obtain ⟨-, -, t', hm'⟩ := h.settling q j (Or.inr hq)
  rw [hid] at hm'
  obtain rfl := hC.locks.excl p q i.id (hC.locks.paid p _ _ hm) (hC.locks.paid q _ _ hm')
  rw [hi] at hq
  exact absurd hq (by simp)

/-- The only row that holds the amount of a committed PENDING row is that row. -/
theorem row_unique (hC : Consistent w) {i j : PaymentIntent} {o : Option Pid}
    (hi : i ∈ w.db.intents) (ha : i.Holds a) (hj : w.Row o j) (hb : j.Holds a) : j = i := by
  have hid : j.id = i.id := hC.intents.holder o none j i a hj hi hb ha
  have ho : o = none := hC.intents.unique o none j i hj hi hid
  subst ho
  exact hC.intent_eq hj hi hid

/-- The row of a payment that was committed is PAID. -/
theorem commit_paid (hC : Consistent (w.commit p)) {i j : PaymentIntent} {o : Option Pid}
    {t : Option Id} (hi : i ∈ w.db.intents) (hm : Write.payIntent i.id t ∈ (w.txn p).writes)
    (hj : (w.commit p).Row o j) (hid : j.id = i.id) : j.status = .PAID := by
  obtain ⟨k, hk, he, hpaid⟩ := Db.commit_pays hi hm
  have hk' : (w.commit p).Row none k := hk
  have ho := hC.intents.unique o none j k hj hk' (by rw [hid, he.id])
  subst ho
  rw [hC.intent_eq hj hk' (by rw [hid, he.id])]
  exact hpaid

/-- The insertion of an intent with the amount succeeds. -/
def Inserts (a : Amount) : Label → Prop
  | .run _ _ (.insertOrder _ _ b) (.ok _) => b = a
  | _ => False

theorem Inserts.inv {x : Label} (h : Inserts a x) :
    ∃ p f u m o, x = .run p f (.insertOrder u m a) (.ok o) := by
  cases x with
  | run p f op r =>
    cases op with
    | insertOrder u m b =>
      cases r with
      | ok o =>
        obtain rfl : b = a := h
        exact ⟨p, f, u, m, o, rfl⟩
      | error e => exact h.elim
    | _ => exact h.elim
  | _ => exact h.elim

/-- Where a row comes from. -/
theorem wstep_row {boot : Prop} {x : Label} (hw : system.WStep w x w')
    (hg : (logic boot).Guarded w past x w') {o : Option Pid} {j : PaymentIntent}
    (hj : w'.Row o j) (hst : j.status = .PENDING) :
    (∃ o' i, w.Row o' i ∧ i.id = j.id ∧ ∀ a, j.Holds a → i.Holds a) ∨ Inserts j.exactAmount x := by
  cases o with
  | none =>
    rcases wstep_intent hw hj with hold | ⟨q, -, -, i, -, -, hi, he⟩
    · exact Or.inl ⟨none, j, hold, rfl, fun _ h => h⟩
    · rcases hi with hi | hi
      · exact Or.inl ⟨none, i, hi, he.id.symm, fun _ h => he.holds h⟩
      · exact Or.inl ⟨some q, i, hi, he.id.symm, fun _ h => he.holds h⟩
  | some q =>
    have hm : Write.insIntent j ∈ (w'.txn q).writes := hj
    rcases wstep_writes hw hm with hold | ⟨f, op, r, r₀, rfl, -⟩
    · exact Or.inl ⟨some q, j, hold, rfl, fun _ h => h⟩
    · rw [outage_writes hw hg.1] at hm
      obtain ⟨-, -, hold | hnew⟩ := mem_writesAfter hm
      · exact Or.inl ⟨some q, j, hold, rfl, fun _ h => h⟩
      · refine Or.inr ?_
        cases op with
        | insertOrder u m b =>
          cases r with
          | ok x =>
            obtain rfl : j = w.newIntent m b := by simpa [Op.flushed] using hnew
            rfl
          | error e => simp [Op.flushed] at hnew
        | flushPaid _ _ | insertSms _ _ _ _ _ | insertEvent _ =>
          cases r <;> simp [Op.flushed] at hnew
        | _ => simp [Op.flushed] at hnew

/-- The request that moved an amount is still there after a step, unless the step committed it. -/
theorem moved_step {boot : Prop} {x : Label} (hw : system.WStep w x w')
    (hg : (logic boot).Guarded w past x w') {i : PaymentIntent} (hs : stageOf q past = .moved i) :
    stageOf q (past ++ [x]) = .moved i ∨ w' = w.commit q := by
  by_cases hq : x.pid = some q
  · cases x with
    | spawn p y => exact Or.inl (by rw [stageOf_spawn, hs])
    | crash p => exact hg.1.elim
    | outer y => simp [Act.pid] at hq
    | run p f op r =>
      obtain rfl : p = q := by simpa [Act.pid] using hq
      have hlaw : Lawful boot p w past op := hg.2 p f op r rfl
      rw [stageOf_own]
      cases op with
      | commit => exact Or.inr (outage_run hw hg.1 id).2
      | rollback => exact absurd (Or.inr ⟨i, hs⟩) hlaw.1
      | spop k => simp [Lawful, hs] at hlaw
      | smove src dst b => cases src <;> cases dst <;> simp [Lawful, hs] at hlaw
      | sadd k as =>
        cases k with
        | freeAmounts => simp [Lawful, hs] at hlaw
        | _ => exact Or.inl hs
      | insertOrder u m b => simp [Lawful, hs] at hlaw
      | flushPaid j t => simp [Lawful, hs] at hlaw
      | _ => exact Or.inl hs
  · exact Or.inl (by rw [stageOf_other hq, hs])

/-- **Step lemma** of the live amounts: only an insertion makes an amount live. -/
theorem live_step {boot : Prop} {x : Label} (h : Linked w past) (hC : Consistent w)
    (hw : system.WStep w x w') (hg : (logic boot).Guarded w past x w')
    (hl : Live w' (past ++ [x]) a) : Live w past a ∨ Inserts a x := by
  obtain ⟨o, j, hj, ha, hne⟩ := hl
  rcases wstep_row hw hg hj ha.1 with ⟨o', i, hi, hid, hholds⟩ | hins
  · refine Or.inl ⟨o', i, hi, hholds a ha, ?_⟩
    intro q k hk hki
    rcases moved_step hw hg hk with hk' | rfl
    · exact hne q k hk' (hki.trans hid)
    · obtain ⟨hmem, -, t, hm⟩ := h.settling q k (Or.inr hk)
      have hpaid := commit_paid (hC.wstep hw) hmem hm hj (hki.trans hid).symm
      rw [ha.1] at hpaid
      exact absurd hpaid (by decide)
  · exact Or.inr (ha.2 ▸ hins)

/-- With no request under way every PENDING row is live. -/
theorem committed_live {i : PaymentIntent} (hi : i ∈ w.db.intents)
    (ha : i.Holds a) (hidle : ∀ q, stageOf q past = .idle) : Live w past a :=
  ⟨none, i, hi, ha, fun q j hq => by rw [hidle q] at hq; exact absurd hq (by simp)⟩

end Pool

end PaymentRecon
