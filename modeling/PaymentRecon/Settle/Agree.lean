import PaymentRecon.Play
import PaymentRecon.Settle.Deal
import PaymentRecon.Tables.Orders

/-!
# Agree — an order and its intent agree, and settle once

Orders and intents are paired row by row, a session pays an order with its intent, and it pays only a
PENDING intent that it holds the lock of.  A PAID intent is therefore never paid again.
-/

namespace PaymentRecon

open Interleave Rely Lts

namespace Settle

variable {p q : Pid} {w w' : World} {past : List Label} {x : Label}

/-! ## The invariant -/

structure Agree (w : World) : Prop where
  keyed : ∀ o o' i i', w.Row o i → w.Row o' i' → (i.id = i'.id ↔ i.orderId = i'.orderId)
  bound : ∀ o i, w.Row o i → i.orderId < w.db.nextOrder
  aligned : w.db.Aligned
  paired : ∀ p, Paired w.db.Known (w.txn p).writes
  unpaid : ∀ p id t, Write.payIntent id t ∈ (w.txn p).writes →
    ∃ i ∈ w.db.intents, i.id = id ∧ i.status = .PENDING
  status : ∀ i ∈ w.db.intents, i.status = .PENDING ∨ i.status = .PAID

theorem Agree.empty : Agree World.empty := by
  have hrow : ∀ o i, ¬ World.empty.Row o i := by
    intro o i
    cases o <;> simp [World.Row, World.empty, Db.empty, Txn.empty]
  refine ⟨fun o _ i _ h => absurd h (hrow o i), fun o i h => absurd h (hrow o i), .nil, fun _ => .nil,
    ?_, ?_⟩
  · intro p id t h
    simp [World.empty, Txn.empty] at h
  · intro i h
    simp [World.empty, Db.empty] at h

/-- Writes to other tables. -/
theorem flushed_elsewhere {op : Op} {r : Except Exc op.Ret} (ho : ∀ u a b, op ≠ .insertOrder u a b)
    (hf : ∀ i t, op ≠ .flushPaid i t) : ∀ y ∈ op.flushed w r, y.Elsewhere := by
  intro y hy
  cases op with
  | insertOrder u a b => exact absurd rfl (ho u a b)
  | flushPaid i t => exact absurd rfl (hf i t)
  | insertSms _ _ _ _ _ | insertEvent _ =>
    cases r with
    | ok _ =>
      obtain rfl := by simpa [Op.flushed] using hy
      trivial
    | error _ => simp [Op.flushed] at hy
  | publishEvents ids =>
    obtain rfl := by simpa [Op.flushed] using hy
    trivial
  | failEvents us =>
    obtain ⟨u, -, rfl⟩ := List.mem_map.mp (by simpa [Op.flushed] using hy)
    trivial
  | _ => simp [Op.flushed] at hy

/-- The tables stay, and `p` flushes `ws` more writes. -/
theorem Agree.flush (h : Agree w) (hintents : w'.db.intents = w.db.intents)
    (horders : w'.db.orders = w.db.orders) (hnext : w.db.nextOrder ≤ w'.db.nextOrder)
    (hothers : ∀ q, q ≠ p → w'.txn q = w.txn q)
    (hpaired : Paired w.db.Known (w'.txn p).writes)
    (hunpaid : ∀ id t, Write.payIntent id t ∈ (w'.txn p).writes →
      ∃ i ∈ w.db.intents, i.id = id ∧ i.status = .PENDING)
    (hrows : ∀ i, Write.insIntent i ∈ (w'.txn p).writes → Write.insIntent i ∈ (w.txn p).writes ∨
      i.orderId < w'.db.nextOrder ∧ ∀ o j, w.Row o j → i.id ≠ j.id ∧ i.orderId ≠ j.orderId)
    (hone : ∀ i j, Write.insIntent i ∈ (w'.txn p).writes → Write.insIntent j ∈ (w'.txn p).writes →
      Write.insIntent i ∉ (w.txn p).writes → Write.insIntent j ∉ (w.txn p).writes → i = j) :
    Agree w' := by
  have hknown : w'.db.Known = w.db.Known := by
    unfold Db.Known
    rw [hintents]
  have hrow : ∀ o i, w'.Row o i → w.Row o i ∨ o = some p ∧ Write.insIntent i ∉ (w.txn p).writes ∧
      i.orderId < w'.db.nextOrder ∧ ∀ o j, w.Row o j → i.id ≠ j.id ∧ i.orderId ≠ j.orderId := by
    intro o i hi
    cases o with
    | none => exact Or.inl (show i ∈ w.db.intents from hintents ▸ hi)
    | some q =>
      by_cases hq : q = p
      · subst hq
        by_cases hold : Write.insIntent i ∈ (w.txn q).writes
        · exact Or.inl hold
        · exact Or.inr ⟨rfl, hold, (hrows i hi).resolve_left hold⟩
      · have hi' : Write.insIntent i ∈ (w'.txn q).writes := hi
        rw [hothers q hq] at hi'
        exact Or.inl hi'
  refine ⟨?_, ?_, ?_, ?_, ?_, by rw [hintents]; exact h.status⟩
  · intro o o' i i' hi hi'
    rcases hrow o i hi with hold | ⟨rfl, hnew, -, hne⟩
    · rcases hrow o' i' hi' with hold' | ⟨rfl, -, -, hne'⟩
      · exact h.keyed o o' i i' hold hold'
      · exact iff_of_false (hne' o i hold).1.symm (hne' o i hold).2.symm
    · rcases hrow o' i' hi' with hold' | ⟨rfl, hnew', -, -⟩
      · exact iff_of_false (hne o' i' hold').1 (hne o' i' hold').2
      · obtain rfl := hone i i' hi hi' hnew hnew'
        exact iff_of_true rfl rfl
  · intro o i hi
    rcases hrow o i hi with hold | ⟨-, -, hlt, -⟩
    · exact lt_of_lt_of_le (h.bound o i hold) hnext
    · exact hlt
  · unfold Db.Aligned
    rw [horders, hintents]
    exact h.aligned
  · intro q
    rw [hknown]
    by_cases hq : q = p
    · exact hq ▸ hpaired
    · rw [hothers q hq]
      exact h.paired q
  · intro q id t hm
    rw [hintents]
    by_cases hq : q = p
    · subst hq
      exact hunpaid id t hm
    · rw [hothers q hq] at hm
      exact h.unpaid q id t hm

theorem Agree.commit (h : Agree w) (hc : Consistent w) : Agree (w.commit p) := by
  have hdb : (w.commit p).db = w.db.commit (w.txn p).writes := rfl
  have hs : SessionIs p w (w.commit p) [] [] := SessionIs.setTxn rfl
  have hknown : ∀ id orderId, w.db.Known id orderId → (w.commit p).db.Known id orderId := by
    rintro id orderId ⟨i, hi, rfl, rfl⟩
    obtain ⟨j, hj, he⟩ := Db.commit_keeps (w.txn p).writes hi
    exact ⟨j, hj, he.id, he.order⟩
  refine ⟨?_, ?_, ?_, ?_, ?_, ?_⟩
  · intro o o' j j' hj hj'
    obtain ⟨o₁, i, hi, he, -⟩ := row_commit hdb hs hj
    obtain ⟨o₂, i', hi', he', -⟩ := row_commit hdb hs hj'
    rw [he.id, he'.id, he.order, he'.order]
    exact h.keyed o₁ o₂ i i' hi hi'
  · intro o j hj
    obtain ⟨o₁, i, hi, he, -⟩ := row_commit hdb hs hj
    rw [he.order, hdb, (Db.commit_next _ _).1]
    exact h.bound o₁ i hi
  · refine (h.paired p).aligned h.aligned ?_
    intro i j hi hj
    rcases hi with hi | hi
    · exact h.keyed none none i j hi hj
    · exact h.keyed (some p) none i j hi hj
  · intro q
    rw [hs.closed_writes q]
    split_ifs
    · exact .nil
    · exact (h.paired q).mono hknown
  · intro q id t hm
    rw [hs.closed_writes q] at hm
    split_ifs at hm with hq
    · simp at hm
    · obtain ⟨i, hi, rfl, hst⟩ := h.unpaid q id t hm
      refine ⟨i, Db.commit_unpaid hi fun t' hm' => hq ?_, rfl, hst⟩
      exact hc.locks.excl q p i.id (hc.locks.paid q _ _ hm) (hc.locks.paid p _ _ hm')
  · intro j hj
    obtain ⟨i, hi, he⟩ := Db.mem_commit (w.txn p).writes hj
    have hi' : i.status = .PENDING ∨ i.status = .PAID := by
      rcases hi with hi | hi
      · exact h.status i hi
      · exact Or.inl (hc.intents.new p i hi).1
    rcases he.status with hst | ⟨hst, -⟩
    · rw [hst]
      exact hi'
    · exact Or.inr hst

theorem Agree.close (h : Agree w) : Agree (w.rollback p) := by
  refine h.flush (p := p) rfl rfl le_rfl (fun q hq => by rw [rollback_txn, if_neg hq]) ?_ ?_ ?_ ?_ <;>
    rw [rollback_txn, if_pos rfl]
  · exact .nil
  · exact fun _ _ hm => by simp [Txn.empty] at hm
  · exact fun _ hm => by simp [Txn.empty] at hm
  · exact fun _ _ hm => by simp [Txn.empty] at hm

/-- An operation that stores and settles nothing. -/
theorem Agree.aside {op : Op} {r : Except Exc op.Ret} (h : Agree w) (hx : op.run p w r w')
    (hc : op ≠ .commit) (ho : ∀ u a b, op ≠ .insertOrder u a b) (hf : ∀ i t, op ≠ .flushPaid i t) :
    Agree w' := by
  have heff := run_effect hx
  obtain ⟨horders, hintents, hnext⟩ := (run_orders hx).resolve_left fun hcm => hc hcm.1
  have hwr : ∀ y ∈ (w'.txn p).writes, y ∈ (w.txn p).writes ∨ y.Elsewhere := by
    intro y hy
    rcases wstep_writes (a := .run p .done op r) hx hy with hold | ⟨_, _, _, r₀, heq, hnew⟩
    · exact Or.inl hold
    · cases heq
      exact Or.inr (flushed_elsewhere ho hf y hnew)
  refine h.flush (p := p) hintents horders ?_ heff.others ?_ ?_ ?_ ?_
  · rcases hnext with ⟨heq, -⟩ | ⟨⟨u, a, b, rfl⟩, -⟩
    · exact heq.ge
    · exact absurd rfl (ho u a b)
  · rw [heff.writes]
    have happ := (h.paired p).append (flushed_elsewhere (w := w) (r := r) ho hf)
    cases op with
    | commit => exact absurd rfl hc
    | rollback => exact .nil
    | _ => exact happ
  · intro id t hm
    rcases hwr _ hm with hold | hnew
    · exact h.unpaid p id t hold
    · exact hnew.elim
  · intro i hm
    rcases hwr _ hm with hold | hnew
    · exact Or.inl hold
    · exact hnew.elim
  · intro i j hm _ hni _
    exact absurd ((hwr _ hm).resolve_right id) hni

/-- **Operations.**  `hg`: a settled row is locked and not PAID. -/
theorem Agree.run {op : Op} {r : Except Exc op.Ret} (h : Agree w) (hc : Consistent w)
    (hg : ∀ i t, op = .flushPaid i t → w.Held p i ∧ (i.status = .PENDING ∨ i.status = .FAILED))
    (hx : op.run p w r w') : Agree w' := by
  cases op with
  | commit =>
    obtain ⟨-, rfl⟩ := hx
    exact h.commit hc
  | insertOrder u a b =>
    simp only [Op.run] at hx
    split_ifs at hx
    · obtain ⟨-, ⟨-, -, rfl⟩ | ⟨-, -, rfl⟩⟩ := hx
      · refine h.flush (p := p) rfl rfl (Int.lt_succ _).le (fun _ _ => rfl) (h.paired p) (h.unpaid p)
          (fun i hm => Or.inl hm) ?_
        exact fun i j hm _ hni _ => absurd hm hni
      · have hwr : ((w.tickOrder.flush p [.insOrder (w.newOrder u a), .insIntent (w.newIntent a b)]).txn
            p).writes =
            (w.txn p).writes ++ [.insOrder (w.newOrder u a), .insIntent (w.newIntent a b)] := by
          rw [flush_writes, if_pos rfl]
          rfl
        refine h.flush (p := p) rfl rfl (Int.lt_succ _).le (fun q hq => by rw [flush_others _ _ hq]; rfl)
          ?_ ?_ ?_ ?_ <;> rw [hwr]
        · exact (h.paired p).store ⟨rfl, rfl⟩
        · intro id t hm
          exact h.unpaid p id t (by simpa using hm)
        · intro i hm
          rcases (by simpa using hm : _ ∨ i = _) with hold | rfl
          · exact Or.inl hold
          · refine Or.inr ⟨Int.lt_succ _, fun o j hj => ⟨?_, ?_⟩⟩
            · exact (hc.intents.bound o j hj).ne'
            · exact (h.bound o j hj).ne'
        · intro i j hi hj hni hnj
          rcases (by simpa using hi : _ ∨ i = _) with hold | rfl
          · exact absurd hold hni
          · rcases (by simpa using hj : _ ∨ j = _) with hold | rfl
            · exact absurd hold hnj
            · rfl
    · obtain ⟨-, rfl⟩ := hx
      exact h
  | flushPaid i t =>
    obtain ⟨hheld, hst⟩ := hg i t rfl
    obtain ⟨-, -, ⟨-, -, rfl⟩ | ⟨-, -, rfl⟩⟩ := hx
    · exact h
    · have hwr : (((w.lock p [i.id]).flush p [.payIntent i.id t, .payOrder i.orderId]).txn p).writes =
          (w.txn p).writes ++ [.payIntent i.id t, .payOrder i.orderId] := by
        rw [flush_writes, if_pos rfl, lock_writes]
      refine h.flush (p := p) rfl rfl le_rfl ?_ ?_ ?_ ?_ ?_
      · exact fun q hq => by rw [flush_others _ _ hq, lock_others _ _ hq]
      · rw [hwr]
        exact (h.paired p).settle ⟨i, hheld.1, rfl, rfl⟩
      · intro id t' hm
        rw [hwr] at hm
        rcases (by simpa using hm : _ ∨ id = i.id ∧ t' = t) with hold | ⟨rfl, rfl⟩
        · exact h.unpaid p id t' hold
        · refine ⟨i, hheld.1, rfl, hst.resolve_right fun hfail => ?_⟩
          rcases h.status i hheld.1 with hs | hs <;> rw [hs] at hfail <;> exact absurd hfail (by decide)
      · intro j hm
        rw [hwr] at hm
        exact Or.inl (by simpa using hm)
      · intro j k hm _ hni _
        rw [hwr] at hm
        exact absurd (by simpa using hm) hni
  | _ => exact h.aside hx (by simp) (by simp) (by simp)

/-- **Step lemma.** -/
theorem Agree.step {c c' : State} (h : Agree c.world) (hc : Consistent c.world) (hs : Steps c x c')
    (hg : Allows logic.Guarded c x c') : Agree c'.world := by
  cases hs with
  | spawn _ => exact h
  | @run p f op k r w' _ hx =>
    have hflush : ∀ i t, op = .flushPaid i t →
        c.world.Held p i ∧ (i.status = .PENDING ∨ i.status = .FAILED) := by
      rintro i t rfl
      exact (hg.2 p f _ r rfl).2
    rcases exec_cases hx with hrun | ⟨rfl, -⟩ | ⟨-, r₀, hrun, -⟩
    · exact h.run hc hflush hrun
    · exact h
    · exact h.run hc hflush hrun
  | crash _ => exact h.close
  | @outer y =>
    cases y
    exact h.flush (p := 0) rfl rfl le_rfl (fun _ _ => rfl) (h.paired 0) (h.unpaid 0)
      (fun _ hm => Or.inl hm) fun _ _ hm _ hni _ => absurd hm hni

/-- **Run lemma.** -/
theorem Agree.reached {c c' : State} {tr : List Label} (hr : Run Steps c tr c') (hH : logic.Holds c)
    (h : Agree c.world) : logic.Holds c' ∧ Agree c'.world := by
  refine sound.derive (P := fun _ _ _ => True) (J := fun c => Agree c.world)
    (hr.mono fun _ _ _ hs => ⟨hs, trivial, trivial⟩) hH h ?_
  exact fun c a c' hI hJ hs hg _ => hJ.step hI hs hg

/-! ## What follows -/

/-- Every order has one intent, every intent has one order, and they are in one status. -/
structure Agrees (db : Db) : Prop where
  intent : ∀ o ∈ db.orders, ∃ i ∈ db.intents, i.orderId = o.id
  order : ∀ i ∈ db.intents, ∃ o ∈ db.orders, o.id = i.orderId
  one : ∀ i ∈ db.intents, ∀ j ∈ db.intents, i.orderId = j.orderId → i = j
  status : ∀ o ∈ db.orders, ∀ i ∈ db.intents, i.orderId = o.id → o.status = i.status

theorem Agree.agrees (h : Agree w) (hc : Consistent w) : Agrees w.db := by
  have one : ∀ i ∈ w.db.intents, ∀ j ∈ w.db.intents, i.orderId = j.orderId → i = j :=
    fun i hi j hj ho => hc.intent_eq hi hj ((h.keyed none none i j hi hj).mpr ho)
  refine ⟨?_, ?_, one, ?_⟩
  · intro o ho
    obtain ⟨i, hi, hof⟩ := h.aligned.intent ho
    exact ⟨i, hi, hof.id⟩
  · intro i hi
    obtain ⟨o, ho, hof⟩ := h.aligned.order hi
    exact ⟨o, ho, hof.id.symm⟩
  · intro o ho i hi hid
    obtain ⟨j, hj, hof⟩ := h.aligned.intent ho
    obtain rfl := one i hi j hj (hid.trans hof.id.symm)
    exact hof.status

/-- The step commits a transaction that pays the intent. -/
def Pays (w : World) (x : Label) (id : Id) : Prop :=
  ∃ p f r t, x = .run p f Op.commit r ∧ f ≠ .failed ∧ Write.payIntent id t ∈ (w.txn p).writes

theorem Agree.not_pays (h : Agree w) (hc : Consistent w) {i : PaymentIntent} (hi : i ∈ w.db.intents)
    (hpaid : i.status = .PAID) : ¬ Pays w x i.id := by
  rintro ⟨p, f, r, t, -, -, hm⟩
  obtain ⟨j, hj, hid, hst⟩ := h.unpaid p _ t hm
  obtain rfl := hc.intent_eq hj hi hid
  rw [hpaid] at hst
  exact absurd hst (by decide)

/-- A commit that does not fail takes effect. -/
theorem exec_commit {f : Fault} {r : Except Exc Unit} (h : exec f p Op.commit w r w')
    (hf : f ≠ .failed) : w' = w.commit p := by
  cases f with
  | done => exact h.2
  | failed => exact absurd rfl hf
  | lost =>
    obtain ⟨-, ⟨r₀, -, hw⟩, -⟩ := h
    exact hw

/-- A row is left alone by every step that does not commit a payment of it. -/
theorem intent_stays (hw : system.WStep w x w') {i : PaymentIntent} (hi : i ∈ w.db.intents)
    (hx : ¬ Pays w x i.id) : i ∈ w'.db.intents := by
  cases x with
  | spawn q y =>
    obtain rfl : w' = w := hw
    exact hi
  | run p f op r =>
    by_cases hop : op = .commit
    · subst hop
      by_cases hf : f = .failed
      · subst hf
        obtain ⟨rfl, -⟩ := hw
        exact hi
      · obtain rfl := exec_commit hw hf
        exact Db.commit_unpaid hi fun t hm => hx ⟨p, f, r, t, rfl, hf, hm⟩
    · rw [exec_intents hw hop]
      exact hi
  | crash p =>
    obtain rfl : w' = w.rollback p := hw
    exact hi
  | outer y =>
    obtain rfl : w' = w.tick y := hw
    cases y
    exact hi

/-- A PAID row stays for ever. -/
theorem Agree.paid_stays {c c' : State} {tr : List Label} (hr : Run Steps c tr c')
    (hH : logic.Holds c) (h : Agree c.world) {i : PaymentIntent} (hi : i ∈ c.world.db.intents)
    (hpaid : i.status = .PAID) : (logic.Holds c' ∧ Agree c'.world) ∧ i ∈ c'.world.db.intents := by
  have hr' := hr
  refine hr'.invariant (fun c _ => (logic.Holds c ∧ Agree c.world) ∧ i ∈ c.world.db.intents)
    ⟨⟨hH, h⟩, hi⟩ ?_
  rintro tr c a c' - ⟨⟨hH, hA⟩, hi⟩ hs
  refine ⟨hA.reached (.single hs) hH, ?_⟩
  exact intent_stays hs.wstep.1 hi (hA.not_pays hH.inv hi hpaid)

/-- **An order and its intent agree, and settle once.** -/
theorem agrees_and_settles_once {tr : List Label} {c : State}
    (h : Run Steps (.init World.empty) tr c) :
    Agrees c.world.db ∧
      (∀ i ∈ c.world.db.intents, i.status = .PAID → ∀ tr' c', Run Steps c tr' c' →
        i ∈ c'.world.db.intents) ∧
      ∀ i ∈ c.world.db.intents, ∀ x c₁, Steps c x c₁ →
        (¬ Pays c.world x i.id → i ∈ c₁.world.db.intents) ∧
        (Pays c.world x i.id → i.status = .PENDING ∧
          (∃ j ∈ c₁.world.db.intents, j.id = i.id ∧ j.status = .PAID) ∧
          ∀ tr' c₂ y, Run Steps c₁ tr' c₂ → ¬ Pays c₂.world y i.id) := by
  obtain ⟨hH, hA⟩ := Agree.reached h (Holds.init Consistent.empty fun _ => rfl) Agree.empty
  refine ⟨hA.agrees hH.inv, ?_, ?_⟩
  · intro i hi hpaid tr' c' hr
    exact (Agree.paid_stays hr hH hA hi hpaid).2
  · intro i hi x c₁ hs
    refine ⟨intent_stays hs.wstep.1 hi, ?_⟩
    rintro ⟨p, f, r, t, rfl, hf, hm⟩
    obtain ⟨hH₁, hA₁⟩ := hA.reached (.single hs) hH
    obtain ⟨j, hj, he, hst⟩ := Db.commit_pays hi hm
    have hw : c₁.world = c.world.commit p := exec_commit hs.wstep.1 hf
    replace hj : j ∈ c₁.world.db.intents := hw ▸ hj
    refine ⟨?_, ⟨j, hj, he.id, hst⟩, ?_⟩
    · obtain ⟨k, hk, hkid, hkst⟩ := hA.unpaid p _ t hm
      obtain rfl := hH.inv.intent_eq hk hi hkid
      exact hkst
    · intro tr' c₂ y hr
      obtain ⟨⟨hH₂, hA₂⟩, hj₂⟩ := Agree.paid_stays hr hH₁ hA₁ hj hst
      rw [← he.id]
      exact hA₂.not_pays hH₂.inv hj₂ hst

theorem agrees_and_settles_once_sample : ∃ tr c, Run Steps (.init World.empty) tr c ∧
    (∃ o ∈ c.world.db.orders, o.status = .PAID) ∧ Agrees c.world.db := by
  obtain ⟨tr, c, hr, htest, -⟩ := plays_run 2 .none
    (Script.createDown 0 1500001 ++ Script.confirm 1 1 1)
    (fun c => c.world.db.orders.any fun o => o.status = .PAID) (by decide +kernel) World.empty_closed
  exact ⟨tr, c, hr.of_restrict, by simpa using htest, (agrees_and_settles_once hr.of_restrict).1⟩

end Settle

end PaymentRecon
