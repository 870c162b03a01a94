import Mathlib.Algebra.Ring.Int.Defs
import PaymentRecon.Ledger.Book
import PaymentRecon.Lib.Simulation
import PaymentRecon.Pipeline.Attached
import PaymentRecon.Waits.Orderly

/-!
# Refinement — the tables keep a book

The committed intents and SMS transactions are the bills and transfers of a book (`Shows`).  A session
flushes one row, or one settlement, at most (`Single`), and the intent it settles is still as it was when
it was chosen (`Chosen`); so a commit is one entry of the book or none, and nothing else is seen in it:
the service, with all its threads, crashes, outages and retries, refines the book.
-/

namespace PaymentRecon

open Interleave Streams

namespace Accounts

variable {p q : Pid} {w w' : World} {a : Label} {past : List Label}

/-! ## The book that the tables show -/

abbrev Book := Ledger.Book Id Id Amount

def standing (i : PaymentIntent) : Ledger.Standing Id :=
  match i.status, i.smsTransactionId with
  | .PENDING, _ => .awaiting
  | .FAILED, _ => .failed
  | .PAID, some t => .paidBy t
  | .PAID, none => .waived
  | .REVIEWED, _ | .EXPIRED, _ => .shelved

def bill (i : PaymentIntent) : Ledger.Bill Id Id Amount := ⟨i.id, i.exactAmount, standing i⟩

def transfer (r : SMSTransaction) : Ledger.Transfer Id Amount := ⟨r.id, r.smsAmount⟩

/-- The tables show the book. -/
structure Shows (w : World) (B : Book) : Prop where
  bills : B.bills = w.db.intents.map bill
  transfers : B.transfers = w.db.sms.map transfer

theorem standing_awaiting {i : PaymentIntent} : standing i = .awaiting ↔ i.status = .PENDING := by
  unfold standing
  split <;> simp_all

theorem standing_failed {i : PaymentIntent} : standing i = .failed ↔ i.status = .FAILED := by
  unfold standing
  split <;> simp_all

theorem standing_paidBy {i : PaymentIntent} {t : Id} :
    standing i = .paidBy t ↔ i.status = .PAID ∧ i.smsTransactionId = some t := by
  unfold standing
  split <;> simp_all

theorem Shows.empty : Shows World.empty .empty := ⟨rfl, rfl⟩

theorem Shows.mem (h : Shows w B) {b : Ledger.Bill Id Id Amount} :
    b ∈ B.bills ↔ ∃ i ∈ w.db.intents, bill i = b := by
  rw [h.bills, List.mem_map]

theorem Shows.mem_transfers (h : Shows w B) {x : Ledger.Transfer Id Amount} :
    x ∈ B.transfers ↔ ∃ r ∈ w.db.sms, transfer r = x := by
  rw [h.transfers, List.mem_map]

/-! ## What a session flushes -/

/-- A write that a book shows. -/
def major : Write → Bool
  | .insIntent _ | .payIntent _ _ | .insSms _ => true
  | _ => false

/-- Every session flushed one such write at most. -/
def Single (w : World) : Prop := ∀ p, ((w.txn p).writes.filter major).length ≤ 1

theorem Single.of_closed (h : w.Closed) : Single w := fun p => by simp [h p, Txn.empty]

/-- A session flushes such a write when it has flushed nothing yet. -/
theorem flushed_major {op : Op} {r : Except Exc op.Ret} (ho : Waits.Orderly p w op) :
    (op.flushed w r).filter major = [] ∨
      (w.txn p).writes = [] ∧ ((op.flushed w r).filter major).length ≤ 1 := by
  cases op with
  | insertOrder userId amount a =>
    refine Or.inr ⟨(show Waits.Bare p w from ho).writes, ?_⟩
    cases r with
    | ok _ => exact Nat.le_refl 1
    | error _ => exact Nat.zero_le 1
  | insertSms amount inventory date time payload =>
    refine Or.inr ⟨(show Waits.Bare p w from ho).writes, ?_⟩
    cases r with
    | ok _ => exact Nat.le_refl 1
    | error _ => exact Nat.zero_le 1
  | flushPaid i t =>
    refine Or.inr ⟨ho.2, ?_⟩
    cases r with
    | ok _ => exact Nat.le_refl 1
    | error _ => exact Nat.zero_le 1
  | failEvents us =>
    refine Or.inl (List.filter_eq_nil_iff.mpr fun x hx => ?_)
    obtain ⟨u, -, rfl⟩ := List.mem_map.mp hx
    simp [major]
  | insertEvent data => cases r <;> exact Or.inl rfl
  | _ => exact Or.inl rfl

theorem Single.step (h : Single w) (hw : system.WStep w a w')
    (hg : Waits.logic.Guarded w past a w') : Single w' := by
  intro p
  by_cases hp : a.pid = some p
  · cases a with
    | spawn q y =>
      obtain rfl : w' = w := hw
      exact h p
    | run q f op r =>
      obtain rfl : q = p := by simpa [Act.pid] using hp
      rcases exec_effect hw with ⟨r₀, heff⟩ | rfl
      · rw [heff.writes]
        have happend : (((w.txn q).writes ++ op.flushed w r₀).filter major).length ≤ 1 := by
          rw [List.filter_append]
          rcases flushed_major (r := r₀) (hg.2 q f op r rfl) with hnil | ⟨hnil, hlen⟩
          · rw [hnil, List.append_nil]
            exact h q
          · rw [hnil]
            exact hlen
        cases op <;> first
          | exact happend
          | exact Nat.zero_le 1
      · exact h q
    | crash q =>
      obtain rfl : w' = w.rollback q := hw
      obtain rfl : q = p := by simpa [Act.pid] using hp
      simp [World.rollback, Txn.empty]
    | outer x => simp [Act.pid] at hp
  · rw [wstep_txn hw hp]
    exact h p

/-- The row that a session settles is as it was when the session chose it. -/
def Chosen (w : World) : Prop := ∀ p id t, Write.payIntent id t ∈ (w.txn p).writes →
  ∃ k, w.Held p k ∧ k.id = id ∧ (k.status = .PENDING ∨ t = none ∧ k.status = .FAILED)

theorem Chosen.of_closed (h : w.Closed) : Chosen w := fun p id t hx => by simp [h p, Txn.empty] at hx

/-- A session that goes on keeps what it holds. -/
theorem held_own (h : TableStep p w w') (hne : (w'.txn p).writes ≠ []) {i : PaymentIntent}
    (hi : w.Held p i) : w'.Held p i := by
  cases h with
  | aside ws intents _ _ _ _ session => exact ⟨intents ▸ hi.1, session.locks ▸ hi.2⟩
  | lock ids _ db session =>
    exact ⟨db ▸ hi.1, session.locks ▸ List.mem_append_left _ hi.2⟩
  | store o j _ _ _ _ _ intents _ _ _ session => exact ⟨intents ▸ hi.1, session.locks ▸ hi.2⟩
  | settle j t _ _ _ _ db session =>
    exact ⟨db ▸ hi.1, session.locks ▸ List.mem_append_left _ hi.2⟩
  | record r _ _ _ intents _ _ _ session => exact ⟨intents ▸ hi.1, session.locks ▸ hi.2⟩
  | commit _ session => exact absurd session.writes hne
  | rollback _ session => exact absurd session.writes hne

theorem Chosen.step (h : Chosen w) (hc : Consistent w) (hw : system.WStep w a w')
    (hg : Pipeline.logic.Guarded w past a w') : Chosen w' := by
  intro p id t hx
  have hold : ∃ k, w.Held p k ∧ k.id = id ∧ (k.status = .PENDING ∨ t = none ∧ k.status = .FAILED) := by
    rcases wstep_payIntent hw hx with hx | ⟨f, i, r, rfl, hid⟩
    · exact h p id t hx
    · have hlaw := hg.2 p f _ r rfl
      cases t with
      | none =>
        obtain ⟨hheld, hs⟩ := hlaw
        exact ⟨i, hheld, hid, hs.imp_right fun hs => ⟨rfl, hs⟩⟩
      | some t =>
        obtain ⟨hheld, r', -, -, hholds, -⟩ := hlaw
        exact ⟨i, hheld, hid, Or.inl hholds.1⟩
  obtain ⟨k, hk, hid, hs⟩ := hold
  refine ⟨k, ?_, hid, hs⟩
  by_cases hp : a.pid = some p
  · obtain ⟨q, hq, -⟩ := wstep_tableStep (p := p) hw
    by_cases hqp : q = p
    · subst hqp
      exact held_own hq (List.ne_nil_of_mem hx) hk
    · exact hq.held hc.locks hqp hk
  · exact wstep_held hw hc.locks hp hk

/-! ## A commit is one entry -/

/-- Only the writes that a book shows change the intents. -/
theorem commit_intents (db : Db) (ws : List Write) :
    (db.commit ws).intents = (db.commit (ws.filter major)).intents := by
  induction ws using List.reverseRecOn with
  | nil => rfl
  | append_singleton ws x ih =>
    rw [Db.commit_append, List.filter_append]
    cases x with
    | insIntent i =>
      rw [show [Write.insIntent i].filter major = [.insIntent i] from rfl, Db.commit_append]
      simp only [Write.apply, ih]
    | payIntent id t =>
      rw [show [Write.payIntent id t].filter major = [.payIntent id t] from rfl, Db.commit_append]
      simp only [Write.apply, ih]
    | insSms r =>
      rw [show [Write.insSms r].filter major = [.insSms r] from rfl, Db.commit_append]
      exact ih
    | insOrder o | insEvent e | payOrder id | publish ids | eventError u =>
      rw [show List.filter major [_] = [] from rfl, List.append_nil]
      exact ih

theorem insertedSms_major (ws : List Write) : insertedSms ws = insertedSms (ws.filter major) := by
  unfold insertedSms
  rw [List.filterMap_filter]
  refine List.filterMap_congr fun x _ => ?_
  cases x <;> rfl

/-- What the steps of the run keep. -/
structure Kept (c : State) : Prop where
  lawful : Pipeline.logic.Holds c
  orderly : Waits.logic.Holds c
  attached : Pipeline.AttachedOk c.world
  chosen : Chosen c.world
  single : Single c.world

theorem Kept.consistent {c : State} (h : Kept c) : Consistent c.world := h.orderly.inv

theorem Kept.step {c c' : State} (h : Kept c) (hs : StepsIf Pipeline.ByStream c a c') : Kept c' := by
  obtain ⟨hg, hlawful⟩ := Pipeline.sound.step hs.1 hs.2 h.lawful
  obtain ⟨ho, horderly⟩ := Waits.sound.step hs.1 trivial h.orderly
  have hw := hs.1.wstep.1
  exact ⟨hlawful, horderly, h.attached.step h.consistent hw hg, h.chosen.step h.consistent hw hg,
    h.single.step hw ho⟩

section Commit

variable {c : State} {B : Book} (h : Kept c) (hB : Shows c.world B)

include h hB

/-- A new PENDING intent. -/
theorem posts_place {i : PaymentIntent} (hi : Write.insIntent i ∈ (c.world.txn p).writes)
    (hintents : w'.db.intents = c.world.db.intents ++ [i]) (hsms : w'.db.sms = c.world.db.sms) :
    ∃ e B', Ledger.Posts B e B' ∧ Shows w' B' := by
  have hok := h.consistent.intents
  have hfresh : ∀ j ∈ c.world.db.intents, j.id ≠ i.id := fun j hj heq =>
    absurd (hok.unique none (some p) j i hj hi heq) (by simp)
  obtain ⟨hpending, -⟩ := hok.new p i hi
  have hid : ∀ b ∈ B.bills, b.id ≠ i.id := by
    intro b hb
    obtain ⟨j, hj, rfl⟩ := hB.mem.mp hb
    exact hfresh j hj
  have hfree : ∀ b ∈ B.bills, b.standing = .awaiting → b.amount ≠ i.exactAmount := by
    intro b hb hs ha
    obtain ⟨j, hj, rfl⟩ := hB.mem.mp hb
    exact hfresh j hj (hok.holder none (some p) j i i.exactAmount hj hi
      ⟨standing_awaiting.mp hs, ha⟩ ⟨hpending, rfl⟩)
  refine ⟨_, _, .place hid hfree, ⟨?_, hB.transfers.trans (by rw [hsms])⟩⟩
  rw [hintents, List.map_append, ← hB.bills]
  show B.bills ++ [_] = B.bills ++ [bill i]
  rw [bill, standing_awaiting.mpr hpending]

/-- A new SMS transaction. -/
theorem posts_receive {r : SMSTransaction} (hr : Write.insSms r ∈ (c.world.txn p).writes)
    (hintents : w'.db.intents = c.world.db.intents) (hsms : w'.db.sms = c.world.db.sms ++ [r]) :
    ∃ e B', Ledger.Posts B e B' ∧ Shows w' B' := by
  have hid : ∀ x ∈ B.transfers, x.id ≠ r.id := by
    intro x hx heq
    obtain ⟨s, hs, rfl⟩ := hB.mem_transfers.mp hx
    exact absurd (h.consistent.sms.unique none (some p) s r hs hr (Or.inl heq)) (by simp)
  refine ⟨_, _, .receive (a := r.smsAmount) hid, ⟨hB.bills.trans (by rw [hintents]), ?_⟩⟩
  rw [hsms, List.map_append, ← hB.transfers]
  rfl

/-- The standings after a settlement. -/
theorem bills_restand {k : PaymentIntent} {t : Option Id} {s : Ledger.Standing Id}
    (hk : k ∈ c.world.db.intents) (hs : standing (k.pay t) = s)
    (hintents : w'.db.intents = c.world.db.intents.map fun i => if i.id = k.id then i.pay t else i) :
    B.bills.map (Ledger.Bill.restand k.id s) = w'.db.intents.map bill := by
  rw [hintents, hB.bills, List.map_map, List.map_map]
  refine List.map_congr_left fun i hi => ?_
  simp only [Function.comp_apply, Ledger.Bill.restand]
  by_cases hid : i.id = k.id
  · obtain rfl := h.consistent.intent_eq hi hk hid
    rw [if_pos (show (bill i).id = i.id from rfl), if_pos rfl, ← hs]
    rfl
  · rw [if_neg (show ¬ (bill i).id = k.id from hid), if_neg hid]

/-- A settlement, by an SMS transaction or by an administrator. -/
theorem posts_payIntent {id : Id} {t : Option Id}
    (hx : Write.payIntent id t ∈ (c.world.txn p).writes)
    (hintents : w'.db.intents = c.world.db.intents.map fun i => if i.id = id then i.pay t else i)
    (hsms : w'.db.sms = c.world.db.sms) : ∃ e B', Ledger.Posts B e B' ∧ Shows w' B' := by
  obtain ⟨k, hk, rfl, hs⟩ := h.chosen p id t hx
  have hb : bill k ∈ B.bills := hB.mem.mpr ⟨k, hk.1, rfl⟩
  have htransfers : B.transfers = w'.db.sms.map transfer := hB.transfers.trans (by rw [hsms])
  cases t with
  | some n =>
    have hpending : k.status = .PENDING := hs.resolve_right fun h => absurd h.1 (by simp)
    obtain ⟨k', hk', hid, r, hr, rfl, ha⟩ := h.attached.flying p k.id n hx
    obtain rfl := h.consistent.intent_eq hk' hk.1 hid
    have hunused : ∀ b ∈ B.bills, b.standing ≠ .paidBy r.id := by
      intro b hb hpaid
      obtain ⟨j, hj, rfl⟩ := hB.mem.mp hb
      obtain ⟨hstatus, hjs⟩ := standing_paidBy.mp hpaid
      have hjk := h.consistent.settled.cross p k'.id r.id hx j hj hjs
      rw [h.consistent.intent_eq hj hk.1 hjk, hpending] at hstatus
      exact absurd hstatus (by simp)
    exact ⟨_, _, .settle (x := transfer r) hb (standing_awaiting.mpr hpending)
      (hB.mem_transfers.mpr ⟨r, hr, rfl⟩) ha.symm hunused,
      bills_restand h hB hk.1 rfl hintents, htransfers⟩
  | none =>
    have hopen : standing k = .awaiting ∨ standing k = .failed :=
      hs.imp standing_awaiting.mpr fun h => standing_failed.mpr h.2
    have hnone : k.smsTransactionId = none := by
      cases ht : k.smsTransactionId with
      | none => rfl
      | some n =>
        have hpaid := h.consistent.settled.paid k hk.1 n ht
        rcases hs with hs | ⟨-, hs⟩ <;> rw [hs] at hpaid <;> cases hpaid
    have hwaived : standing (k.pay none) = .waived := by
      unfold standing
      rw [pay_status, pay_none_sms, hnone]
    exact ⟨_, _, .waive hb hopen, bills_restand h hB hk.1 hwaived hintents, htransfers⟩

/-- **A commit is one entry of the book, or none.** -/
theorem commit_posts (hdb : w'.db = c.world.db.commit (c.world.txn p).writes) :
    Shows w' B ∨ ∃ e B', Ledger.Posts B e B' ∧ Shows w' B' := by
  have hintents : w'.db.intents =
      (c.world.db.commit ((c.world.txn p).writes.filter major)).intents := by
    rw [hdb, commit_intents]
  have hsms : w'.db.sms = c.world.db.sms ++ insertedSms ((c.world.txn p).writes.filter major) := by
    rw [hdb, Db.commit_sms, insertedSms_major]
  have hmem : ∀ x, x ∈ (c.world.txn p).writes.filter major → x ∈ (c.world.txn p).writes :=
    fun x hx => (List.mem_filter.mp hx).1
  have hmajor : ∀ x, x ∈ (c.world.txn p).writes.filter major → major x = true :=
    fun x hx => (List.mem_filter.mp hx).2
  have hlen := h.single p
  revert hintents hsms hmem hmajor hlen
  generalize (c.world.txn p).writes.filter major = ws
  intro hintents hsms hmem hmajor hlen
  match ws with
  | [] =>
    refine Or.inl ⟨hB.bills.trans (by rw [hintents, Db.commit_nil]), hB.transfers.trans ?_⟩
    rw [hsms, show insertedSms [] = [] from rfl, List.append_nil]
  | [x] =>
    refine Or.inr ?_
    have hx := hmem x (List.mem_singleton_self x)
    cases x with
    | insIntent i => exact posts_place h hB hx hintents (by simpa [insertedSms] using hsms)
    | insSms r => exact posts_receive h hB hx hintents (by simpa [insertedSms] using hsms)
    | payIntent id t => exact posts_payIntent h hB hx hintents (by simpa [insertedSms] using hsms)
    | insOrder _ | insEvent _ | payOrder _ | publish _ | eventError _ =>
      exact absurd (hmajor _ (List.mem_singleton_self _)) (by simp [major])
  | _ :: _ :: _ => simp at hlen

end Commit

/-! ## The service keeps the book -/

/-- Only a commit changes the SMS transactions. -/
theorem run_sms {op : Op} {r : Except Exc op.Ret} (h : op.run p w r w') (hop : op ≠ .commit) :
    w'.db.sms = w.db.sms := by
  cases op with
  | spop k => rcases h with ⟨a, -, -, rfl⟩ | ⟨-, -, rfl⟩ <;> rfl
  | insertOrder userId amount a =>
    simp only [Op.run] at h
    split_ifs at h
    · rcases h with ⟨-, ⟨-, -, rfl⟩ | ⟨-, -, rfl⟩⟩ <;> rfl
    · rw [h.2]
  | lockPending a =>
    simp only [Op.run] at h
    split at h
    · rw [h.2]
    · split at h
      · rw [Locks.parts h, lock_db]
      · rw [h.2]
  | lockById paymentId orderId =>
    simp only [Op.run] at h
    split_ifs at h
    · rw [Locks.parts h, lock_db]
    · rw [h.2]
  | flushPaid i sms => obtain ⟨-, -, ⟨-, -, rfl⟩ | ⟨-, -, rfl⟩⟩ := h <;> rfl
  | insertSms amount inventory date time payload =>
    simp only [Op.run] at h
    split_ifs at h
    · rcases h with ⟨-, ⟨-, -, rfl⟩ | ⟨-, -, rfl⟩⟩ <;> rfl
    · rw [h.2]
  | claimEvents t s l =>
    obtain ⟨sel, -, -, rfl⟩ := h
    rfl
  | xclaim consumer minIdle id =>
    simp only [Op.run] at h
    split_ifs at h <;> rw [h.2]
  | publishEvents ids | failEvents us =>
    obtain ⟨-, -, rfl⟩ := h
    rfl
  | candidate lo hi => rw [h.1]
  | intentBySms t => rw [h.1]
  | commit => exact absurd rfl hop
  | outOfFuel => exact h.elim
  | _ =>
    obtain ⟨-, rfl⟩ := h
    rfl

/-- A commit, acknowledged or not. -/
def commits : Label → Bool
  | .run _ _ .commit _ => true
  | _ => false

/-- A step leaves the intents and the SMS transactions as they are, or it is a commit. -/
theorem wstep_shown (h : system.WStep w a w') :
    (w'.db.intents = w.db.intents ∧ w'.db.sms = w.db.sms) ∨
      commits a = true ∧ ∃ p, w'.db = w.db.commit (w.txn p).writes := by
  have hrun : ∀ {p : Pid} {f : Fault} {op : Op} {r r₀ : Except Exc op.Ret}, op.run p w r₀ w' →
      (w'.db.intents = w.db.intents ∧ w'.db.sms = w.db.sms) ∨
        commits (.run p f op r) = true ∧ ∃ p, w'.db = w.db.commit (w.txn p).writes := by
    intro p f op r r₀ h
    by_cases hop : op = .commit
    · subst hop
      obtain ⟨-, rfl⟩ := h
      exact Or.inr ⟨rfl, p, rfl⟩
    · exact Or.inl ⟨exec_intents (f := .done) h hop, run_sms h hop⟩
  cases a with
  | spawn q y =>
    obtain rfl : w' = w := h
    exact Or.inl ⟨rfl, rfl⟩
  | run q f op r =>
    rcases exec_cases h with h | ⟨rfl, -⟩ | ⟨-, r₀, h, -⟩
    · exact hrun h
    · exact Or.inl ⟨rfl, rfl⟩
    · exact hrun h
  | crash q =>
    obtain rfl : w' = w.rollback q := h
    exact Or.inl ⟨rfl, rfl⟩
  | outer x =>
    obtain rfl : w' = w.tick x := h
    cases x
    exact Or.inl ⟨rfl, rfl⟩

/-- **Every step is one entry of the book, or none.** -/
theorem simulates : Lts.Simulates (StepsIf Pipeline.ByStream) Ledger.Posts (fun a => commits a = true)
    fun c (B : Book) => Kept c ∧ Shows c.world B := by
  rintro c a c' B hs ⟨h, hB⟩
  have h' := h.step hs
  rcases wstep_shown hs.1.wstep.1 with ⟨hintents, hsms⟩ | ⟨hcommit, p, hdb⟩
  · exact Or.inl ⟨h', hB.bills.trans (by rw [hintents]), hB.transfers.trans (by rw [hsms])⟩
  · rcases commit_posts h hB hdb with hsame | ⟨e, B', hp, hB'⟩
    · exact Or.inl ⟨h', hsame⟩
    · exact Or.inr ⟨hcommit, e, B', hp, h', hB'⟩

/-- A book that the tables show at the start says that the amounts agree. -/
theorem Kept.init {w₀ : World} {B : Book} (hclosed : w₀.Closed) (hp : Pipeline.Provenance w₀)
    (hB : Shows w₀ B) : Kept (.init w₀) := by
  have hw : ∀ p, (w₀.txn p).writes = [] := fun p => by rw [hclosed p]; rfl
  refine ⟨.init hp fun _ => trivial, .init hp.consistent fun p => .of_closed hclosed p, ⟨?_, ?_, ?_⟩,
    .of_closed hclosed, .of_closed hclosed⟩
  · intro i hi t ht
    have hpaid := hp.consistent.settled.paid i hi t ht
    obtain ⟨x, hx, hid, ha⟩ := B.covered (bill i) (hB.mem.mpr ⟨i, hi, rfl⟩) t
      (standing_paidBy.mpr ⟨hpaid, ht⟩)
    obtain ⟨r, hr, rfl⟩ := hB.mem_transfers.mp hx
    exact ⟨r, hr, hid, ha.symm⟩
  · intro p id t hx
    have hx : Write.payIntent id (some t) ∈ (w₀.txn p).writes := hx
    simp [hw p] at hx
  · intro p id t hx
    have hx : Write.payIntent id t ∈ (w₀.txn p).writes := hx
    simp [hw p] at hx

/-- **Refinement.**  Whatever fails, and however the requests, relays, workers and startups interleave,
the committed tables show a book that is kept by entries alone: a commit makes one entry at most, and every
other step leaves the book as it is.  So its rules hold in every state: amounts that await payment are
distinct, and a transfer pays one bill, of its own amount. -/
theorem refines_book {w₀ : World} {B₀ : Book} (hclosed : w₀.Closed) (hp : Pipeline.Provenance w₀)
    (hB : Shows w₀ B₀) {tr : List Label} {c : State}
    (hr : Lts.Run (StepsIf Pipeline.ByStream) (.init w₀) tr c) :
    ∃ es B, Lts.Run Ledger.Posts B₀ es B ∧ Shows c.world B ∧ es.length ≤ tr.countP commits ∧
      Lts.Run (Lts.restrict (Lts.Beside (StepsIf Pipeline.ByStream) Ledger.Posts fun a => commits a = true)
        fun _ _ y => Shows y.1.world y.2) (.init w₀, B₀) tr (c, B) := by
  obtain ⟨B, ⟨-, hB'⟩, hrun⟩ := simulates.beside hr ⟨.init hclosed hp hB, hB⟩
  obtain ⟨es, hes, hlen⟩ := hrun.of_restrict.of_beside
  refine ⟨es, B, hes, hB', by simpa using hlen, hrun.mono ?_⟩
  rintro x a y ⟨hs, -, hshows⟩
  exact ⟨hs, hshows⟩

/-- An order whose transfer is relayed and paid, and one that an administrator confirms. -/
theorem refines_book_sample : ∃ (tr : List Label) (c : State) (es : List (Ledger.Entry Id Id Amount))
    (B : Book), Lts.Run (StepsIf Pipeline.ByStream) (.init World.empty) tr c ∧
      (∃ i ∈ c.world.db.intents, i.smsTransactionId = some 1) ∧
      Lts.Run Ledger.Posts .empty es B ∧ Shows c.world B ∧ es.length ≤ tr.countP commits ∧
      Lts.Run (Lts.restrict (Lts.Beside (StepsIf Pipeline.ByStream) Ledger.Posts fun a => commits a = true)
        fun _ _ y => Shows y.1.world y.2) (.init World.empty, .empty) tr (c, B) := by
  obtain ⟨tr, c, hr, htest, -⟩ := plays_run 6 Pipeline.byStream
    (Script.createDown 0 1500001 ++ Script.webhook 1 1500001 ++ Script.relay 2 ++ Script.pay 3 ++
      Script.createDown 4 1500001 ++ Script.confirm 5 2 2)
    (fun c => c.world.db.intents.any fun i => i.smsTransactionId = some 1) (by decide +kernel)
    World.empty_closed
  have hr' := hr.mono fun _ _ _ => Pipeline.byStream_steps
  obtain ⟨es, B, hbook⟩ := refines_book World.empty_closed Pipeline.Provenance.empty .empty hr'
  exact ⟨tr, c, es, B, hr', by simpa using htest, hbook⟩

/-! ## Money -/

/-- The amounts of the intents that SMS transactions settled. -/
def settledAmounts (db : Db) : List Amount :=
  (db.intents.filter fun i => i.smsTransactionId.isSome).map (·.exactAmount)

/-- The amounts of the SMS transactions that settled an intent. -/
def usedAmounts (db : Db) : List ℤ :=
  (db.sms.filter fun r => db.intents.any fun i => i.smsTransactionId = some r.id).map (·.smsAmount)

theorem settledAmounts_eq {B : Book} (hc : Consistent w) (hB : Shows w B) :
    settledAmounts w.db = (B.bills.filterMap Ledger.Book.payment).map Prod.snd := by
  rw [settledAmounts, hB.bills, List.filterMap_map, List.map_filterMap, ← List.filterMap_eq_map,
    List.filterMap_filter]
  refine List.filterMap_congr fun i hi => ?_
  cases ht : i.smsTransactionId with
  | none =>
    have hno : Ledger.Book.payment (bill i) = none := by
      unfold Ledger.Book.payment
      split
      · rename_i t hpaid
        have := (standing_paidBy.mp hpaid).2
        rw [ht] at this
        cases this
      · rfl
    simp [hno]
  | some t =>
    have hpaid : Ledger.Book.payment (bill i) = some (t, i.exactAmount) :=
      Ledger.Book.payment_eq.mpr ⟨standing_paidBy.mpr ⟨hc.settled.paid i hi t ht, ht⟩, rfl⟩
    simp [hpaid]

theorem usedAmounts_eq {B : Book} (hc : Consistent w) (hB : Shows w B) [DecidablePred B.Used] :
    usedAmounts w.db = (B.transfers.filter fun x => B.Used x).map (·.amount) := by
  rw [usedAmounts, hB.transfers, List.filter_map, List.map_map]
  congr 1
  refine List.filter_congr fun r _ => ?_
  have hiff : B.Used (transfer r) ↔ ∃ i ∈ w.db.intents, i.smsTransactionId = some r.id := by
    constructor
    · rintro ⟨b, hb, hs⟩
      obtain ⟨i, hi, rfl⟩ := hB.mem.mp hb
      exact ⟨i, hi, (standing_paidBy.mp hs).2⟩
    · rintro ⟨i, hi, ht⟩
      exact ⟨bill i, hB.mem.mpr ⟨i, hi, rfl⟩,
        standing_paidBy.mpr ⟨hc.settled.paid i hi _ ht, ht⟩⟩
  rw [Function.comp_apply, Bool.eq_iff_iff, decide_eq_true_iff, hiff]
  simp

/-- **Money is conserved.**  In every state that the requests reach, the orders that transfers settled
add up to exactly the transfers that settled them: no transfer counts twice, and none for another amount. -/
theorem money_conserved {w₀ : World} {B₀ : Book} (hclosed : w₀.Closed) (hp : Pipeline.Provenance w₀)
    (hB : Shows w₀ B₀) {tr : List Label} {c : State}
    (hr : Lts.Run (StepsIf Pipeline.ByStream) (.init w₀) tr c) :
    (settledAmounts c.world.db).sum = (usedAmounts c.world.db).sum := by
  classical
  obtain ⟨B, ⟨hk, hB'⟩, -⟩ := simulates.beside hr ⟨.init hclosed hp hB, hB⟩
  rw [settledAmounts_eq hk.consistent hB', usedAmounts_eq hk.consistent hB', B.balance]

/-- One order is settled by a transfer, one is confirmed, and one transfer is left. -/
theorem money_conserved_sample : ∃ (tr : List Label) (c : State),
    Lts.Run (StepsIf Pipeline.ByStream) (.init World.empty) tr c ∧
      settledAmounts c.world.db = [1500001] ∧ c.world.db.sms.length = 2 ∧
      (settledAmounts c.world.db).sum = (usedAmounts c.world.db).sum := by
  obtain ⟨tr, c, hr, htest, -⟩ := plays_run 7 Pipeline.byStream
    (Script.createDown 0 1500001 ++ Script.webhook 1 1500001 ++ Script.relay 2 ++ Script.pay 3 ++
      Script.createDown 4 1500001 ++ Script.confirm 5 2 2 ++ Script.webhook 6 1500003)
    (fun c => settledAmounts c.world.db = [1500001] ∧ c.world.db.sms.length = 2) (by decide +kernel)
    World.empty_closed
  have hr' := hr.mono fun _ _ _ => Pipeline.byStream_steps
  have htest := of_decide_eq_true htest
  exact ⟨tr, c, hr', htest.1, htest.2,
    money_conserved World.empty_closed Pipeline.Provenance.empty .empty hr'⟩

end Accounts

end PaymentRecon
