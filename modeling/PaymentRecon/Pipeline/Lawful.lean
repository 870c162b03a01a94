import PaymentRecon.Model.Ordinary
import PaymentRecon.Tables.Growth

/-!
# Lawful — what the programs of the pipeline guarantee at each operation

The payload of an SMS transaction travels by value: outbox row, stream entry, message in a worker,
dead letter, replayed entry.  `Lawful p w past op` is the promise under which a thread performs an
operation: what it writes to a stream is the payload of a committed SMS transaction, what it settles
is a PENDING row that it holds the lock of, what it acknowledges was handled or copied to the
dead-letter stream right before.  `Provenance` is the invariant that lawful steps keep; the results
about the pipeline are derived from these promises, with no program in sight.
-/

namespace PaymentRecon

open Interleave Streams Rely

namespace Pipeline

/-! ## Payloads -/

/-- The payload of a committed SMS transaction. -/
def Genuine (w : World) (d : Json) : Prop :=
  ∃ r ∈ w.db.sms, ∃ traceId, d = transactionData r.id traceId r.smsAmount

/-- Stream fields with such a payload. -/
def GenuineFields (w : World) (f : Fields) : Prop := ∃ d, f.data = some d ∧ Genuine w d

/-- The event `id` carries the payload `d`. -/
def Known (w : World) (id : Id) (d : Json) : Prop := ∃ e ∈ w.db.outbox, e.id = id ∧ e.data = d

/-- The entry `id` of the main stream carries the payload `d`. -/
def Entry (w : World) (id : StreamId) (d : Json) : Prop :=
  ∃ f, (id, f) ∈ w.main.entries ∧ f.data = some d

/-- An XADD of `d` to the main stream succeeded. -/
def Enqueued (past : List Label) (d : Json) : Prop :=
  ∃ p fl f x, Act.run p fl (Op.xadd f) (.ok x) ∈ past ∧ f.data = some d

/-- An XADD of `d` to the dead-letter stream succeeded. -/
def DeadLettered (past : List Label) (d : Json) : Prop :=
  ∃ p fl f x, Act.run p fl (Op.xaddDead f) (.ok x) ∈ past ∧ f.data = some d

/-- The last thing `p` learnt is that the handler of the entry `id` succeeded or raised
`IgnoreAndAckMessage`. -/
def HandledLast (p : Pid) (past : List Label) (id : StreamId) : Prop :=
  ∃ fl, lastOf p past = some (.run p fl (Op.note (.handled id true)) (.ok ()))

/-- The last thing `p` did is to copy the entry `id` to the dead-letter stream. -/
def CopiedLast (p : Pid) (past : List Label) (id : StreamId) : Prop :=
  ∃ fl f x, lastOf p past = some (.run p fl (Op.xaddDead f) (.ok x)) ∧ f.originalId = some id

/-- The answer contains the payload `d`. -/
def Gives (d : Json) : (op : Op) → Except Exc op.Ret → Prop
  | .xreadgroup _ _, .ok es => ∃ e ∈ es, e.2.data = some d
  | .xclaim _ _ _, .ok es => ∃ e ∈ es, e.2.data = some d
  | .xrangeDead _, .ok es => ∃ e ∈ es, e.2.data = some d
  | .claimEvents _ _ _, .ok es => ∃ e ∈ es, e.data = d
  | _, _ => False

/-- `p` read the payload from the outbox or from a stream. -/
def Got (p : Pid) (past : List Label) (d : Json) : Prop :=
  ∃ fl op r, Act.run p fl op r ∈ past ∧ Gives d op r

/-- `p` read the payload of a committed SMS transaction. -/
def Received (p : Pid) (w : World) (past : List Label) (d : Json) : Prop :=
  Genuine w d ∧ Got p past d

/-- Stream fields with such a payload. -/
def Carried (p : Pid) (w : World) (past : List Label) (f : Fields) : Prop :=
  ∃ d, f.data = some d ∧ Received p w past d

/-- What a relay may report of an event that it did not publish. -/
def Unpublished (w : World) (past : List Label) (u : EventUpdate) : Prop :=
  u.status = .PENDING ∨ u.status = .FAILED ∧
    (MAX_OUTBOX_RETRIES ≤ u.retryCount ∨ ∃ d, Known w u.id d ∧ DeadLettered past d)

/-- The promise under which `p` performs the operation. -/
def Lawful (p : Pid) (w : World) (past : List Label) : Op → Prop
  | .xadd f => Carried p w past f
  | .xaddDead f => Carried p w past f ∧
      ∀ id, f.originalId = some id → ∃ d, f.data = some d ∧ Entry w id d
  | .moveDead f x => ∃ g, f = { g with attempts := some 0 } ∧ Carried p w past g ∧
      ∀ e ∈ w.dead.entries, e.1 = x.lo → e.2 = g
  | .insertEvent data => ∃ r traceId, Write.insSms r ∈ (w.txn p).writes ∧
      data = transactionData r.id traceId r.smsAmount
  | .flushPaid i (some t) => w.Held p i ∧ ∃ r ∈ w.db.sms, r.id = t ∧ i.Holds r.smsAmount ∧
      ∃ traceId, Got p past (transactionData r.id traceId r.smsAmount)
  | .flushPaid i none => w.Held p i ∧ (i.status = .PENDING ∨ i.status = .FAILED)
  | .xack id => HandledLast p past id ∨ CopiedLast p past id
  | .publishEvents ids => ∀ id ∈ ids, ∃ d, Known w id d ∧ Enqueued past d
  | .failEvents us => ∀ u ∈ us, Unpublished w past u ∧ ∃ d, Known w u.id d ∧ Got p past d
  | _ => True

/-- Where the payloads come from. -/
structure Provenance (w : World) : Prop where
  consistent : Consistent w
  main : ∀ e ∈ w.main.entries, GenuineFields w e.2
  dead : ∀ e ∈ w.dead.entries, GenuineFields w e.2
  outbox : ∀ e ∈ w.db.outbox, Genuine w e.data
  flushed : ∀ p e, Write.insEvent e ∈ (w.txn p).writes → ∃ r traceId,
    Write.insSms r ∈ (w.txn p).writes ∧ e.data = transactionData r.id traceId r.smsAmount

/-- Payment messages reach `handle_payment` through the streams only. -/
def ByStream : StepCond := fun _ _ a _ =>
  match a with
  | .spawn _ (.handlePayment _) => False
  | _ => True

instance (w : World) (past : List Label) (a : Label) (w' : World) : Decidable (ByStream w past a w') :=
  match a with
  | .spawn _ (.handlePayment _) => inferInstanceAs (Decidable False)
  | .spawn _ (.createOrder _ _) | .spawn _ (.confirmPayment _ _) | .spawn _ (.receiveTransaction _)
  | .spawn _ .processOutboxEvent | .spawn _ (.work _) | .spawn _ (.replayDlq _)
  | .spawn _ (.lifespan _) | .run _ _ _ _ | .crash _ | .outer _ => inferInstanceAs (Decidable True)

/-- A webhook call that answered `accepted` left its row and its event. -/
def AcceptedRows (r : Except Exc Response) (w : World) (_ : List Label) : Prop :=
  ∀ t, r = .ok (.accepted t) → ∃ s ∈ w.db.sms, s.id = t ∧
    ∃ e ∈ w.db.outbox, ∃ traceId, e.data = transactionData s.id traceId s.smsAmount

def logic : Rely sig Exc Response World Request Tick where
  machine := system
  cond := ByStream
  inv := fun w _ => Provenance w
  start := fun _ => top
  guard := Lawful
  final := fun _ => AcceptedRows

/-! ## Facts that every step keeps -/

variable {p : Pid} {w w' : World} {a : Label} {past : List Label}

theorem wstep_sms (h : system.WStep w a w') {r : SMSTransaction} (hr : r ∈ w.db.sms) :
    r ∈ w'.db.sms := by
  obtain ⟨q, hq, -⟩ := wstep_tableStep (p := 0) h
  exact hq.sms_mono hr

theorem Genuine.step (h : system.WStep w a w') {d : Json} (hd : Genuine w d) : Genuine w' d := by
  obtain ⟨r, hr, hd⟩ := hd
  exact ⟨r, wstep_sms h hr, hd⟩

theorem GenuineFields.step (h : system.WStep w a w') {f : Fields} (hf : GenuineFields w f) :
    GenuineFields w' f := by
  obtain ⟨d, hd, hg⟩ := hf
  exact ⟨d, hd, hg.step h⟩

theorem Known.step (h : system.WStep w a w') {id : Id} {d : Json} (hk : Known w id d) :
    Known w' id d := by
  obtain ⟨e, he, hid, hd⟩ := hk
  obtain ⟨e', he', hid', hd'⟩ := wstep_outbox h he
  exact ⟨e', he', hid'.trans hid, hd'.trans hd⟩

theorem Entry.step (h : system.WStep w a w') {id : StreamId} {d : Json} (he : Entry w id d) :
    Entry w' id d := by
  obtain ⟨f, hf, hd⟩ := he
  exact ⟨f, wstep_main h hf, hd⟩

theorem Got.mono {d : Json} (h : Got p past d) : Got p (past ++ [a]) d := by
  obtain ⟨fl, op, r, hm, hd⟩ := h
  exact ⟨fl, op, r, List.mem_append_left _ hm, hd⟩

theorem Got.read {f : Fault} {op : Op} {r : Except Exc op.Ret} {d : Json} (h : Gives d op r) :
    Got p (past ++ [.run p f op r]) d :=
  ⟨f, op, r, List.mem_append_right _ (List.mem_singleton_self _), h⟩

theorem Received.step (h : system.WStep w a w') {d : Json} (hd : Received p w past d) :
    Received p w' (past ++ [a]) d :=
  ⟨hd.1.step h, hd.2.mono⟩

theorem Carried.step (h : system.WStep w a w') {f : Fields} (hf : Carried p w past f) :
    Carried p w' (past ++ [a]) f := by
  obtain ⟨d, hd, hr⟩ := hf
  exact ⟨d, hd, hr.step h⟩

theorem Carried.genuine {f : Fields} (hf : Carried p w past f) : GenuineFields w f := by
  obtain ⟨d, hd, hr⟩ := hf
  exact ⟨d, hd, hr.1⟩

theorem Enqueued.mono {d : Json} (h : Enqueued past d) : Enqueued (past ++ [a]) d := by
  obtain ⟨q, fl, f, x, hm, hd⟩ := h
  exact ⟨q, fl, f, x, List.mem_append_left _ hm, hd⟩

theorem DeadLettered.mono {d : Json} (h : DeadLettered past d) : DeadLettered (past ++ [a]) d := by
  obtain ⟨q, fl, f, x, hm, hd⟩ := h
  exact ⟨q, fl, f, x, List.mem_append_left _ hm, hd⟩

theorem Unpublished.step (h : system.WStep w a w') {u : EventUpdate} (hu : Unpublished w past u) :
    Unpublished w' (past ++ [a]) u := by
  rcases hu with hu | ⟨hs, hr | ⟨d, hk, hd⟩⟩
  · exact Or.inl hu
  · exact Or.inr ⟨hs, Or.inl hr⟩
  · exact Or.inr ⟨hs, Or.inr ⟨d, hk.step h, hd.mono⟩⟩

/-! ## Lawful steps keep the provenance -/

theorem Provenance.quiet (h : Provenance w) (hc : Consistent w') (hm : w'.main = w.main)
    (hd : w'.dead = w.dead) (ho : w'.db.outbox = w.db.outbox)
    (hs : ∀ r ∈ w.db.sms, r ∈ w'.db.sms)
    (hf : ∀ q e, Write.insEvent e ∈ (w'.txn q).writes → Write.insEvent e ∈ (w.txn q).writes ∧
      ∀ r, Write.insSms r ∈ (w.txn q).writes → Write.insSms r ∈ (w'.txn q).writes) :
    Provenance w' := by
  have hg : ∀ d, Genuine w d → Genuine w' d := fun d ⟨r, hr, hd⟩ => ⟨r, hs r hr, hd⟩
  have hgf : ∀ f, GenuineFields w f → GenuineFields w' f := fun f ⟨d, hd, hgd⟩ => ⟨d, hd, hg d hgd⟩
  refine ⟨hc, ?_, ?_, ?_, ?_⟩
  · rw [hm]
    exact fun e he => hgf _ (h.main e he)
  · rw [hd]
    exact fun e he => hgf _ (h.dead e he)
  · rw [ho]
    exact fun e he => hg _ (h.outbox e he)
  · intro q e he
    obtain ⟨hold, hkeep⟩ := hf q e he
    obtain ⟨r, traceId, hr, hd⟩ := h.flushed q e hold
    exact ⟨r, traceId, hkeep r hr, hd⟩

theorem Provenance.rollback (h : Provenance w) : Provenance (w.rollback p) := by
  refine h.quiet (h.consistent.tableStep (.rollback (p := p) rfl (SessionIs.setTxn rfl))) rfl rfl
    rfl (fun _ hr => hr) ?_
  intro q e he
  rw [rollback_txn] at he
  split_ifs at he with hq
  · simp [Txn.empty] at he
  · exact ⟨he, fun r hr => by rwa [rollback_txn, if_neg hq]⟩

theorem Provenance.exec {f : Fault} {op : Op} {r : Except Exc op.Ret} (h : Provenance w)
    (hl : Lawful p w past op) (hx : exec f p op w r w') : Provenance w' := by
  have hw : system.WStep w (.run p f op r) w' := hx
  have hc : Consistent w' := h.consistent.tableStep (exec_tableStep hx)
  rcases exec_effect hx with ⟨r₀, heff⟩ | rfl
  · refine ⟨hc, ?_, ?_, ?_, ?_⟩
    · intro e he
      rw [heff.main] at he
      cases op with
      | xadd f =>
        rcases Stream.mem_xadd.mp he with he | rfl
        · exact (h.main e he).step hw
        · exact GenuineFields.step hw (Carried.genuine hl)
      | moveDead f x =>
        rcases Stream.mem_xadd.mp he with he | rfl
        · exact (h.main e he).step hw
        · obtain ⟨g, rfl, hg, -⟩ := hl
          exact GenuineFields.step hw (f := { g with attempts := some 0 }) hg.genuine
      | _ => exact (h.main e he).step hw
    · intro e he
      rw [heff.dead] at he
      cases op with
      | xaddDead f =>
        rcases Stream.mem_xadd.mp he with he | rfl
        · exact (h.dead e he).step hw
        · exact GenuineFields.step hw hl.1.genuine
      | moveDead f x => exact (h.dead e (Stream.mem_xdel.mp he).1).step hw
      | _ => exact (h.dead e he).step hw
    · intro e' he'
      obtain ⟨e, -, hd, he | ⟨q, hm, hdb⟩⟩ := wstep_outbox_from hw he'
      · exact hd ▸ (h.outbox e he).step hw
      · obtain ⟨s, traceId, hs, hdata⟩ := h.flushed q e hm
        refine ⟨s, ?_, traceId, hd ▸ hdata⟩
        rw [hdb, World.commit_eq, setTxn_db, Db.commit_sms]
        exact List.mem_append_right _ (mem_insertedSms.mpr hs)
    · intro q e he
      by_cases hq : q = p
      · subst hq
        rw [heff.writes] at he ⊢
        have hkeep : ∀ x ∈ (w.txn q).writes ++ op.flushed w r₀,
            op ≠ .commit → op ≠ .rollback → x ∈ op.writesAfter q w r₀ := by
          intro x hx h1 h2
          cases op <;> first | exact hx | exact absurd rfl h1 | exact absurd rfl h2
        cases op with
        | commit => simp [Op.writesAfter] at he
        | rollback => simp [Op.writesAfter] at he
        | insertEvent data =>
          rcases List.mem_append.mp he with he | he
          · obtain ⟨s, traceId, hs, hd⟩ := h.flushed q e he
            exact ⟨s, traceId, hkeep _ (List.mem_append_left _ hs) (by simp) (by simp), hd⟩
          · obtain ⟨s, traceId, hs, rfl⟩ := hl
            have hdata : e.data = transactionData s.id traceId s.smsAmount := by
              cases r₀ with
              | ok e₀ =>
                obtain rfl : e = w.newEvent (transactionData s.id traceId s.smsAmount) := by
                  simpa [Op.flushed] using he
                rfl
              | error _ => simp [Op.flushed] at he
            exact ⟨s, traceId, hkeep _ (List.mem_append_left _ hs) (by simp) (by simp), hdata⟩
        | insertOrder u m x | flushPaid i s | insertSms _ _ _ _ _ | publishEvents _ =>
          rcases List.mem_append.mp he with he | he
          · obtain ⟨s, traceId, hs, hd⟩ := h.flushed q e he
            exact ⟨s, traceId, hkeep _ (List.mem_append_left _ hs) (by simp) (by simp), hd⟩
          · cases r₀ <;> simp [Op.flushed] at he
        | failEvents us =>
          rcases List.mem_append.mp he with he | he
          · obtain ⟨s, traceId, hs, hd⟩ := h.flushed q e he
            exact ⟨s, traceId, hkeep _ (List.mem_append_left _ hs) (by simp) (by simp), hd⟩
          · simp [Op.flushed] at he
        | _ =>
          rcases List.mem_append.mp he with he | he
          · obtain ⟨s, traceId, hs, hd⟩ := h.flushed q e he
            exact ⟨s, traceId, hkeep _ (List.mem_append_left _ hs) (by simp) (by simp), hd⟩
          · simp [Op.flushed] at he
      · rw [heff.others q hq] at he ⊢
        exact h.flushed q e he
  · exact h

end Pipeline

end PaymentRecon
