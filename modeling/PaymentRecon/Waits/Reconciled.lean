import PaymentRecon.Settle.Collected
import PaymentRecon.Waits.Recovery

/-!
# Reconciled — the transfers on their way pay the orders that wait for them

What the recovery does to orders and transfers: relays move the transfers from the outbox into the stream,
turns of a worker apply them.  So when the pipeline is empty, a PENDING intent is left only where no
transfer of its amount was on the way.
-/

namespace PaymentRecon

open Interleave Lts Streams Requests

namespace Waits

variable {p q : Pid} {w w₁ w' : World} {c c' : State} {a : Label} {tr tr' : List Label} {cs : Calls}
  {n d : ℕ} {r : SMSTransaction}

/-! ## Recorded transfers -/

/-- The ids of transfers count up from 1, and their amounts fit the column. -/
structure Recorded (w : World) : Prop where
  next : 1 ≤ w.db.nextSms
  rows : ∀ o r, w.SmsRow o r → 1 ≤ r.id ∧ inInt4 r.smsAmount

theorem Recorded.empty : Recorded World.empty := by
  refine ⟨le_rfl, fun o r h => ?_⟩
  cases o <;> exact absurd h List.not_mem_nil

theorem recorded_insertSms {f : Fault} {amount inventory : ℤ} {date time payload : String}
    {res : Except Exc SMSTransaction} (h : exec f p (.insertSms amount inventory date time payload) w res w')
    (hin : ¬ inInt4 amount) : w' = w := by
  have hrun : ∀ res, (Op.insertSms amount inventory date time payload).run p w res w' → w' = w := by
    intro res hx
    have hall : ¬ (inInt4 amount ∧ inInt4 inventory ∧ date.length ≤ 10 ∧ time.length ≤ 5) :=
      fun hall => hin hall.1
    simp only [Op.run, if_neg hall] at hx
    exact hx.2
  rcases exec_cases h with hx | ⟨rfl, -⟩ | ⟨-, r₀, hx, -⟩
  · exact hrun _ hx
  · rfl
  · exact hrun _ hx

theorem Recorded.step (h : Recorded w) (hw : system.WStep w a w') : Recorded w' := by
  obtain ⟨q, hstep, -⟩ := wstep_tableStep (p := 0) hw
  refine ⟨h.next.trans hstep.nextSms_le, fun o r hr => ?_⟩
  cases o with
  | none =>
    have hr : r ∈ w'.db.sms := hr
    cases hstep with
    | aside _ _ sms _ _ _ _ | store _ _ _ _ _ _ _ _ sms _ _ _ | record _ _ _ _ _ sms _ _ _ =>
      exact h.rows none r (show r ∈ w.db.sms from sms ▸ hr)
    | lock _ _ db _ | settle _ _ _ _ _ _ db _ | rollback db _ =>
      exact h.rows none r (show r ∈ w.db.sms from db ▸ hr)
    | commit db _ =>
      rw [db, Db.commit_sms, List.mem_append, mem_insertedSms] at hr
      rcases hr with hr | hr
      · exact h.rows none r hr
      · exact h.rows (some q) r hr
  | some q =>
    have hr : Write.insSms r ∈ (w'.txn q).writes := hr
    rcases wstep_writes hw hr with hold | ⟨f, op, res, r₀, rfl, hnew⟩
    · exact h.rows (some q) r hold
    · cases op with
      | insertSms amount inventory date time payload =>
        by_cases hin : inInt4 amount
        · cases r₀ with
          | ok x =>
            obtain rfl : r = w.newSms amount inventory date time payload := by simpa [Op.flushed] using hnew
            exact ⟨h.next, hin⟩
          | error e => simp [Op.flushed] at hnew
        · obtain rfl := recorded_insertSms hw hin
          exact h.rows (some q) r hr
      | insertOrder _ _ _ | flushPaid _ _ | insertEvent _ => cases r₀ <;> simp [Op.flushed] at hnew
      | _ => simp [Op.flushed] at hnew

theorem Idle.agrees (h : Idle c) : Consistent c.world ∧ Settle.Agrees c.world.db := by
  obtain ⟨tr, hr⟩ := h.reached
  obtain ⟨hH, hA⟩ := Settle.Agree.reached hr.of_restrict (.init Consistent.empty fun _ => rfl)
    Settle.Agree.empty
  exact ⟨hH.inv, hA.agrees hH.inv⟩

/-- Nothing runs, so every message can be applied. -/
theorem Idle.calm (h : Idle c) (hids : ∀ r ∈ c.world.db.sms, inInt4 r.id) : Settle.Calm c.world := by
  obtain ⟨tr, hr⟩ := h.reached
  have hrec : Recorded c.world := hr.of_restrict.inv (fun c => Recorded c.world) .empty
    fun _ _ _ hc hs => hc.step hs.wstep.1
  refine ⟨h.bare, h.agrees.1, h.agrees.2.order, fun r hr => ?_⟩
  obtain ⟨hpos, hamount⟩ := hrec.rows none r hr
  exact ⟨hpos, hids r hr, hamount⟩

/-! ## Relays -/

/-- Relays only append to the stream. -/
structure Relayed (w w' : World) : Prop where
  group : w'.group = w.group
  sets : w'.sets = w.sets
  main : ∃ new, w'.main.entries = w.main.entries ++ new ∧ ∀ e ∈ new, w.main.last < e.1
  last : w.main.last ≤ w'.main.last

theorem Relayed.refl (w : World) : Relayed w w := ⟨rfl, rfl, ⟨[], by simp, by simp⟩, le_rfl⟩

theorem Relayed.trans (h : Relayed w w₁) (h' : Relayed w₁ w') : Relayed w w' := by
  obtain ⟨new, hmain, hnew⟩ := h.main
  obtain ⟨new', hmain', hnew'⟩ := h'.main
  refine ⟨h'.group.trans h.group, h'.sets.trans h.sets, ⟨new ++ new', ?_, fun e he => ?_⟩,
    h.last.trans h'.last⟩
  · rw [hmain', hmain, List.append_assoc]
  · rcases List.mem_append.mp he with he | he
    · exact hnew e he
    · exact h.last.trans_lt (hnew' e he)

theorem relayed_exec {f : Fault} {op : Op} {res : Except Exc op.Ret} (hop : Relays op)
    (h : exec f p op w res w') : Relayed w w' := by
  rcases exec_effect h with ⟨r₀, heff⟩ | rfl
  · cases op with
    | xadd fs =>
      refine ⟨heff.group, heff.sets, ⟨[(nextId w.main.last w.clock, fs)], ?_, fun e he => ?_⟩, ?_⟩
      · rw [heff.main]
        rfl
      · rw [List.mem_singleton.mp he]
        exact lt_nextId _ _
      · rw [heff.main]
        exact (lt_nextId _ _).le
    | claimEvents _ _ _ | publishEvents _ | failEvents _ | xaddDead _ | now | commit | rollback =>
      have hmain : w'.main = w.main := heff.main
      exact ⟨heff.group, heff.sets, ⟨[], by rw [hmain]; simp, by simp⟩, by rw [hmain]⟩
    | _ => exact hop.elim
  · exact .refl _

/-- The other tables stay. -/
theorem relayed_up (hready : Outbox.Ready w) (h : Outbox.RerunUp w w') :
    Relayed w w' ∧ w'.db.intents = w.db.intents ∧ w'.db.sms = w.db.sms := by
  obtain ⟨p, d, cs, r, hrun, hup⟩ := h
  obtain ⟨-, sel, final, hran⟩ := Outbox.runs_relay (hready.tick d) hrun fun k hk _ => hup k hk
  refine ⟨?_, by rw [hran.db]; rfl, by rw [hran.db]; rfl⟩
  have hrel := hrun.keeps (I := Relayed (w.tick (.tick d))) all_processOutboxEvent
    (fun f op a v v' hop hx hv => hv.trans (relayed_exec hop hx)) (.refl _)
  exact ⟨hrel.group, hrel.sets, hrel.main, hrel.last⟩

/-- **Relays carry the transfers on.** -/
theorem relays_advance (hready : Outbox.Ready w) (hcursor : w.group.cursor ≤ w.main.last)
    (hrun : Drain.Rounds Outbox.RerunUp n w w') (hn : (Outbox.unsentRows w).length ≤ 100 * n) :
    Settle.Advances w w' := by
  obtain ⟨-, hrel, hintents, hsms⟩ := hrun.inv (I := fun v => Outbox.Ready v ∧ Relayed w v ∧
      v.db.intents = w.db.intents ∧ v.db.sms = w.db.sms) ⟨hready, .refl w, rfl, rfl⟩ fun v v' hv hR => by
    obtain ⟨hrel, hi, hs⟩ := relayed_up hv.1 hR
    exact ⟨(Outbox.rerun_ready hv.1 hR.rerun).1, hv.2.1.trans hrel, hi.trans hv.2.2.1, hs.trans hv.2.2.2⟩
  obtain ⟨-, L, hL, hperm⟩ := Outbox.drains_up hready hrun hn
  obtain ⟨new, hmain, hnew⟩ := hrel.main
  refine ⟨.of_same hsms hintents hrel.sets, fun r hr ⟨hpos, hu⟩ => Or.inl ⟨hpos, Or.inr ?_⟩⟩
  rcases hu with ⟨e, he, hunsent, hpay⟩ | ⟨e, he, hopen, hd⟩
  · -- its payload is one of those that the relays appended
    have hvalid : (validateEventData e.data).toOption.isSome = true := by
      obtain ⟨traceId, hd⟩ := hpay
      rw [hd, show validateEventData (transactionData r.id traceId r.smsAmount) =
        if r.smsAmount ≤ 0 then .error "Amount must be positive"
        else .ok (transactionData r.id traceId r.smsAmount) from rfl, if_neg (not_le.mpr hpos)]
      rfl
    have hpayload : some e.data ∈ Outbox.payloads (Outbox.unsentRows w) := by
      refine List.mem_map.mpr ⟨e, List.mem_filter.mpr ⟨?_, hvalid⟩, rfl⟩
      exact List.mem_filter.mpr ⟨he, decide_eq_true hunsent⟩
    have happ : L = new.map fun e => e.2.data := by
      rw [Outbox.streamed, Outbox.streamed, hmain, List.map_append] at hL
      exact (List.append_cancel_left hL).symm
    have hin : some e.data ∈ new.map fun e => e.2.data := happ ▸ hperm.symm.subset hpayload
    obtain ⟨e', he', hd⟩ := List.mem_map.mp hin
    refine ⟨e', ?_, Or.inl ?_, e.data, hd, hpay⟩
    · rw [hmain]
      exact List.mem_append_right _ he'
    · rw [hrel.group]
      exact hcursor.trans_lt (hnew e' he')
  · refine ⟨e, ?_, ?_, hd⟩
    · rw [hmain]
      exact List.mem_append_left _ he
    · rw [hrel.group]
      exact hopen

/-! ## Turns of a worker -/

/-- What turns of a worker keep. -/
structure Applying (w₀ w : World) : Prop where
  calm : Settle.Calm w
  fit : Batch.Fit w
  genuine : ∀ e ∈ w.main.entries, Pipeline.GenuineFields w e.2
  advances : Settle.Advances w₀ w

/-- The time passes. -/
theorem advances_tick (d : ℕ) : Settle.Advances w (w.tick (.tick d)) :=
  ⟨.of_same rfl rfl rfl, fun _ _ hu => Or.inl hu⟩

theorem Applying.turn {w₀ : World} {id : String} (h : Applying w₀ w) (hR : TurnUp id w w') :
    Applying w₀ w' := by
  have hfit := (hR.turn.turned (apart_paymentWorker id) h.fit).1
  obtain ⟨p, d, cs, r, -, hrun, hup⟩ := hR
  have hcalm : Settle.Calm (w.tick (.tick d)) := by
    refine ⟨fun q => (h.calm.bare q).congr rfl, ?_, h.calm.joined, h.calm.sms⟩
    exact h.calm.consistent.tableStep (.same (p := 0) rfl rfl)
  have hgen : ∀ e ∈ (w.tick (.tick d)).main.entries, Pipeline.GenuineFields (w.tick (.tick d)) e.2 :=
    h.genuine
  have hbatch := Settle.runs_turn id hcalm h.fit.valid hgen hrun hup
  exact ⟨hbatch.calm, hfit, hbatch.genuine hgen, (h.advances.trans (advances_tick d)).trans hbatch.advances⟩

theorem turns_advance {id : String} (hcalm : Settle.Calm w) (hfit : Batch.Fit w)
    (hgen : ∀ e ∈ w.main.entries, Pipeline.GenuineFields w e.2)
    (hrun : Drain.Rounds (TurnUp id) n w w') : Settle.Advances w w' :=
  (hrun.inv (I := Applying w) ⟨hcalm, hfit, hgen, .refl w, fun _ _ hu => Or.inl hu⟩
    fun _ _ hv hR => hv.turn hR).advances

/-! ## All of it -/

/-- When nothing is left in the outbox and in the stream, no transfer is on its way. -/
theorem not_underway (hout : ∀ e ∈ w.db.outbox, ¬ Outbox.Unsent e) (hdry : Batch.Dry w) :
    ¬ Settle.Underway w r := by
  rintro ⟨-, ⟨e, he, hunsent, -⟩ | ⟨e, he, hopen, -⟩⟩
  · exact hout e he hunsent
  · exact not_open hdry he hopen

/-- **The recovery applies every transfer on its way.** -/
theorem Idle.advances (h : Idle c) (hids : ∀ r ∈ c.world.db.sms, inInt4 r.id) :
    ∃ tr' c', Run (restrict Steps Smooth) c tr' c' ∧ Idle c' ∧ Settle.Advances c.world c'.world ∧
      ∀ r, ¬ Settle.Underway c'.world r := by
  obtain ⟨tr₁, c₁, d, n, hr₁, h₁, hready, hrelays, hn⟩ := h.empties_outbox
  obtain ⟨tr₂, c₂, m, hr₂, h₂, hturns, hdry, hsame⟩ := h₁.empties_stream "worker-1"
  have hfirst := (advances_tick d).trans (relays_advance hready h.safe.2.cursor hrelays hn)
  have hcalm : Settle.Calm c₁.world := h₁.calm (hfirst.collected.sms ▸ hids)
  have hsecond := turns_advance hcalm h₁.fit h₁.safe.1.main hturns
  have hout := (Outbox.drains_up hready hrelays hn).1
  rw [← hsame] at hout
  exact ⟨_, c₂, hr₁.append hr₂, h₂, hfirst.trans hsecond, fun r => not_underway hout hdry⟩

/-- Nobody waits for the amount of a transfer that has been applied on the way. -/
theorem paid_of_served (hcol : Settle.Collected w w') (hc : Consistent w) (hc' : Consistent w')
    (hr : r ∈ w.db.sms) (hunused : ¬ Settle.Used w r.id) (hs : Settle.Served w' r) :
    ¬ Settle.Awaited w' r.smsAmount := by
  rcases hs with ⟨j', hj', ht⟩ | hno
  · obtain ⟨j, hj, rfl | ⟨hst, r', hr', hamount, -, rfl⟩⟩ := hcol.before hj'
    · exact absurd ⟨j', hj, ht⟩ hunused
    · -- the transfer paid the one intent that held its amount
      obtain rfl : r' = r :=
        List.inj_on_of_nodup_map hc.sms.ids hr' hr (Option.some.inj ((pay_some_sms j r'.id).symm.trans ht))
      rintro ⟨k', hk', hkst, hkex⟩
      obtain ⟨k, hk, rfl | ⟨-, x, -, -, -, rfl⟩⟩ := hcol.before hk'
      · have hid := hc.intents.holder none none k' j _ hk hj ⟨hkst, hkex⟩ ⟨hst, hamount.symm⟩
        obtain rfl := hc'.intent_eq hk' hj' hid
        rw [pay_status] at hkst
        cases hkst
      · rw [pay_status] at hkst
        cases hkst
  · exact hno

/-- **The transfers on their way pay the orders that wait for them.**  When all requests have come to their
ends, whatever failed, the service can go on, without a failure, to where no transfer is left in the
outbox or in the stream.  On the way intents only get paid, each by a recorded transfer of its amount
that no intent carried, and the pool gets back their amounts and no others; and every PENDING intent of
which an unused transfer was on its way is paid there, with its order. -/
theorem reconciles (hr : Run (StepsIf Pipeline.ByStream) (.init World.empty) tr c) (hover : Over c)
    (hids : ∀ r ∈ c.world.db.sms, inInt4 r.id) :
    ∃ tr' c', Run (restrict Steps Smooth) c tr' c' ∧ Over c' ∧ (∀ r, ¬ Settle.Underway c'.world r) ∧
      Settle.Collected c.world c'.world ∧
      ∀ i ∈ c.world.db.intents, ∀ r ∈ c.world.db.sms, i.Holds r.smsAmount →
        Settle.Underway c.world r → ¬ Settle.Used c.world r.id →
        (∃ i' ∈ c'.world.db.intents, i'.id = i.id ∧ i'.status = .PAID) ∧
        (∃ o ∈ c'.world.db.orders, o.id = i.orderId ∧ o.status = .PAID) ∧
        (i.exactAmount ∈ c.world.pending → i.exactAmount ∈ c'.world.free) := by
  have h : Idle c := ⟨⟨tr, hr⟩, hover⟩
  obtain ⟨tr', c', hr', h', hadv, hnone⟩ := h.advances hids
  refine ⟨tr', c', hr', h'.finished, hnone, hadv.collected, fun i hi r hr ha hu hunused => ?_⟩
  have hserved := (hadv.underway r hr hu).resolve_left (hnone r)
  have hfree := paid_of_served hadv.collected h.agrees.1 h'.agrees.1 hr hunused hserved
  obtain ⟨i', hi', hpays⟩ := hadv.collected.after hi
  have hpaid : i'.status = .PAID ∧ i'.id = i.id ∧ i'.orderId = i.orderId := by
    rcases hpays with rfl | ⟨-, r', -, -, -, rfl⟩
    · exact absurd ⟨i', hi', ha⟩ hfree
    · exact ⟨rfl, rfl, rfl⟩
  refine ⟨⟨i', hi', hpaid.2.1, hpaid.1⟩, ?_, fun hmem => ?_⟩
  · obtain ⟨o, ho, hoid⟩ := h'.agrees.2.order i' hi'
    exact ⟨o, ho, hoid.trans hpaid.2.2, (h'.agrees.2.status o ho i' hi' hoid.symm).trans hpaid.1⟩
  · rw [ha.2] at hmem ⊢
    exact (hadv.collected.free _).mpr (Or.inr ⟨hmem, ⟨i, hi, ha⟩, hfree⟩)

/-- An order waits for the amount, all transfers are of this amount and pay nothing yet, and an event was
claimed. -/
def claimedFor (a : Amount) (c : State) : Bool :=
  rests 3 c && (c.world.db.intents.any fun i => i.Holds a) &&
    (c.world.db.intents.all fun i => i.smsTransactionId = none) &&
      (c.world.db.sms.all fun r => inInt4 r.id ∧ r.smsAmount = a) &&
        c.world.db.outbox.any fun e => e.status = .PROCESSING

/-- An order is created and its transfer accepted; the relay crashes before it updates the event. -/
theorem reconciles_sample : ∃ (tr tr' : List Label) (c c' : State),
    Run (StepsIf Pipeline.ByStream) (.init World.empty) tr c ∧
      (∃ i ∈ c.world.db.intents, i.status = .PENDING) ∧
      Run (restrict Steps Smooth) c tr' c' ∧ ∃ o ∈ c'.world.db.orders, o.status = .PAID := by
  obtain ⟨tr, c, hr, htest, hfresh⟩ := plays_run 3 Pipeline.byStream
    (Script.createDown 0 1500001 ++ Script.webhook 1 1500001 ++ (Script.relay 2).take 5 ++ [.crash 2])
    (claimedFor 1500001) (by decide +kernel) World.empty_closed
  have hr' := hr.mono fun _ _ _ => Pipeline.byStream_steps
  simp only [claimedFor, Bool.and_eq_true, List.any_eq_true, List.all_eq_true, decide_eq_true_eq] at htest
  obtain ⟨⟨⟨⟨hrests, i, hi, ha⟩, hunused⟩, hsms⟩, e, he, hst⟩ := htest
  have hover : Over c := fun p hp => absurd hp (quiet_of_rests hrests hfresh p)
  obtain ⟨tr', c', hrec, -, -, -, hpaid⟩ := reconciles hr' hover fun r hrow => (hsms r hrow).1
  -- the event is of the recorded transfer
  obtain ⟨r, hrow, hpay⟩ := (Idle.safe ⟨⟨tr, hr'⟩, hover⟩).1.outbox e he
  have hamount := (hsms r hrow).2
  have hunder : Settle.Underway c.world r :=
    ⟨by rw [hamount]; decide, Or.inl ⟨e, he, Or.inr hst, hpay⟩⟩
  obtain ⟨-, ⟨o, ho, -, hopaid⟩, -⟩ := hpaid i hi r hrow (hamount ▸ ha) hunder
    fun ⟨j, hj, ht⟩ => by simp [hunused j hj] at ht
  exact ⟨tr, tr', c, c', hr', ⟨i, hi, ha.1⟩, hrec, o, ho, hopaid⟩

end Waits

end PaymentRecon
