import PaymentRecon.Consume.Drain
import PaymentRecon.Pipeline.Lawful
import PaymentRecon.Relay.Drain
import PaymentRecon.Settle.Applied

/-!
# Collected — what the transfers on their way pay

`Collected w w'`: intents only got paid, each by a recorded transfer of its amount that no intent
carried, and the pool got back the amounts that nobody waits for any more.  Messages, batches and turns of
a worker that nobody disturbs do this, and apply every transfer that they take off the stream.
-/

namespace PaymentRecon

open Interleave Streams Requests

namespace Settle

variable {p : Pid} {w w₁ w' : World} {m : Message} {ms : List Message} {r : SMSTransaction} {t : Id}
  {a : Amount} {cs : Calls}

/-! ## Rows and sets -/

/-- A PENDING intent holds the amount. -/
def Awaited (w : World) (a : Amount) : Prop := ∃ i ∈ w.db.intents, i.Holds a

/-- The intent stays, or a transfer of its amount that no intent carried pays it. -/
def Progresses (w : World) (i i' : PaymentIntent) : Prop :=
  i' = i ∨ i.status = .PENDING ∧ ∃ r ∈ w.db.sms, r.smsAmount = i.exactAmount ∧ ¬ Used w r.id ∧
    i' = i.pay (some r.id)

structure Collected (w w' : World) : Prop where
  sms : w'.db.sms = w.db.sms
  intents : List.Forall₂ (Progresses w) w.db.intents w'.db.intents
  used : ∀ t, Used w t → Used w' t
  free : ∀ a, a ∈ w'.free ↔ a ∈ w.free ∨ a ∈ w.pending ∧ Awaited w a ∧ ¬ Awaited w' a
  pending : ∀ a, a ∈ w'.pending ↔ a ∈ w.pending ∧ (Awaited w a → Awaited w' a)

/-- Intents and sets stay. -/
theorem Collected.of_same (hsms : w'.db.sms = w.db.sms) (hintents : w'.db.intents = w.db.intents)
    (hsets : w'.sets = w.sets) : Collected w w' := by
  have hawaited : ∀ a, Awaited w' a ↔ Awaited w a := fun a => by rw [Awaited, hintents]; rfl
  refine ⟨hsms, ?_, fun t h => ?_, fun a => ?_, fun a => ?_⟩
  · rw [hintents]
    exact List.forall₂_same.mpr fun i _ => Or.inl rfl
  · rw [Used, hintents]
    exact h
  · rw [hawaited, World.free, hsets]
    simp
  · rw [hawaited, World.pending, hsets]
    simp

theorem Collected.refl (w : World) : Collected w w := .of_same rfl rfl rfl

/-- What a row was before. -/
theorem Collected.before (h : Collected w w') {i' : PaymentIntent} (hi' : i' ∈ w'.db.intents) :
    ∃ i ∈ w.db.intents, Progresses w i i' := by
  obtain ⟨n, hn, rfl⟩ := List.mem_iff_getElem.mp hi'
  have hlen := h.intents.length_eq
  obtain ⟨-, hrow⟩ := List.forall₂_iff_get.mp h.intents
  exact ⟨_, List.getElem_mem _, hrow n (hlen ▸ hn) hn⟩

/-- What becomes of a row. -/
theorem Collected.after (h : Collected w w') {i : PaymentIntent} (hi : i ∈ w.db.intents) :
    ∃ i' ∈ w'.db.intents, Progresses w i i' := by
  obtain ⟨n, hn, rfl⟩ := List.mem_iff_getElem.mp hi
  have hlen := h.intents.length_eq
  obtain ⟨-, hrow⟩ := List.forall₂_iff_get.mp h.intents
  exact ⟨_, List.getElem_mem _, hrow n hn (hlen ▸ hn)⟩

/-- Nobody begins to wait. -/
theorem Collected.awaited (h : Collected w w') (ha : Awaited w' a) : Awaited w a := by
  obtain ⟨i', hi', hst, hex⟩ := ha
  obtain ⟨i, hi, rfl | ⟨-, r, -, -, -, rfl⟩⟩ := h.before hi'
  · exact ⟨i', hi, hst, hex⟩
  · rw [pay_status] at hst
    cases hst

theorem Progresses.trans {i i' i'' : PaymentIntent} (hsms : w₁.db.sms = w.db.sms)
    (hused : ∀ t, Used w t → Used w₁ t) (h : Progresses w i i') (h' : Progresses w₁ i' i'') :
    Progresses w i i'' := by
  rcases h' with rfl | ⟨hst, r, hr, hamount, hunused, rfl⟩
  · exact h
  · rcases h with rfl | ⟨-, r', -, -, -, rfl⟩
    · exact Or.inr ⟨hst, r, hsms ▸ hr, hamount, fun hu => hunused (hused _ hu), rfl⟩
    · rw [pay_status] at hst
      cases hst

theorem Collected.trans (h : Collected w w₁) (h' : Collected w₁ w') : Collected w w' := by
  refine ⟨h'.sms.trans h.sms, ?_, fun t ht => h'.used t (h.used t ht), fun a => ?_, fun a => ?_⟩
  · have hboth := List.forall₂_iff_get.mp h.intents
    have hboth' := List.forall₂_iff_get.mp h'.intents
    refine List.forall₂_iff_get.mpr ⟨hboth.1.trans hboth'.1, fun n hn hn' => ?_⟩
    exact (hboth.2 n hn (hboth.1 ▸ hn)).trans h.sms h.used (hboth'.2 n (hboth.1 ▸ hn) hn')
  · have h₁ := h.awaited (a := a)
    have h₂ := h'.awaited (a := a)
    rw [h'.free, h.free, h.pending]
    tauto
  · have h₁ := h.awaited (a := a)
    have h₂ := h'.awaited (a := a)
    rw [h'.pending, h.pending]
    tauto

/-- The transfer has nothing left to pay. -/
def Served (w : World) (r : SMSTransaction) : Prop := Used w r.id ∨ ¬ Awaited w r.smsAmount

theorem Served.mono (h : Served w r) (hc : Collected w w') : Served w' r :=
  h.imp (hc.used _) fun hno ha => hno (hc.awaited ha)

/-! ## One message -/

/-- What the payment makes of the rows. -/
theorem paid_intents {db : Db} {id orderId : Id} :
    (db.commit [.payIntent id (some t), .payOrder orderId]).intents =
      db.intents.map fun j => if j.id = id then j.pay (some t) else j := rfl

/-- The amount of the intent that is paid is the only one that nobody waits for any more. -/
theorem Calm.paid_awaited (h : Calm w) {i : PaymentIntent} (hi : i ∈ w.db.intents) (ha : i.Holds a)
    (hdb : w'.db = w.db.commit [.payIntent i.id (some t), .payOrder i.orderId]) {b : Amount} :
    Awaited w' b ↔ Awaited w b ∧ b ≠ a := by
  have hintents : w'.db.intents = w.db.intents.map fun j => if j.id = i.id then j.pay (some t) else j := by
    rw [hdb, paid_intents]
  constructor
  · rintro ⟨j', hj', hst, hex⟩
    rw [hintents] at hj'
    obtain ⟨j, hj, rfl⟩ := List.mem_map.mp hj'
    by_cases hid : j.id = i.id
    · rw [if_pos hid, pay_status] at hst
      cases hst
    · rw [if_neg hid] at hst hex
      refine ⟨⟨j, hj, hst, hex⟩, ?_⟩
      rintro rfl
      exact hid (h.consistent.intents.holder none none j i b hj hi ⟨hst, hex⟩ ha)
  · rintro ⟨⟨j, hj, hst, hex⟩, hne⟩
    refine ⟨j, ?_, hst, hex⟩
    rw [hintents]
    refine List.mem_map.mpr ⟨j, hj, if_neg fun hid => hne ?_⟩
    rw [← hex, h.consistent.intent_eq hj hi hid]
    exact ha.2

/-- **One message.** -/
theorem Handled.collected (h : Calm w) (hr : r ∈ w.db.sms) (hx : Handled m r w w') : Collected w w' := by
  cases hx.applied with
  | skipped intents orders sets why => exact .of_same hx.sms intents sets
  | paid i hi ha unused hdb hsets =>
    have hawaited := fun b => h.paid_awaited (b := b) hi ha hdb
    have hintents := congrArg Db.intents hdb
    rw [paid_intents] at hintents
    have hother : ∀ j ∈ w.db.intents, j.status ≠ .PENDING → j.id ≠ i.id := fun j hj hst hid =>
      hst (h.consistent.intent_eq hj hi hid ▸ ha.1)
    refine ⟨hx.sms, ?_, ?_, fun b => ?_, fun b => ?_⟩
    · rw [hintents, List.forall₂_map_right_iff]
      refine List.forall₂_same.mpr fun j hj => ?_
      by_cases hid : j.id = i.id
      · obtain rfl := h.consistent.intent_eq hj hi hid
        exact Or.inr ⟨ha.1, r, hr, ha.2.symm, unused, if_pos rfl⟩
      · exact Or.inl (if_neg hid)
    · rintro t ⟨j, hj, ht⟩
      have hpaid := h.consistent.settled.paid j hj t ht
      refine ⟨j, ?_, ht⟩
      rw [hintents]
      exact List.mem_map.mpr ⟨j, hj, if_neg (hother j hj (by rw [hpaid]; decide))⟩
    · have hmem : b ∈ SetStore.smove w.sets .pendingOrders .freeAmounts r.smsAmount .freeAmounts ↔
          b ∈ w.free ∨ b = r.smsAmount ∧ r.smsAmount ∈ w.pending := SetStore.mem_smove_dst (by decide)
      rw [World.free, hsets, hmem, hawaited]
      have hself : Awaited w r.smsAmount := ⟨i, hi, ha⟩
      constructor
      · rintro (hb | ⟨rfl, hb⟩)
        · exact Or.inl hb
        · exact Or.inr ⟨hb, hself, fun hno => hno.2 rfl⟩
      · rintro (hb | ⟨hb, hwait, hno⟩)
        · exact Or.inl hb
        · have heq : b = r.smsAmount := by
            by_contra hne
            exact hno ⟨hwait, hne⟩
          exact Or.inr ⟨heq, heq ▸ hb⟩
    · have hmem : b ∈ SetStore.smove w.sets .pendingOrders .freeAmounts r.smsAmount .pendingOrders ↔
          b ∈ w.pending ∧ b ≠ r.smsAmount := SetStore.mem_smove_src (by decide)
      rw [World.pending, hsets, hmem, hawaited]
      have hself : Awaited w r.smsAmount := ⟨i, hi, ha⟩
      refine and_congr_right fun _ => ⟨fun hne hwait => ⟨hwait, hne⟩, ?_⟩
      rintro hkeep rfl
      exact (hkeep hself).2 rfl

/-- Afterwards the transfer has nothing left to pay. -/
theorem Handled.served (hpos : 0 < r.smsAmount) (hx : Handled m r w w') : Served w' r := by
  cases hx.applied with
  | skipped intents orders sets why =>
    rcases why with hzero | hused | hno
    · exact absurd hzero hpos.ne'
    · refine Or.inl ?_
      rw [Used, intents]
      exact hused
    · refine Or.inr ?_
      rintro ⟨i, hi, ha⟩
      exact hno i (intents ▸ hi) ha
  | paid i hi ha unused hdb hsets =>
    have hintents := congrArg Db.intents hdb
    rw [paid_intents] at hintents
    refine Or.inl ⟨i.pay (some r.id), ?_, rfl⟩
    rw [hintents]
    exact List.mem_map.mpr ⟨i, hi, if_pos rfl⟩

/-- The tables stay consistent. -/
theorem runs_consistent {β : Type} {x : App β} {res : Except Exc β} (h : Consistent w)
    (hrun : Executes p x w cs res w') : Consistent w' := by
  induction hrun with
  | ret => exact h
  | raise => exact h
  | call hx _ ih => exact ih (h.tableStep (exec_tableStep hx))

theorem Handled.calm (h : Calm w) (hcons : Consistent w') (hx : Handled m r w w') : Calm w' := by
  refine ⟨hx.bare, hcons, ?_, hx.sms ▸ h.sms⟩
  cases hx.applied with
  | skipped intents orders sets why =>
    rw [intents, orders]
    exact h.joined
  | paid i hi ha unused hdb hsets =>
    intro j' hj'
    have hintents := congrArg Db.intents hdb
    rw [paid_intents] at hintents
    have horders : w'.db.orders = w.db.orders.map fun o =>
        if o.id = i.orderId then { o with status := .PAID } else o := congrArg Db.orders hdb
    rw [hintents] at hj'
    obtain ⟨j, hj, rfl⟩ := List.mem_map.mp hj'
    obtain ⟨o, ho, hid⟩ := h.joined j hj
    have horder : (if j.id = i.id then j.pay (some r.id) else j).orderId = j.orderId := by
      split_ifs <;> rfl
    rw [horder, horders]
    refine ⟨_, List.mem_map_of_mem ho, ?_⟩
    rw [← hid]
    split_ifs <;> rfl

theorem runs_processOne (id : String) (h : Calm w) (hr : r ∈ w.db.sms) (hm : Payload r m.data)
    {res : Except Exc Unit} (hrun : Executes p ((paymentWorker id).processOne m) w cs res w')
    (hup : ∀ k ∈ cs, k.fault = .done) : res = .ok () ∧ Handled m r w w' ∧ Calm w' := by
  obtain ⟨hres, hx⟩ := (wp_processOne id h hr hm).runs hrun hup
  exact ⟨hres, hx, hx.calm h (runs_consistent h.consistent hrun)⟩

/-! ## A batch -/

/-- What the loop over `ms` does. -/
structure Looped (ms : List Message) (w w' : World) : Prop where
  calm : Calm w'
  collected : Collected w w'
  main : w'.main = w.main
  outbox : w'.db.outbox = w.db.outbox
  opens : ∀ x, w.group.Open x → w'.group.Open x ∨ ∃ m ∈ ms, m.id = x
  served : ∀ m ∈ ms, ∀ r ∈ w.db.sms, Payload r m.data → 0 < r.smsAmount → Served w' r

/-- **The loop**: every message is of a recorded transfer. -/
theorem runs_loop (id : String) (h : Calm w) (hms : ∀ m ∈ ms, ∃ r ∈ w.db.sms, Payload r m.data)
    {res : Except Exc Unit} (hrun : Executes p (Prog.forEach (paymentWorker id).processOne ms) w cs res w')
    (hup : ∀ k ∈ cs, k.fault = .done) : res = .ok () ∧ Looped ms w w' := by
  induction ms generalizing w cs with
  | nil =>
    obtain ⟨-, rfl, rfl⟩ := runs_ret.mp hrun
    exact ⟨rfl, h, .refl _, rfl, rfl, fun _ hx => Or.inl hx, fun _ hm => absurd hm List.not_mem_nil⟩
  | cons m ms ih =>
    rw [List.forall_mem_cons] at hms
    obtain ⟨⟨r₀, hr₀, hm₀⟩, hms⟩ := hms
    rcases runs_bind.mp hrun with ⟨_, w₁, cs₁, cs₂, hone, hrest, rfl⟩ | ⟨e, hone, rfl⟩
    · obtain ⟨hup₁, hup₂⟩ := List.forall_mem_append.mp hup
      obtain ⟨-, hx, hcalm⟩ := runs_processOne id h hr₀ hm₀ hone hup₁
      obtain ⟨hres, hl⟩ := ih hcalm (fun m' hm' => hx.sms ▸ hms m' hm') hrest hup₂
      have hcol := hx.collected h hr₀
      refine ⟨hres, hl.calm, hcol.trans hl.collected, hl.main.trans hx.main, hl.outbox.trans hx.outbox,
        fun x ho => ?_, ?_⟩
      · by_cases hid : x = m.id
        · exact Or.inr ⟨m, List.mem_cons_self, hid.symm⟩
        · have ho₁ : w₁.group.Open x := by
            rw [hx.group]
            exact Group.open_xack ho hid
          refine (hl.opens x ho₁).imp_right fun ⟨m', hm', hid'⟩ => ?_
          exact ⟨m', List.mem_cons_of_mem _ hm', hid'⟩
      · intro m' hm' r hr hpay hpos
        rcases List.mem_cons.mp hm' with rfl | hm'
        · obtain ⟨-, hx', -⟩ := runs_processOne id h hr hpay hone hup₁
          exact (hx'.served hpos).mono hl.collected
        · exact hl.served m' hm' r (hx.sms ▸ hr) hpay hpos
    · obtain ⟨hres, -⟩ := runs_processOne id h hr₀ hm₀ hone hup
      cases hres

/-- Messages were fetched: only the group differs, and no entry was left behind. -/
structure Fetched (w w' : World) : Prop where
  world : ∃ g, w' = { w with group := g }
  opens : ∀ e ∈ w.main.entries, w.group.Open e.1 → w'.group.Open e.1

theorem Fetched.trans (h : Fetched w w₁) (h' : Fetched w₁ w') : Fetched w w' := by
  obtain ⟨⟨g, rfl⟩, hopen⟩ := h
  obtain ⟨⟨g', rfl⟩, hopen'⟩ := h'
  exact ⟨⟨g', rfl⟩, fun e he ho => hopen' e he (hopen e he ho)⟩

theorem fetches_run {op : Op} {res : Except Exc op.Ret} (hop : Fetches op) (hx : op.run p w res w') :
    Fetched w w' := by
  cases op with
  | xreadgroup consumer count =>
    obtain ⟨-, rfl⟩ := hx
    exact ⟨⟨_, rfl⟩, fun e he ho => Group.open_deliver he ho⟩
  | xpending count | now =>
    obtain ⟨-, rfl⟩ := hx
    exact ⟨⟨_, rfl⟩, fun e _ ho => ho⟩
  | xclaim consumer minIdle id =>
    simp only [Op.run] at hx
    split_ifs at hx
    · obtain ⟨-, rfl⟩ := hx
      exact ⟨⟨_, rfl⟩, fun e _ ho => Group.open_claim.mpr ho⟩
    · obtain ⟨-, rfl⟩ := hx
      exact ⟨⟨_, rfl⟩, fun e _ ho => ho⟩
  | _ => exact hop.elim

theorem runs_fetch {β : Type} {x : App β} {R : Except Exc β → Prop} {res : Except Exc β}
    (hall : x.All Fetches R) (hrun : Executes p x w cs res w') : Fetched w w' := by
  refine hrun.keeps (I := Fetched w) hall (fun f op a v v' hop hx hv => ?_) ⟨⟨_, rfl⟩, fun _ _ ho => ho⟩
  rcases exec_cases hx with hx | ⟨rfl, -⟩ | ⟨-, r₀, hx, -⟩
  · exact hv.trans (fetches_run hop hx)
  · exact hv
  · exact hv.trans (fetches_run hop hx)

theorem Fetched.calm (h : Fetched w w') (hw : Calm w) : Calm w' := by
  obtain ⟨⟨g, rfl⟩, -⟩ := h
  refine ⟨fun q => (hw.bare q).congr rfl, ?_, hw.joined, hw.sms⟩
  exact hw.consistent.tableStep (.same (p := 0) rfl rfl)

/-! ## A turn -/

/-- The transfer, of a positive amount, waits in the outbox or in the stream. -/
def Underway (w : World) (r : SMSTransaction) : Prop :=
  0 < r.smsAmount ∧ ((∃ e ∈ w.db.outbox, Outbox.Unsent e ∧ Payload r e.data) ∨
    ∃ e ∈ w.main.entries, w.group.Open e.1 ∧ ∃ d, e.2.data = some d ∧ Payload r d)

/-- Transfers were applied, and none was lost on the way. -/
structure Advances (w w' : World) : Prop where
  collected : Collected w w'
  underway : ∀ r ∈ w.db.sms, Underway w r → Underway w' r ∨ Served w' r

theorem Advances.trans (h : Advances w w₁) (h' : Advances w₁ w') : Advances w w' := by
  refine ⟨h.collected.trans h'.collected, fun r hr hu => ?_⟩
  rcases h.underway r hr hu with hu | hs
  · exact h'.underway r (h.collected.sms ▸ hr) hu
  · exact Or.inr (hs.mono h'.collected)

/-- The messages are entries of the stream. -/
def FromStream (w : World) (ms : List Message) : Prop :=
  ∀ m ∈ ms, ∃ now attempts es, (∀ e ∈ es, e ∈ w.main.entries) ∧ m ∈ Batch.decoded now attempts es

theorem fromStream_stale : FromStream w (Batch.staleMessages w) := by
  intro m hm
  obtain ⟨x, -, hx⟩ := List.mem_flatMap.mp hm
  unfold Batch.claimedMessages at hx
  split_ifs at hx
  · exact ⟨_, _, _, fun e he => (Stream.mem_xrange.mp he).1, hx⟩
  · exact absurd hx List.not_mem_nil

theorem fromStream_fresh : FromStream w (Batch.freshMessages w) :=
  fun _ hm => ⟨_, _, _, fun _ he => Group.mem_of_mem_unread he, hm⟩

/-- A message of the stream is of a recorded transfer. -/
theorem FromStream.payload (hms : FromStream w ms)
    (hgen : ∀ e ∈ w.main.entries, Pipeline.GenuineFields w e.2) :
    ∀ m ∈ ms, ∃ r ∈ w.db.sms, Payload r m.data := by
  intro m hm
  obtain ⟨now, attempts, es, hes, hmem⟩ := hms m hm
  obtain ⟨e, he, rfl⟩ := List.mem_map.mp hmem
  obtain ⟨d, hd, r, hr, traceId, rfl⟩ := hgen e (hes e he)
  refine ⟨r, hr, traceId, ?_⟩
  rw [Fields.loads, hd]
  rfl

/-- The message of an entry has its payload. -/
theorem payload_decoded {now : ℕ} {attempts : Fields → ℤ} {es : List (StreamId × Fields)}
    {s : Stream Fields} (hes : ∀ e ∈ es, e ∈ s.entries) (hm : m ∈ Batch.decoded now attempts es)
    {e : StreamId × Fields} (he : e ∈ s.entries) (hid : m.id = e.1) {d : Json} (hd : e.2.data = some d) :
    m.data = d := by
  obtain ⟨e', he', rfl⟩ := List.mem_map.mp hm
  obtain rfl := Stream.eq_of_id (hes e' he') he hid
  show e'.2.loads = d
  rw [Fields.loads, hd]
  rfl

/-- What a batch does to the transfers whose messages it gets. -/
structure Batched (w w' : World) : Prop where
  calm : Calm w'
  collected : Collected w w'
  main : w'.main = w.main
  outbox : w'.db.outbox = w.db.outbox
  entries : ∀ e ∈ w.main.entries, w.group.Open e.1 → w'.group.Open e.1 ∨
    ∀ r ∈ w.db.sms, ∀ d, e.2.data = some d → Payload r d → 0 < r.smsAmount → Served w' r

theorem Fetched.batched (h : Fetched w w') (hw : Calm w) : Batched w w' := by
  have hcalm := h.calm hw
  obtain ⟨⟨g, rfl⟩, hopen⟩ := h
  exact ⟨hcalm, .of_same rfl rfl rfl, rfl, rfl, fun e he ho => Or.inl (hopen e he ho)⟩

/-- A loop over messages of the stream. -/
theorem Looped.batched (h : Looped ms w w') (hms : FromStream w ms) : Batched w w' := by
  refine ⟨h.calm, h.collected, h.main, h.outbox, fun e he ho => (h.opens e.1 ho).imp_right ?_⟩
  rintro ⟨m, hm, hid⟩ r hr d hd hpay hpos
  obtain ⟨now, attempts, es, hes, hmem⟩ := hms m hm
  refine h.served m hm r hr ?_ hpos
  rw [payload_decoded hes hmem he hid hd]
  exact hpay

theorem Batched.trans (h : Batched w w₁) (h' : Batched w₁ w') : Batched w w' := by
  refine ⟨h'.calm, h.collected.trans h'.collected, h'.main.trans h.main, h'.outbox.trans h.outbox,
    fun e he ho => ?_⟩
  rcases h.entries e he ho with ho | hs
  · refine (h'.entries e (h.main ▸ he) ho).imp_right fun hs r hr => hs r (h.collected.sms ▸ hr)
  · exact Or.inr fun r hr d hd hpay hpos => (hs r hr d hd hpay hpos).mono h'.collected

/-- No transfer is lost on the way. -/
theorem Batched.advances (h : Batched w w') : Advances w w' := by
  refine ⟨h.collected, fun r hr ⟨hpos, hu⟩ => ?_⟩
  rcases hu with ⟨e, he, hunsent, hpay⟩ | ⟨e, he, ho, d, hd, hpay⟩
  · exact Or.inl ⟨hpos, Or.inl ⟨e, h.outbox ▸ he, hunsent, hpay⟩⟩
  · rcases h.entries e he ho with ho | hs
    · exact Or.inl ⟨hpos, Or.inr ⟨e, h.main ▸ he, ho, d, hd, hpay⟩⟩
    · exact Or.inr (hs r hr d hd hpay hpos)

theorem redisUp_of_done (hup : ∀ k ∈ cs, k.fault = .done) : RedisUp cs := fun k hk _ => hup k hk

/-- The genuine entries of the stream stay genuine. -/
theorem Batched.genuine (h : Batched w w') (hgen : ∀ e ∈ w.main.entries, Pipeline.GenuineFields w e.2) :
    ∀ e ∈ w'.main.entries, Pipeline.GenuineFields w' e.2 := by
  intro e he
  obtain ⟨d, hd, r, hr, hpay⟩ := hgen e (h.main ▸ he)
  exact ⟨d, hd, r, h.collected.sms ▸ hr, hpay⟩

theorem FromStream.congr (h : FromStream w ms) (hmain : w'.main = w.main) : FromStream w' ms := by
  unfold FromStream
  rw [hmain]
  exact h

/-- **A batch.** -/
theorem runs_processBatch (id : String) (h : Calm w) (hv : w.group.Valid)
    (hgen : ∀ e ∈ w.main.entries, Pipeline.GenuineFields w e.2) {res : Except Exc Unit}
    (hrun : Executes p (paymentWorker id).processBatch w cs res w') (hup : ∀ k ∈ cs, k.fault = .done) :
    Batched w w' := by
  rcases runs_bind.mp hrun with ⟨stale, w₁, cs₁, cs₂, hclaim, hrest, rfl⟩ | ⟨e, hclaim, rfl⟩
  · obtain ⟨hup₁, hup₂⟩ := List.forall_mem_append.mp hup
    obtain ⟨hms, -⟩ := Batch.runs_claimStaleMessage hv hclaim (redisUp_of_done hup₁)
    obtain rfl := Except.ok.inj hms
    have hfetch := (runs_fetch (all_claimStaleMessage _ _ _) hclaim).batched h
    have hgen₁ := hfetch.genuine hgen
    have hstale : FromStream w₁ (Batch.staleMessages w) := fromStream_stale.congr hfetch.main
    rcases runs_bind.mp hrest with ⟨_, w₂, cs₃, cs₄, hloop, hrest₂, rfl⟩ | ⟨e, hloop, rfl⟩
    · obtain ⟨hup₃, hup₄⟩ := List.forall_mem_append.mp hup₂
      obtain ⟨-, hl⟩ := runs_loop id hfetch.calm (hstale.payload hgen₁) hloop hup₃
      have hfirst := hl.batched hstale
      have hgen₂ := hfirst.genuine hgen₁
      rcases runs_bind.mp hrest₂ with ⟨ms, w₃, cs₅, cs₆, hread, hloop', rfl⟩ | ⟨e, hread, rfl⟩
      · obtain ⟨hup₅, hup₆⟩ := List.forall_mem_append.mp hup₄
        obtain ⟨hms, -⟩ := Batch.runs_readMessages hread (redisUp_of_done hup₅)
        obtain rfl := Except.ok.inj hms
        have hfetch' := (runs_fetch (all_readMessages _ _) hread).batched hfirst.calm
        have hfresh : FromStream w₃ (Batch.freshMessages w₂) := fromStream_fresh.congr hfetch'.main
        obtain ⟨-, hl'⟩ := runs_loop id hfetch'.calm (hfresh.payload (hfetch'.genuine hgen₂)) hloop' hup₆
        exact ((hfetch.trans hfirst).trans hfetch').trans (hl'.batched hfresh)
      · cases (Batch.runs_readMessages hread (redisUp_of_done hup₄)).1
    · cases (runs_loop id hfetch.calm (hstale.payload hgen₁) hloop hup₂).1
  · cases (Batch.runs_claimStaleMessage hv hclaim (redisUp_of_done hup)).1

/-- **A turn.** -/
theorem runs_turn (id : String) (h : Calm w) (hv : w.group.Valid)
    (hgen : ∀ e ∈ w.main.entries, Pipeline.GenuineFields w e.2) {res : Except Exc Response}
    (hrun : Executes p (paymentWorker id).turn w cs res w') (hup : ∀ k ∈ cs, k.fault = .done) :
    Batched w w' := by
  rcases runs_tryCatch.mp hrun with ⟨b, hbody, -⟩ | ⟨e, w₁, cs₁, cs₂, hbody, hcatch, rfl⟩
  · rcases runs_bind.mp hbody with ⟨_, w₁, cs₁, cs₂, hbatch, hret, rfl⟩ | ⟨e, -, he⟩
    · obtain ⟨-, -, rfl⟩ := runs_ret.mp hret
      exact runs_processBatch id h hv hgen hbatch (List.forall_mem_append.mp hup).1
    · cases he
  · obtain ⟨-, -, rfl⟩ := runs_ret.mp hcatch
    rcases runs_bind.mp hbody with ⟨_, w₁, cs₃, cs₄, -, hret, -⟩ | ⟨e', hbatch, -⟩
    · cases (runs_ret.mp hret).2.1
    · exact runs_processBatch id h hv hgen hbatch (List.forall_mem_append.mp hup).1

end Settle

end PaymentRecon
