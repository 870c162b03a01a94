import PaymentRecon.Model.Ordinary
import PaymentRecon.Model.Sms
import PaymentRecon.Play
import PaymentRecon.Requests.Allocate
import PaymentRecon.Tables.Growth

/-!
# Validators — what the webhook accepts and what the others let pass

The webhook stores what it could parse; the relay, the worker and the payment service check the payload
once more, each in its own way.  They agree on every payload of an accepted SMS but one: the webhook
takes an amount of zero, and the others do not.
-/

namespace PaymentRecon

open Interleave Streams Rely

namespace Intake

variable {p : Pid} {w w' : World} {past : List Label} {a : Label}

/-! ## The payload -/

/-- Whatever the stores do, the program does not refuse its input as invalid data. -/
def Unrefused {β : Type} (x : App β) : Prop :=
  ∀ p w cs e w', Requests.Executes p x w cs (.error e) w' → e.kind ≠ .invalidSMSDataError

/-- The payload passes `validate_event_data`, has an amount for `_process_batch`, goes to the payment
handler, and `process_pending_payment` does not refuse it as invalid data. -/
structure Acceptable (d : Json) : Prop where
  valid : validateEventData d = .ok d
  amount : ∃ a, d.get "amount" = .ok a ∧ a.truthy = true
  handler : ∀ workerId, (paymentWorker workerId).getHandler d = .ok (some dependenciesHandler)
  processed : ∃ a t, d.get "amount" = .ok a ∧ d.get "transaction_id" = .ok t ∧
    Unrefused (processPendingPayment a t)

namespace Unrefused

variable {β γ : Type}

theorem ret (b : β) : Unrefused (.ret b) := by
  intro p w cs e w' h
  cases h

theorem raise {e : Exc} (he : e.kind ≠ .invalidSMSDataError) : Unrefused (.raise e : App β) := by
  intro p w cs e' w' h
  cases h
  exact he

theorem step (op : Op) : Unrefused (await op) := by
  intro p w cs e w' h
  obtain ⟨f, hx, -⟩ := runs_perform.mp h
  rcases Requests.exec_error hx with rfl | rfl | rfl | rfl <;> simp [RedisError, DBAPIError, IntegrityError, DataError]

theorem bind {x : App β} {g : β → App γ} (hx : Unrefused x) (hg : ∀ b, Unrefused (g b)) :
    Unrefused (x >>= g) := by
  intro p w cs e w' h
  rcases runs_bind.mp h with ⟨b, w₁, _, cs₂, -, hrest, -⟩ | ⟨e', hx', he⟩
  · exact hg b p w₁ cs₂ e w' hrest
  · obtain rfl := Except.error.inj he
    exact hx p w cs e w' hx'

/-- The handler raises what it makes of the exception. -/
theorem rethrow {x : App β} {f : Exc → Exc} (hx : Unrefused x)
    (hf : ∀ e, e.kind ≠ .invalidSMSDataError → (f e).kind ≠ .invalidSMSDataError) :
    Unrefused (x.tryCatch fun e => throw (f e)) := by
  intro p w cs e w' h
  rcases runs_tryCatch.mp h with ⟨b, -, he⟩ | ⟨e', w₁, cs₁, cs₂, hx', hrest, -⟩
  · cases he
  · obtain ⟨-, he, -⟩ := runs_raise.mp hrest
    obtain rfl := Except.error.inj he
    exact hf e' (hx p w cs₁ e' w₁ hx')

end Unrefused

theorem settlementError_kind {amount t : Json} {e : Exc} (he : e.kind ≠ .invalidSMSDataError) :
    (settlementError amount t e).kind ≠ .invalidSMSDataError := by
  unfold settlementError
  split
  · simp
  · simp
  · simp
  · exact he

/-- A transaction id is all that `process_pending_payment` asks for. -/
theorem unrefused_processPendingPayment {amount t : Json} (ht : t.truthy = true) :
    Unrefused (processPendingPayment amount t) := by
  unfold processPendingPayment
  rw [if_neg (by simp [ht])]
  refine .bind (.step _) fun found => ?_
  cases found with
  | some i => exact .ret _
  | none =>
    refine .bind (.step _) fun _ => .bind (.step _) fun rows => ?_
    refine .rethrow (.bind ?_ fun i => .bind (.step _) fun _ => .ret _) fun e => settlementError_kind
    unfold scalarOne
    split
    · exact .raise (by simp)
    · exact .ret _
    · exact .raise (by simp)

theorem transactionData_acceptable {t : Id} {traceId : String} {amount : Amount} (ht : 1 ≤ t)
    (hamount : 0 ≤ amount) : Acceptable (transactionData t traceId amount) ↔ amount ≠ 0 := by
  have hvalid : validateEventData (transactionData t traceId amount) =
      if amount ≤ 0 then .error "Amount must be positive"
      else .ok (transactionData t traceId amount) := rfl
  constructor
  · intro h hzero
    have hv := h.valid
    rw [hvalid, if_pos hzero.le] at hv
    exact absurd hv (by simp)
  · intro hne
    have hpos : ¬ amount ≤ 0 := fun hle => hne (le_antisymm hle hamount)
    have ht0 : t ≠ 0 := fun h => absurd (h ▸ ht) (by decide)
    refine ⟨by rw [hvalid, if_neg hpos], ⟨.int amount, rfl, by simpa [Json.truthy] using hne⟩,
      fun _ => rfl, .int amount, .int t, rfl, rfl, ?_⟩
    exact unrefused_processPendingPayment (by simpa [Json.truthy] using ht0)

/-! ## The parser -/

theorem pyInt_nonneg {s : List Char} {n : ℤ} (h : pyInt s = .ok n) : 0 ≤ n := by
  unfold pyInt at h
  split at h
  · split_ifs at h
    obtain rfl := Except.ok.inj h
    exact Int.natCast_nonneg _
  · exact absurd h (by simp)

/-- A parsed SMS has its trace id, and an amount that is not negative. -/
theorem parse_amount {content traceId : String} {s : SmsData}
    (h : parseSmsTransaction content traceId = .ok (some s)) :
    s.traceId = some traceId ∧ ∃ amount, s.smsAmount = some amount ∧ 0 ≤ amount := by
  simp only [parseSmsTransaction] at h
  split at h
  · exact absurd h (by simp)
  · rename_i data _
    cases hamount : pyInt ((groupOf data "amount").filter (· ≠ ',')) with
    | error e =>
      rw [hamount] at h
      exact absurd h (by simp [bind, Except.bind])
    | ok amount =>
      rw [hamount] at h
      cases hinventory : pyInt ((groupOf data "inventory").filter (· ≠ ',')) with
      | error e =>
        rw [hinventory] at h
        exact absurd h (by simp [bind, Except.bind])
      | ok inventory =>
        rw [hinventory] at h
        obtain rfl := Option.some.inj (Except.ok.inj h)
        exact ⟨rfl, amount, rfl, pyInt_nonneg hamount⟩

/-- The endpoint goes on with what it parsed. -/
theorem receiveContent_of_parse {content traceId : String} {s : SmsData}
    (h : parseSmsTransaction content traceId = .ok (some s)) :
    receiveContent true content traceId = (Request.receiveTransaction s).prog := by
  have hne : content ≠ "" := by
    rintro rfl
    have hnone : parseSmsTransaction "" traceId = .ok none := rfl
    exact absurd (hnone.symm.trans h) (by simp)
  simp only [receiveContent, hne, h]
  rfl

/-! ## The webhook -/

/-- The answer `accepted t` to the SMS `s` says that its payload is stored. -/
def Stored (s : SmsData) (t : Id) : Assertion sig Exc World Request Tick := fun w _ => 1 ≤ t ∧
  ∃ traceId amount, s.traceId = some traceId ∧ s.smsAmount = some amount ∧
    ∃ e ∈ w.db.outbox, e.data = transactionData t traceId amount

/-- What the request `q` is known to have done when it ended with `r`. -/
def Answers (q : Request) (r : Except Exc Response) : Assertion sig Exc World Request Tick :=
  fun w past => ∀ s t, q = .receiveTransaction s → r = .ok (.accepted t) → Stored s t w past

def logic : Rely sig Exc Response World Request Tick where
  machine := system
  cond := fun _ _ _ _ => True
  inv := fun w _ => 1 ≤ w.db.nextSms
  start := fun _ => top
  guard := fun _ _ _ _ => True
  final := fun p r w past => ∃ q, .spawn p q ∈ past ∧ Answers q r w past

abbrev Facts := Assertion sig Exc World Request Tick

abbrev Keeps {β : Type} (p : Pid) (K : Facts) (x : App β) (post : Except Exc β → Facts) : Prop :=
  logic.Ensures p K x post

/-- An event with the payload `d` is flushed. -/
def Flushed (p : Pid) (d : Json) : Facts := fun w _ =>
  ∃ e, Write.insEvent e ∈ (w.txn p).writes ∧ e.data = d

/-- An event with the payload `d` is committed. -/
def Committed (d : Json) : Facts := fun w _ => ∃ e ∈ w.db.outbox, e.data = d

theorem stable_flushed {d : Json} : logic.Stable p (Flushed p d) := by
  rintro w past a w' - hw - hp ⟨e, he, hd⟩
  refine ⟨e, ?_, hd⟩
  rw [wstep_txn hw hp]
  exact he

theorem persistent_committed {d : Json} : logic.Persistent (Committed d) := by
  rintro w past a w' - hw - ⟨e, he, rfl⟩
  obtain ⟨e', he', -, hd⟩ := wstep_outbox hw he
  exact ⟨e', he', hd⟩

theorem persistent_fact {φ : Prop} : logic.Persistent fun _ _ => φ :=
  fun _ _ _ _ _ _ _ h => h

/-- An operation whose answer is not looked at. -/
theorem keeps_step {op : Op} {K : Facts} : Keeps p K (await op) fun _ => top :=
  Ensures.perform (fun _ => Persistent.true.stable) (fun _ _ _ _ => trivial)
    fun _ _ _ _ _ _ _ _ _ => trivial

theorem keeps_createTransactionService (s : SmsData) : Keeps p top (createTransactionService s)
    (whenOk fun r _ _ => 1 ≤ r.id ∧ s.smsAmount = some r.smsAmount) := by
  unfold createTransactionService
  split
  · rename_i amount inventory date time payload hamount _ _ _ _
    refine Ensures.tryCatch (m := whenOk fun r _ _ => 1 ≤ r.id ∧ s.smsAmount = some r.smsAmount) ?_
      (fun _ _ _ h => h) ?_
    · refine Ensures.perform (stable_whenOk fun r => persistent_fact.stable) (fun _ _ _ _ => trivial) ?_
      intro f w past r w' hI _ hx _
      rcases exec_cases hx with h | ⟨-, e, -, rfl⟩ | ⟨-, r₀, -, e, -, rfl⟩
      · simp only [Op.run] at h
        split_ifs at h
        · obtain ⟨-, ⟨-, rfl, -⟩ | ⟨-, rfl, -⟩⟩ := h
          · trivial
          · exact ⟨hI, hamount⟩
        · obtain ⟨rfl, -⟩ := h
          trivial
      · trivial
      · trivial
    · intro e
      split_ifs <;> exact fun _ _ _ => trivial
  · exact fun _ _ _ => trivial

theorem keeps_createOutboxEventService (d : Json) : Keeps p top (createOutboxEventService d)
    (whenOk fun _ => Flushed p d) := by
  unfold createOutboxEventService
  split_ifs
  · exact fun _ _ _ => trivial
  · refine Ensures.tryCatch (m := whenOk fun _ => Flushed p d) ?_ (fun _ _ _ h => h) ?_
    · refine Ensures.perform (stable_whenOk fun _ => stable_flushed) (fun _ _ _ _ => trivial) ?_
      intro f w past r w' _ _ hx _
      rcases exec_cases hx with ⟨rfl, rfl⟩ | ⟨-, e, -, rfl⟩ | ⟨-, r₀, -, e, -, rfl⟩
      · refine ⟨w.newEvent d, ?_, rfl⟩
        rw [flush_writes, if_pos rfl]
        simp
      · trivial
      · trivial
    · intro e
      split_ifs <;> exact fun _ _ _ => trivial

theorem keeps_commit (d : Json) :
    Keeps p (Flushed p d) (await .commit) (whenOk fun _ => Committed d) := by
  refine Ensures.perform (stable_whenOk fun _ => persistent_committed.stable)
    (fun _ _ _ _ => trivial) ?_
  rintro f w past r w' - ⟨e, he, rfl⟩ hx -
  rcases exec_cases hx with ⟨rfl, rfl⟩ | ⟨-, e, -, rfl⟩ | ⟨-, r₀, -, e, -, rfl⟩
  · obtain ⟨e', he', hev⟩ := Db.commit_outbox_keeps (w.txn p).writes (Or.inr he)
    exact ⟨e', he', hev.data⟩
  · trivial
  · trivial

theorem keeps_handleTransactionService (s : SmsData) :
    Keeps p top (handleTransactionService s) (whenOk fun t => Stored s t) := by
  unfold handleTransactionService
  refine Ensures.tryCatch (m := whenOk fun t => Stored s t) ?_ (fun _ _ _ h => h) ?_
  · refine Ensures.bind (keeps_createTransactionService s) ?_ fun _ _ _ _ => trivial
    intro r
    cases htrace : traceIdOf s with
    | error e => exact fun _ _ _ => trivial
    | ok traceId =>
      rw [Prog.ofExcept_ok, Prog.ret_bind]
      have hid : s.traceId = some traceId := by
        unfold traceIdOf at htrace
        split at htrace
        · rename_i t ht
          rw [ht, Except.ok.inj htrace]
        · exact absurd htrace (by simp)
      refine Ensures.pre (Ensures.pure (K := top) fun hfacts => ?_) fun _ _ h => ⟨h, trivial⟩
      refine Ensures.bind (keeps_createOutboxEventService _) ?_ fun _ _ _ _ => trivial
      intro _
      refine Ensures.bind (keeps_commit _) ?_ fun _ _ _ _ => trivial
      exact fun _ w past h => ⟨hfacts.1, traceId, r.smsAmount, hid, hfacts.2, h⟩
  · intro e
    have hrollback : ∀ e', Keeps p top (do await .rollback; throw e') (whenOk fun t => Stored s t) :=
      fun e' => Ensures.bind keeps_step (fun _ _ _ _ => trivial) fun _ _ _ _ => trivial
    split
    · exact hrollback _
    · exact hrollback _
    · exact hrollback _
    · exact hrollback _
    · exact fun _ _ _ => trivial

theorem keeps_receiveTransaction (s : SmsData) : Keeps p top (receiveTransaction s)
    fun r w past => ∀ t, r = .ok (.accepted t) → Stored s t w past := by
  unfold receiveTransaction withDb
  refine Ensures.tryCatch (m := fun r w past => ∀ t, r = .ok (.accepted t) → Stored s t w past) ?_
    (fun _ _ _ h => h) ?_
  · refine Ensures.tryCatch (m := fun r w past => ∀ t, r = .ok (.accepted t) → Stored s t w past) ?_
      (fun _ _ _ h => h) ?_
    · refine Ensures.bind (keeps_handleTransactionService s) ?_ ?_
      · rintro t w past h t' ht'
        obtain rfl : t = t' := by simpa using ht'
        exact h
      · exact fun e _ _ _ t ht => by simp at ht
    · intro e
      split <;> exact fun _ _ _ t ht => by simp at ht
  · intro e
    refine Ensures.bind (m := fun _ => top) keeps_step ?_ fun e _ _ _ t ht => by simp at ht
    exact fun _ _ _ _ t ht => by simp at ht

/-! ## All requests -/

/-- A request of which nothing is known. -/
theorem keeps_any {β : Type} {x : App β} {K : Facts} : Keeps p K x fun _ => top := by
  induction x generalizing K with
  | ret b => exact fun _ _ _ => trivial
  | raise e => exact fun _ _ _ => trivial
  | call op k ih =>
    exact ⟨fun _ => top, fun _ => Persistent.true.stable, fun _ _ _ _ => trivial,
      fun _ _ _ _ _ _ _ _ _ => trivial, fun r => ih r⟩

theorem keeps_prog (q : Request) : Keeps p top q.prog (Answers q) := by
  by_cases hq : ∃ s, q = .receiveTransaction s
  · obtain ⟨s, rfl⟩ := hq
    refine (keeps_receiveTransaction s).mono ?_
    rintro r w past h s' t heq ht
    obtain rfl : s = s' := by simpa using heq
    exact h t ht
  · exact keeps_any.mono fun _ _ _ _ s _ heq => absurd ⟨s, heq⟩ hq

theorem sound : logic.Sound where
  prog p q _ _ _ _ _ := by
    have hspawn : logic.Persistent fun _ past => .spawn p q ∈ past :=
      fun _ _ _ _ _ _ _ h => List.mem_append_left _ h
    refine ((keeps_prog q).frame hspawn).mono ?_
    exact fun _ _ _ h => ⟨q, h.2, h.1⟩
  start _ := Persistent.true.stable
  begin _ _ _ _ h := h
  spawn _ _ _ _ h _ := h
  run f w past p op r w' h _ hx _ := h.trans (exec_tableStep hx).nextSms_le
  crash _ _ _ h _ := h
  outer _ _ x h _ := by
    cases x
    exact h

/-- **The validators agree on every accepted SMS but those of amount zero.**  When the webhook answered
`accepted` to a parsed SMS, its payload is in the outbox, and the relay, the worker and the payment
service let it pass if and only if the amount is not zero. -/
theorem accepted_acceptable {w₀ : World} (hseq : 1 ≤ w₀.db.nextSms) {tr : List Label} {c : State}
    (hr : Lts.Run Steps (.init w₀) tr c) {content traceId : String} {s : SmsData} {t : Id}
    (hparse : parseSmsTransaction content traceId = .ok (some s))
    (hspawn : .spawn p (.receiveTransaction s) ∈ tr)
    (hend : c.thread p = .live (.ret (.accepted t))) :
    receiveContent true content traceId = (Request.receiveTransaction s).prog ∧
      ∃ amount, s.smsAmount = some amount ∧
        (∃ e ∈ c.world.db.outbox, e.data = transactionData t traceId amount) ∧
        (Acceptable (transactionData t traceId amount) ↔ amount ≠ 0) := by
  have hH := (sound.derive (P := fun _ _ _ => True) (J := fun _ => True)
    (hr.mono fun _ _ _ h => ⟨h, trivial, trivial⟩) (Holds.init hseq fun _ => trivial) trivial
    fun _ _ _ _ _ _ _ _ => trivial).1
  obtain ⟨q, hq, hans⟩ := hH.final hend
  rw [show c.past = tr from run_past hr] at hq
  obtain rfl := spawn_unique hr hq hspawn
  obtain ⟨htrace, amount, hamount, hnonneg⟩ := parse_amount hparse
  obtain ⟨hpos, traceId', amount', htrace', hamount', hevent⟩ := hans s t rfl rfl
  obtain rfl : traceId = traceId' := Option.some.inj (htrace.symm.trans htrace')
  obtain rfl : amount = amount' := Option.some.inj (hamount.symm.trans hamount')
  exact ⟨receiveContent_of_parse hparse, amount, hamount, hevent,
    transactionData_acceptable hpos hnonneg⟩

/-- A notification of a transfer of `amount`. -/
def notification (amount : String) : String :=
  amount ++ "ریال به حساب شما نشست.\nموجودی: 9,000,000 ریال\n10:00\n1402.01.01"

/-- What the parser makes of it. -/
def parsed (amount : String) (value : ℤ) : SmsData :=
  ⟨some "tx_1", some value, some 9000000, some "1402.01.01", some "10:00", some (notification amount)⟩

/-- The request 0 is for the SMS `s`, and it was answered `accepted`, with the transaction 1. -/
def acceptedFirst (s : SmsData) (c : State) : Bool :=
  (match c.thread 0 with
    | .live (.ret (.accepted t)) => decide (t = 1)
    | _ => false) && c.past.any fun a => match a with
      | .spawn p (.receiveTransaction s') => p = 0 ∧ s' = s
      | _ => false

theorem acceptedFirst_iff {s : SmsData} {c : State} (h : acceptedFirst s c = true) :
    c.thread 0 = .live (.ret (.accepted 1)) ∧ .spawn 0 (.receiveTransaction s) ∈ c.past := by
  obtain ⟨hend, hspawn⟩ := (Bool.and_eq_true _ _).mp h
  constructor
  · split at hend
    · rename_i t ht
      rw [ht, of_decide_eq_true hend]
    · exact absurd hend (by simp)
  · obtain ⟨a, ha, hs⟩ := List.any_eq_true.mp hspawn
    split at hs
    · obtain ⟨rfl, rfl⟩ := of_decide_eq_true hs
      exact ha
    · exact absurd hs (by simp)

theorem accepted_acceptable_sample : ∃ (tr : List Label) (c : State),
    Lts.Run Steps (.init World.empty) tr c ∧
      parseSmsTransaction (notification "1,500,001") "tx_1" = .ok (some (parsed "1,500,001" 1500001)) ∧
      c.thread 0 = .live (.ret (.accepted 1)) ∧ Acceptable (transactionData 1 "tx_1" 1500001) := by
  obtain ⟨tr, c, hr, htest, -⟩ := plays_run 1 .none
    (.spawn 0 (.receiveTransaction (parsed "1,500,001" 1500001)) :: Move.goes 0 3)
    (acceptedFirst (parsed "1,500,001" 1500001)) (by decide +kernel) World.empty_closed
  have hr := hr.of_restrict
  obtain ⟨hend, hspawn⟩ := acceptedFirst_iff htest
  rw [show c.past = tr from run_past hr] at hspawn
  have hparse : parseSmsTransaction (notification "1,500,001") "tx_1" =
      .ok (some (parsed "1,500,001" 1500001)) := by decide +kernel
  obtain ⟨-, amount, hamount, -, hiff⟩ := accepted_acceptable (by decide) hr hparse hspawn hend
  obtain rfl : 1500001 = amount := Option.some.inj hamount
  exact ⟨tr, c, hr, hparse, hend, hiff.mpr (by decide)⟩

/-- The relay gave up an event because of its amount. -/
def refused (c : State) : Bool :=
  c.world.dead.entries.any fun e => e.2.reason = some "Amount must be positive" ∧ e.2.eventId = some 1

/-- An SMS of amount zero is accepted, and then dead-lettered by the relay. -/
theorem zero_amount_refused : ∃ (tr : List Label) (c : State),
    Lts.Run Steps (.init World.empty) tr c ∧
      parseSmsTransaction (notification "0") "tx_1" = .ok (some (parsed "0" 0)) ∧
      .spawn 0 (.receiveTransaction (parsed "0" 0)) ∈ tr ∧
      c.thread 0 = .live (.ret (.accepted 1)) ∧
      (∃ e ∈ c.world.db.outbox, e.id = 1 ∧ ¬ Acceptable e.data) ∧
      ∃ e ∈ c.world.dead.entries, e.2.reason = some "Amount must be positive" ∧ e.2.eventId = some 1 := by
  obtain ⟨tr, c, hr, htest, -⟩ := plays_run 2 .none
    (.spawn 0 (.receiveTransaction (parsed "0" 0)) :: Move.goes 0 3 ++ Script.relay 1)
    (fun c => acceptedFirst (parsed "0" 0) c && (refused c && c.world.db.outbox.any fun e =>
      e.id = 1 ∧ (validateEventData e.data).toBool = false)) (by decide +kernel) World.empty_closed
  have hr := hr.of_restrict
  simp only [Bool.and_eq_true, refused, List.any_eq_true, decide_eq_true_eq] at htest
  obtain ⟨hacc, hdead, e, he, hid, hrefused⟩ := htest
  obtain ⟨hend, hspawn⟩ := acceptedFirst_iff hacc
  rw [show c.past = tr from run_past hr] at hspawn
  refine ⟨tr, c, hr, by decide +kernel, hspawn, hend, ⟨e, he, hid, fun h => ?_⟩, hdead⟩
  rw [h.valid] at hrefused
  exact absurd hrefused (by simp [Except.toBool])

end Intake

end PaymentRecon
