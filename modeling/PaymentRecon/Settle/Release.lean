import PaymentRecon.Play
import PaymentRecon.Requests.Create
import PaymentRecon.Settle.Agree

/-!
# Release — the amount of a settled order goes back to the pool

The commit of a settlement and the release of its amount are two steps.  A delivery that gets from the one
to the other releases the amount; after an interruption nobody does, because the next delivery finds the
transfer settled.
-/

namespace PaymentRecon

open Interleave Rely Lts Settle SetStore Streams

namespace Release

variable {p q : Pid} {w w' : World} {past : List Label} {x : Label} {c c' : State} {t : Id} {a : Amount}

/-! ## What is released is committed -/

/-- The session holds no settlement by a transfer. -/
def Unsent (p : Pid) (w : World) : Prop := ∀ id t, Write.payIntent id (some t) ∉ (w.txn p).writes

/-- A payment message is settled and committed before its amount is released. -/
def logic : Rely sig Exc Response World Request Tick where
  machine := system
  cond := fun _ _ _ _ => True
  inv := top
  start := fun p w _ => Unsent p w
  guard := fun p w _ op => ∀ a, op = .smove .pendingOrders .freeAmounts a → Unsent p w
  final := fun p _ w _ => Unsent p w

abbrev Keeps {β : Type} (p : Pid) (K : Facts) (y : App β) (post : Except Exc β → Facts) : Prop :=
  logic.Ensures p K y post

def Ready (p : Pid) : Facts := fun w _ => Unsent p w

/-- An operation that settles nothing by a transfer. -/
def Unpaid (op : Op) : Prop := ∀ i t, op ≠ .flushPaid i (some t)

/-- An operation that releases nothing. -/
def Keeping (op : Op) : Prop := ∀ a, op ≠ .smove .pendingOrders .freeAmounts a

theorem Unsent.closed (h : w.txn p = Txn.empty) : Unsent p w := by
  intro id t hm
  rw [h] at hm
  simp [Txn.empty] at hm

theorem stable_ready : logic.Stable p (Ready p) := by
  intro w past x w' _ hw _ hp h id t hm
  rw [wstep_txn hw hp] at hm
  exact h id t hm

theorem keeps_unpaid (op : Op) (h : Unpaid op) : Keeps p (Ready p) (await op) fun _ => Ready p := by
  refine Ensures.perform (fun _ => stable_ready) (fun _ _ _ hK _ _ => hK) ?_
  intro f w past r w' _ hK hx _ id t hm
  have hw : system.WStep w (.run p f op r) w' := hx
  rcases wstep_payIntent hw hm with hold | ⟨f', i, r', heq, -⟩
  · exact hK id t hold
  · cases heq
    exact h i t rfl

theorem keeps_keeping (op : Op) (h : Keeping op) : Keeps p top (await op) fun _ => top :=
  Ensures.skip Persistent.true fun _ _ _ _ a heq => absurd heq (h a)

theorem keeps_commit : Keeps p top (await .commit) fun r => match r with
    | .ok _ => Ready p
    | .error _ => top := by
  refine Ensures.perform ?_ (fun _ _ _ _ a heq => absurd heq (by simp)) ?_
  · intro r
    cases r with
    | ok _ => exact stable_ready
    | error _ => exact Persistent.true.stable
  · intro f w past r w' _ _ hx _
    cases r with
    | error _ => trivial
    | ok _ =>
      obtain ⟨-, -, rfl⟩ := Requests.exec_ok hx
      exact Unsent.closed (by rw [commit_txn, if_pos rfl])

theorem keeps_rollback : Keeps p top (await .rollback) fun _ => Ready p := by
  refine Ensures.perform (fun _ => stable_ready) (fun _ _ _ _ a heq => absurd heq (by simp)) ?_
  intro f w past r w' _ _ hx _
  obtain ⟨-, -, rfl⟩ := Requests.exec_rollback hx
  exact Unsent.closed (by rw [rollback_txn, if_pos rfl])

/-- **The handler of payment messages** commits before it releases. -/
theorem keeps_handlePayment (m : Message) :
    Keeps p (Ready p) (handlePayment m) fun _ => Ready p := by
  unfold handlePayment
  refine Ensures.tryCatch (m := fun r => match r with
    | .ok _ => Ready p
    | .error _ => top) ?_ (fun _ _ _ h => h) ?_
  · cases m.data.get "amount" with
    | error e => exact fun _ _ _ => trivial
    | ok amount =>
      cases m.data.get "transaction_id" with
      | error e => exact fun _ _ _ => trivial
      | ok t =>
        simp only [Prog.ofExcept_ok, Prog.ret_bind]
        refine Ensures.bind (m := fun _ => top) ?_ ?_ fun _ _ _ _ => trivial
        · refine (Ensures.all (fun op hop => keeps_keeping op fun a heq => ?_)
            (all_processPendingPayment amount t)).pre fun _ _ _ => trivial
          exact (heq ▸ hop : Seeks (.smove .pendingOrders .freeAmounts a))
        · intro result
          refine Ensures.bind keeps_commit ?_ fun _ _ _ _ => trivial
          intro _
          split_ifs
          · exact Ensures.bind (keeps_unpaid _ fun _ _ => by simp) (fun _ _ _ h => h) fun _ _ _ _ => trivial
          · exact fun _ _ h => h
  · intro e
    exact Ensures.bind keeps_rollback (fun _ _ _ h => h) fun _ _ _ h => h

theorem all_confirmPayment (orderId paymentId : Id) :
    (confirmPayment orderId paymentId).All Unpaid fun _ => True := by
  have op : ∀ {op : Op}, (∀ i t, op ≠ .flushPaid i (some t)) → (await op).All Unpaid fun _ => True :=
    fun h => all_await h
  unfold confirmPayment handlePendingPayment
  refine all_withDb (fun _ _ => by simp) (all_try ?_ fun e => all_seq (op fun _ _ => by simp) fun _ => ?_)
  · refine all_seq ?_ fun i => all_seq (op fun _ _ => by simp) fun _ => trivial
    refine all_seq (op fun _ _ => by simp) fun _ => all_seq (op fun _ _ => by simp) fun rows => ?_
    refine all_try ?_ fun e => ?_
    · refine all_seq (all_scalarOne rows) fun i => all_seq (op fun _ _ => by simp) fun _ => ?_
      exact all_seq (op fun _ _ => by simp) fun _ => trivial
    · split_ifs <;> trivial
  · split_ifs <;> trivial

theorem unpaid_off {op : Op} (h : Off op) : Unpaid op := by
  rintro i t rfl
  rcases h with h | h | h
  · exact h
  · exact absurd h (by simp)
  · exact absurd h (by simp)

theorem unpaid_stocks {op : Op} (h : Stocks op) : Unpaid op := by
  rintro i t rfl
  exact h

theorem keeps_prog (y : Request) : Keeps p (Ready p) y.prog fun _ => Ready p := by
  have unpaid : ∀ {y : App Response} {A : Op → Prop} {R : Except Exc Response → Prop}, y.All A R →
      (∀ op, A op → Unpaid op) → Keeps p (Ready p) y fun _ => Ready p :=
    fun hy hA => Ensures.all keeps_unpaid (hy.mono hA fun _ h => h)
  cases y with
  | createOrder userId amount => exact unpaid (all_createOrder userId amount) fun _ => unpaid_stocks
  | confirmPayment orderId paymentId => exact unpaid (all_confirmPayment orderId paymentId) fun _ h => h
  | handlePayment m =>
    exact Ensures.bind (keeps_handlePayment m) (fun _ _ _ h => h) fun _ _ _ h => h
  | receiveTransaction s => exact unpaid (all_receiveTransaction s) fun _ h => unpaid_off h.off
  | processOutboxEvent => exact unpaid all_processOutboxEvent fun _ h => unpaid_off h.off
  | work workerId =>
    exact ensures_turn (fun op h => keeps_unpaid op (unpaid_off h.off)) (fun m => keeps_handlePayment m)
      workerId
  | replayDlq z => exact unpaid (all_replayDlqDashboard z) fun _ h => unpaid_off h.off
  | lifespan fuel => exact unpaid (all_lifespan fuel) fun _ => unpaid_stocks

theorem sound : logic.Sound where
  prog _ y _ _ _ _ _ := (keeps_prog y).pre fun _ _ h => h.1
  start _ := stable_ready
  begin _ _ _ _ h := h
  spawn _ _ _ _ _ _ := trivial
  run _ _ _ _ _ _ _ _ _ _ _ := trivial
  crash _ _ _ _ _ := trivial
  outer _ _ _ _ _ := trivial

/-! ## A flushed settlement and its request -/

/-- A request whose settlement by a transfer is flushed will commit it, or it failed to. -/
def Matched (c : State) : Prop :=
  ∀ p id t, Write.payIntent id (some t) ∈ (c.world.txn p).writes → dealOf p c.past = .over ∨
    ∃ i, dealOf p c.past = .matched i ∧ i.id = id ∧
      ∃ j ∈ c.world.db.intents, j.id = id ∧ j.exactAmount = i.exactAmount

theorem Matched.init (s : Sets SetKey Amount) : Matched (.init (withSets World.empty s)) := by
  intro p id t hm
  exact absurd hm (by simp [Config.init, World.empty, Txn.empty])

/-- A settlement that is flushed was not flushed before. -/
theorem exec_flushPaid {f : Fault} {i : PaymentIntent} {s : Option Id} {r : Except Exc Unit}
    (h : exec f p (.flushPaid i s) w r w') : w' = w ∨ r = .ok () := by
  rcases exec_cases h with ⟨-, -, ⟨-, -, rfl⟩ | ⟨-, rfl, -⟩⟩ | ⟨rfl, -⟩ | ⟨hl, -⟩
  · exact Or.inl rfl
  · exact Or.inr rfl
  · exact Or.inl rfl
  · simp [Op.Loses, Op.OnRedis] at hl

/-- **Step lemma.** -/
theorem Matched.step (hs : Steps c x c') (hg : Allows Settle.logic.Guarded c x c')
    (hg' : Allows logic.Guarded c x c') (h : Matched c) : Matched c' := by
  have hw : system.WStep c.world x c'.world := hs.wstep.1
  have hpast : c'.past = c.past ++ [x] := hs.wstep.2
  -- a row keeps its id and its amount
  have hrow : ∀ {id : Id} {b : Amount}, (∃ j ∈ c.world.db.intents, j.id = id ∧ j.exactAmount = b) →
      ∃ j ∈ c'.world.db.intents, j.id = id ∧ j.exactAmount = b := by
    rintro id b ⟨j, hj, rfl, rfl⟩
    obtain ⟨_, hq, -⟩ := wstep_tableStep (p := 0) hw
    exact hq.intent_mono hj
  -- a settlement that was flushed before
  have hold : ∀ p id t, Write.payIntent id (some t) ∈ (c.world.txn p).writes →
      Write.payIntent id (some t) ∈ (c'.world.txn p).writes → dealOf p c'.past = .over ∨
        ∃ i, dealOf p c'.past = .matched i ∧ i.id = id ∧
          ∃ j ∈ c'.world.db.intents, j.id = id ∧ j.exactAmount = i.exactAmount := by
    intro p id t hm hm'
    rw [hpast]
    have hdeal := h p id t hm
    have hsame : dealOf p (c.past ++ [x]) = dealOf p c.past → _ := fun heq =>
      (hdeal.imp heq.trans fun ⟨i, hd, hi, hj⟩ => ⟨i, heq.trans hd, hi, hrow hj⟩ :
        dealOf p (c.past ++ [x]) = .over ∨ ∃ i, dealOf p (c.past ++ [x]) = .matched i ∧ i.id = id ∧
          ∃ j ∈ c'.world.db.intents, j.id = id ∧ j.exactAmount = i.exactAmount)
    have hbusy : dealOf p c.past ≠ .idle := by
      rcases hdeal with hd | ⟨i, hd, -⟩ <;> simp [hd]
    cases x with
    | spawn q y => exact hsame dealOf_spawn
    | outer y => exact hsame (dealOf_other (by simp [Act.pid]))
    | crash q =>
      by_cases hq : q = p
      · subst hq
        have hw' : c'.world = c.world.rollback q := hw
        rw [hw', rollback_txn, if_pos rfl] at hm'
        exact absurd hm' (by simp [Txn.empty])
      · exact hsame (dealOf_other fun heq => hq (Option.some.inj heq))
    | run q f op r =>
      by_cases hq : q = p
      · subst hq
        have hpromise : Promised q c.world c.past op := hg.2 q f op r rfl
        have hx : exec f q op c.world r c'.world := hw
        cases op with
        | commit =>
          by_cases hf : f = .failed
          · subst hf
            obtain ⟨-, e, -, rfl⟩ := hx
            rcases hdeal with hd | ⟨i, hd, -⟩
            · exact absurd hd hpromise.1
            · left
              rw [dealOf_own, hd]
              rfl
          · rw [exec_commit hx hf, commit_txn, if_pos rfl] at hm'
            exact absurd hm' (by simp [Txn.empty])
        | rollback =>
          rw [(Requests.exec_rollback hx).2.2, rollback_txn, if_pos rfl] at hm'
          exact absurd hm' (by simp [Txn.empty])
        | smove src dst b =>
          cases src <;> cases dst <;> first
            | exact absurd hm (hg'.2 q f _ r rfl b rfl id t)
            | exact absurd hpromise hbusy
        | flushPaid i s => exact absurd hpromise.1 hbusy
        | _ => exact absurd hpromise hbusy
      · exact hsame (dealOf_other fun heq => hq (Option.some.inj heq))
  intro p id t hm'
  rcases wstep_payIntent hw hm' with hm | ⟨f, i, r, rfl, rfl⟩
  · exact hold p id t hm hm'
  · rcases exec_flushPaid (show exec f p (.flushPaid i (some t)) c.world r c'.world from hw) with heq | rfl
    · exact hold p i.id t (heq ▸ hm') hm'
    · obtain ⟨hidle, hheld, -⟩ : Promised p c.world c.past (.flushPaid i (some t)) := hg.2 p f _ _ rfl
      refine Or.inr ⟨i, ?_, rfl, hrow ⟨i, hheld.1, rfl, rfl⟩⟩
      rw [hpast, dealOf_own, hidle]
      rfl

/-! ## Between the commit and the release -/

/-- The request committed its settlement by the transfer `t`, and has not released the amount yet. -/
def Between (t : Id) (p : Pid) (w : World) (past : List Label) : Prop :=
  ∃ i, dealOf p past = .paid i ∧ ∃ j ∈ w.db.intents, j.id = i.id ∧ j.smsTransactionId = some t

/-- No delivery of the transfer `t` is interrupted between its commit and its release: it does not crash
there, neither the reply to its COMMIT is lost nor does its SMOVE fail, and the message `id` is not
acknowledged by another delivery. -/
def Uninterrupted (id : StreamId) (t : Id) (w : World) (past : List Label) : Label → Prop
  | .crash p => ¬ Between t p w past
  | .run p .failed (.smove .pendingOrders .freeAmounts _) _ => ¬ Between t p w past
  | .run p .lost .commit _ => ∀ i, Write.payIntent i (some t) ∉ (w.txn p).writes
  | .run _ _ (.xack id') _ => id' = id → ∀ p, ¬ Between t p w past
  | _ => True

/-- No order takes the amount `a`, and no startup rebuilds the sets. -/
def Left (a : Amount) (w w' : World) : Label → Prop
  | .run _ _ (.spop k) _ => a ∈ w.sets k → a ∈ w'.sets k
  | .run _ _ (.smove .pendingOrders .freeAmounts _) _ => True
  | .run _ _ (.smove _ _ b) _ => b ≠ a
  | .run _ _ (.sadd .pendingOrders as) _ => a ∉ as
  | .run _ _ (.del _) _ => False
  | .run _ _ (.sdiffstore _ _ _) _ => False
  | _ => True

/-- The deliveries of the message `id`, which pays `a` by the transfer `t`, are not interrupted, and the
amount is left to them. -/
def Delivered (id : StreamId) (t : Id) (a : Amount) : StepCond := fun w past x w' =>
  Uninterrupted id t w past x ∧ Left a w w' x

/-- Where the amount is: it stays in a set, and it does not become pending. -/
structure Settles (a : Amount) (w w' : World) : Prop where
  pending : a ∈ w'.pending → a ∈ w.pending
  free : a ∈ w.free → a ∈ w'.free
  moved : a ∈ w.pending → a ∈ w'.pending ∨ a ∈ w'.free

theorem Settles.of_mem (h : ∀ k, a ∈ w'.sets k ↔ a ∈ w.sets k) : Settles a w w' :=
  ⟨(h _).mp, (h _).mpr, fun hp => Or.inl ((h _).mpr hp)⟩

theorem Settles.of_sets (h : w'.sets = w.sets) : Settles a w w' := .of_mem fun k => by rw [h]

/-- A release moves an amount at most from `pending_orders` to `free_amounts`. -/
theorem Settles.release {b : Amount} (h : w'.sets = smove w.sets .pendingOrders .freeAmounts b) :
    Settles a w w' := by
  have hpending : a ∈ w'.pending ↔ a ∈ w.pending ∧ a ≠ b := by
    show a ∈ w'.sets .pendingOrders ↔ _
    rw [h]
    exact mem_smove_src (by decide)
  have hfree : a ∈ w'.free ↔ a ∈ w.free ∨ a = b ∧ b ∈ w.pending := by
    show a ∈ w'.sets .freeAmounts ↔ _
    rw [h]
    exact mem_smove_dst (by decide)
  refine ⟨fun hp => (hpending.mp hp).1, fun hf => hfree.mpr (Or.inl hf), fun hp => ?_⟩
  by_cases hab : a = b
  · exact Or.inr (hfree.mpr (Or.inr ⟨hab, hab ▸ hp⟩))
  · exact Or.inl (hpending.mpr ⟨hp, hab⟩)

/-- **One step** leaves the amount to its release. -/
theorem Settles.step (hw : system.WStep w x w') (h : Left a w w' x) : Settles a w w' := by
  cases x with
  | spawn q y =>
    obtain rfl : w' = w := hw
    exact .of_sets rfl
  | crash q =>
    obtain rfl : w' = w.rollback q := hw
    exact .of_sets rfl
  | outer y =>
    obtain rfl : w' = w.tick y := hw
    cases y
    exact .of_sets rfl
  | run q f op r =>
    rcases exec_effect hw with ⟨r₀, heff⟩ | rfl
    · have hsets := heff.sets
      cases op with
      | spop k =>
        match r₀ with
        | .error e => exact .of_sets hsets
        | .ok none => exact .of_sets hsets
        | .ok (some b) =>
          have hpop : w'.sets = SetStore.spop w.sets k b := hsets
          refine .of_mem fun l => ?_
          by_cases hlk : l = k
          · subst hlk
            refine ⟨fun hl => ?_, h⟩
            rw [hpop, mem_spop] at hl
            exact hl.2
          · rw [hpop, spop_other hlk]
      | smove src dst b =>
        by_cases hrel : src = .pendingOrders ∧ dst = .freeAmounts
        · obtain ⟨rfl, rfl⟩ := hrel
          exact .release hsets
        · have hb : a ≠ b := by
            cases src <;> cases dst <;> first
              | exact Ne.symm h
              | exact absurd ⟨rfl, rfl⟩ hrel
          refine .of_mem fun l => ?_
          rw [hsets]
          exact mem_smove_of_ne hb
      | sadd k as =>
        have hadd : w'.sets = SetStore.sadd w.sets k as := hsets
        have hmono : ∀ l, a ∈ w.sets l → a ∈ w'.sets l := by
          intro l hl
          rw [hadd]
          by_cases hlk : l = k
          · subst hlk
            exact mem_sadd.mpr (Or.inl hl)
          · rwa [sadd_other hlk]
        refine ⟨fun hp => ?_, hmono _, fun hp => Or.inl (hmono _ hp)⟩
        replace hp : a ∈ SetStore.sadd w.sets k as .pendingOrders := hadd ▸ hp
        by_cases hk : SetKey.pendingOrders = k
        · subst hk
          exact (mem_sadd.mp hp).resolve_right h
        · rwa [sadd_other hk] at hp
      | del k => exact h.elim
      | sdiffstore k l m => exact h.elim
      | _ => exact .of_sets hsets
    · exact .of_sets rfl

/-- The amount is somewhere, and once it is settled by `t` it is released or its release is under way. -/
structure Kept (t : Id) (a : Amount) (c : State) : Prop where
  somewhere : a ∈ c.world.pending ∨ a ∈ c.world.free
  released : ∀ j ∈ c.world.db.intents, j.smsTransactionId = some t → j.exactAmount = a →
    a ∉ c.world.pending ∨
      ∃ p i, dealOf p c.past = .paid i ∧ i.id = j.id ∧ i.exactAmount = a

/-- A settlement by `t` was there, or the step commits it. -/
theorem wstep_settled (hw : system.WStep w x w') (hc : Consistent w) {j : PaymentIntent}
    (hj : j ∈ w'.db.intents) (ht : j.smsTransactionId = some t) :
    (∃ i ∈ w.db.intents, i.id = j.id ∧ i.smsTransactionId = some t ∧ i.exactAmount = j.exactAmount) ∨
      ∃ p f r, x = .run p f Op.commit r ∧ f ≠ .failed ∧
        Write.payIntent j.id (some t) ∈ (w.txn p).writes := by
  rcases wstep_intent hw hj with hold | ⟨p, f, r, i, rfl, hf, hi, he⟩
  · exact Or.inl ⟨j, hold, rfl, ht, rfl⟩
  · rcases he.sms with hsms | ⟨t', hm, hsms, -⟩
    · rcases hi with hi | hi
      · exact Or.inl ⟨i, hi, he.id.symm, hsms.symm.trans ht, he.exact.symm⟩
      · have hnew := (hc.intents.new p i hi).2
        rw [← hsms, ht] at hnew
        exact absurd hnew (by simp)
    · obtain rfl : t' = t := Option.some.inj (hsms.symm.trans ht)
      exact Or.inr ⟨p, f, r, rfl, hf, he.id ▸ hm⟩

/-- **Step lemma.** -/
theorem Kept.step {id : StreamId} (hs : Steps c x c') (hcond : Allows (Delivered id t a) c x c')
    (hg : Allows Settle.logic.Guarded c x c') (hM : Matched c) (hc : Consistent c.world)
    (hc' : Consistent c'.world) (h : Kept t a c) : Kept t a c' := by
  have hw : system.WStep c.world x c'.world := hs.wstep.1
  have hpast : c'.past = c.past ++ [x] := hs.wstep.2
  have hset := Settles.step hw hcond.2
  refine ⟨h.somewhere.elim hset.moved fun hf => Or.inr (hset.free hf), fun j hj ht hja => ?_⟩
  rw [hpast]
  rcases wstep_settled hw hc hj ht with ⟨k, hk, hkid, hkt, hka⟩ | ⟨p, f, r, rfl, hf, hm⟩
  · rcases h.released k hk hkt (hka.trans hja) with hout | ⟨p, i, hdeal, hid, hia⟩
    · exact Or.inl fun hp => hout (hset.pending hp)
    · have hbetween : Between t p c.world c.past := ⟨i, hdeal, k, hk, hid.symm, hkt⟩
      have hstay : dealOf p (c.past ++ [x]) = dealOf p c.past → _ := fun heq =>
        (Or.inr ⟨p, i, heq.trans hdeal, hid.trans hkid, hia⟩ : a ∉ c'.world.pending ∨
          ∃ p i, dealOf p (c.past ++ [x]) = .paid i ∧ i.id = j.id ∧ i.exactAmount = a)
      cases x with
      | spawn q y => exact hstay dealOf_spawn
      | outer y => exact hstay (dealOf_other (by simp [Act.pid]))
      | crash q =>
        by_cases hq : q = p
        · subst hq
          exact absurd hbetween hcond.1
        · exact hstay (dealOf_other fun heq => hq (Option.some.inj heq))
      | run q f op r =>
        by_cases hq : q = p
        · subst hq
          left
          have hpromise : Promised q c.world c.past op := hg.2 q f op r rfl
          have hbusy : dealOf q c.past ≠ .idle := by simp [hdeal]
          -- the only operation that is left to the request is the release
          cases op with
          | smove src dst b =>
            cases src <;> cases dst <;> first
              | exact absurd hpromise hbusy
              | skip
            obtain ⟨i', hb, hi'⟩ := hpromise
            have hii : i = i' := by simpa [hdeal] using hi'
            obtain rfl : a = b := by rw [← hia, hii, hb]
            have hf : f ≠ .failed := by
              rintro rfl
              exact hcond.1 hbetween
            obtain ⟨r₀, heff⟩ := exec_taken hw hf
            have hmoved : c'.world.sets = smove c.world.sets .pendingOrders .freeAmounts a := heff.sets
            intro hp
            replace hp : a ∈ smove c.world.sets .pendingOrders .freeAmounts a .pendingOrders := hmoved ▸ hp
            exact ((mem_smove_src (by decide)).mp hp).2 rfl
          | commit => exact absurd hdeal (hpromise.2 i)
          | rollback => exact absurd hdeal (hpromise i)
          | flushPaid _ _ => exact absurd hpromise.1 hbusy
          | _ => exact absurd hpromise hbusy
        · exact hstay (dealOf_other fun heq => hq (Option.some.inj heq))
  · right
    have hpromise : Promised p c.world c.past .commit := hg.2 p f _ r rfl
    obtain ⟨i, hdeal, hid, k, hk, hkid, hka⟩ := (hM p j.id t hm).resolve_left hpromise.1
    obtain ⟨q, hq, -⟩ := wstep_tableStep (p := 0) hw
    obtain ⟨j', hj', hjid, hja'⟩ := hq.intent_mono hk
    obtain rfl : j' = j := hc'.intent_eq hj' hj (hjid.trans hkid)
    refine ⟨p, i, ?_, hid, by rw [← hka, ← hja', hja]⟩
    have hx : exec f p .commit c.world r c'.world := hw
    cases f with
    | done =>
      obtain ⟨rfl, -⟩ := hx
      rw [dealOf_own, hdeal]
      rfl
    | failed => exact absurd rfl hf
    | lost => exact absurd hm (hcond.1 _)

/-- What holds in every state that is reached. -/
structure Sane (c : State) : Prop where
  settle : Settle.logic.Holds c
  release : logic.Holds c
  matched : Matched c

theorem Sane.init (s : Sets SetKey Amount) : Sane (.init (withSets World.empty s)) where
  settle := Holds.init (Consistent.empty.tableStep (.same (p := 0) rfl rfl)) fun _ => rfl
  release := Holds.init trivial fun _ => Unsent.closed rfl
  matched := Matched.init s

theorem Sane.step (hs : Steps c x c') (h : Sane c) :
    Allows Settle.logic.Guarded c x c' ∧ Sane c' := by
  obtain ⟨hg, hsettle⟩ := Settle.sound.step hs trivial h.settle
  obtain ⟨hg', hrelease⟩ := sound.step hs trivial h.release
  exact ⟨hg, hsettle, hrelease, h.matched.step hs hg hg'⟩

/-! ## Deliveries of one message -/

/-- A pool with one amount. -/
def pool : Sets SetKey Amount
  | .pendingOrders => ∅
  | _ => {1500001}

/-- The operation leaves every amount to its release. -/
def leaves : Op → Bool
  | .smove .pendingOrders .freeAmounts _ => true
  | .spop _ | .smove _ _ _ | .sadd _ _ | .del _ | .sdiffstore _ _ _ => false
  | _ => true

theorem left_of_leaves {f : Fault} {op : Op} {r : Except Exc op.Ret} (h : leaves op = true) :
    Left a w w' (.run p f op r) := by
  cases op with
  | smove src dst b =>
    cases src <;> cases dst <;> trivial
  | spop _ | sadd _ _ | del _ | sdiffstore _ _ _ => exact absurd h (by simp [leaves])
  | _ => trivial

/-- From the `k`-th step on, the amounts are left to their release. -/
def leaving (k : ℕ) : Check where
  test _ past x := past.length < k || match x with
    | .run _ _ op _ => leaves op
    | _ => true
  sets _ _ _ x := by cases x <;> rfl

/-- And nothing fails; no request has a release to do when a message is acknowledged. -/
def delivering (k : ℕ) : Check where
  test _ past x := past.length < k || match x with
    | .run _ f op _ => f = .done && leaves op && (!(op matches .xack _) ||
      past.all fun y => match y.pid with
        | some q => !(dealOf q past matches .paid _)
        | none => true)
    | .crash _ => false
    | _ => true
  sets _ _ _ x := by cases x <;> rfl

theorem leaving_steps {k : ℕ} (h : (leaving k).Steps c x c') (hk : k ≤ c.past.length) :
    StepsIf (fun w _ x w' => Left a w w' x) c x c' := by
  obtain ⟨hs, htest⟩ := h
  simp only [leaving, Nat.not_lt.mpr hk, decide_false, Bool.false_or] at htest
  refine ⟨hs, ?_⟩
  cases x with
  | run q f op r => exact left_of_leaves htest
  | _ => trivial

/-- A request that did nothing has no release to do. -/
theorem dealOf_absent (h : ∀ y ∈ past, y.pid ≠ some p) : dealOf p past = .idle := by
  induction past using List.reverseRecOn with
  | nil => rfl
  | append_singleton past y ih =>
    rw [dealOf_other (h y (by simp))]
    exact ih fun z hz => h z (List.mem_append_left _ hz)

theorem delivering_steps {id : StreamId} {k : ℕ} (h : (delivering k).Steps c x c')
    (hk : k ≤ c.past.length) : StepsIf (Delivered id t a) c x c' := by
  obtain ⟨hs, htest⟩ := h
  simp only [delivering, Nat.not_lt.mpr hk, decide_false, Bool.false_or] at htest
  refine ⟨hs, ?_, ?_⟩
  · cases x with
    | crash q => exact absurd htest (by simp)
    | run q f op r =>
      simp only [Bool.and_eq_true, decide_eq_true_eq] at htest
      obtain ⟨⟨rfl, -⟩, hack⟩ := htest
      cases op with
      | xack id' =>
        rintro - p ⟨i, hdeal, -⟩
        simp only [Bool.not_true, Bool.false_or, List.all_eq_true] at hack
        have hp : ∃ y ∈ c.past, y.pid = some p := by
          by_contra hno
          rw [dealOf_absent fun y hy heq => hno ⟨y, hy, heq⟩] at hdeal
          exact absurd hdeal (by simp)
        obtain ⟨y, hy, hpid⟩ := hp
        have := hack y hy
        simp [hpid, hdeal] at this
      | smove src dst b => cases src <;> cases dst <;> trivial
      | _ => trivial
    | _ => trivial
  · cases x with
    | crash q => trivial
    | run q f op r =>
      simp only [Bool.and_eq_true] at htest
      exact left_of_leaves htest.1.2
    | _ => trivial

/-- A run from the `k`-th step on. -/
theorem run_after {chk : Check} {P : StepCond} {k : ℕ} {tr : List Label}
    (hstep : ∀ c x c', chk.Steps c x c' → k ≤ c.past.length → StepsIf P c x c')
    (hr : Run chk.Steps c tr c') (hk : k ≤ c.past.length) : Run (StepsIf P) c tr c' := by
  refine (hr.invariant (fun c' tr => Run (StepsIf P) c tr c' ∧ k ≤ c'.past.length) ⟨.nil, hk⟩ ?_).1
  rintro tr c₁ x c₂ - ⟨hrun, hk₁⟩ hs
  refine ⟨.snoc hrun (hstep _ _ _ hs hk₁), ?_⟩
  rw [hs.1.wstep.2, List.length_append]
  exact Nat.le_add_right_of_le hk₁

/-- The step acknowledges the message. -/
def acks (id : StreamId) : Label → Bool
  | .run _ .done (.xack id') _ => id' = id
  | _ => false

theorem eq_of_acks {id : StreamId} (h : acks id x = true) : ∃ p r, x = .run p .done (.xack id) r := by
  unfold acks at h
  split at h
  · obtain rfl := of_decide_eq_true h
    exact ⟨_, _, rfl⟩
  · exact absurd h (by simp)

/-- An order takes the amount, and the transfer of the amount comes in. -/
def ordered : List Move := Script.create 0 1500001 ++ Script.webhook 1 1500001

/-- The order waits for the transfer. -/
def waits (c : State) : Bool :=
  1500001 ∈ c.world.pending && c.world.db.intents.all fun i => i.smsTransactionId = none

/-- The fields carry the transfer. -/
def carries (f : Fields) : Bool :=
  match f.loads.get "transaction_id", f.loads.get "amount" with
  | .ok (.int t), .ok (.int b) => t = 1 && b = 1500001
  | _, _ => false

theorem eq_of_carries {f : Fields} (h : carries f = true) :
    f.loads.get "transaction_id" = .ok (.int 1) ∧ f.loads.get "amount" = .ok (.int 1500001) := by
  unfold carries at h
  split at h
  · rename_i t b ht hb
    simp only [Bool.and_eq_true, decide_eq_true_eq] at h
    obtain ⟨rfl, rfl⟩ := h
    exact ⟨ht, hb⟩
  · exact absurd h (by simp)

/-- The transfer settled the order. -/
def settled (c : State) : Bool :=
  c.world.db.intents.any fun i => i.status = .PAID && i.smsTransactionId = some 1 &&
    i.exactAmount = 1500001

/-- **A delivery that is not interrupted releases its amount.** -/
theorem release_survives {s : Sets SetKey Amount} {id : StreamId} {tr₀ tr : List Label} {c₀ : State}
    {f : Fault} {r : Except Exc ℕ} {j : PaymentIntent}
    (hr₀ : Run Steps (.init (withSets World.empty s)) tr₀ c₀)
    (hpending : a ∈ c₀.world.pending)
    (hfirst : ∀ i ∈ c₀.world.db.intents, i.smsTransactionId ≠ some t)
    (hr : Run (StepsIf (Delivered id t a)) c₀ tr c)
    (hack : StepsIf (Delivered id t a) c (.run p f (.xack id) r) c')
    (hj : j ∈ c'.world.db.intents) (ht : j.smsTransactionId = some t) (ha : j.exactAmount = a) :
    a ∉ c'.world.pending ∧ a ∈ c'.world.free := by
  have hsane : Sane c₀ := hr₀.inv Sane (Sane.init s) fun _ _ _ h hs => (h.step hs).2
  obtain ⟨-, hkept⟩ : Sane c ∧ Kept t a c := by
    refine hr.inv (fun c => Sane c ∧ Kept t a c) ⟨hsane, Or.inl hpending, ?_⟩ ?_
    · exact fun j hj ht _ => absurd ht (hfirst j hj)
    · rintro c x c' ⟨hS, hK⟩ ⟨hs, hcond⟩
      obtain ⟨hg, hS'⟩ := hS.step hs
      exact ⟨hS', hK.step hs hcond hg hS.matched hS.settle.inv hS'.settle.inv⟩
  have hw : system.WStep c.world (.run p f (.xack id) r) c'.world := hack.1.wstep.1
  have hset := Settles.step hw hack.2.2
  -- nobody is between the commit and the release when the message is acknowledged
  have hidle : ∀ q, ¬ Between t q c.world c.past := by
    have hunder := hack.2.1
    cases f <;> exact hunder rfl
  have hj₀ : j ∈ c.world.db.intents := exec_intents hw (by simp) ▸ hj
  have hout : a ∉ c.world.pending := by
    refine (hkept.released j hj₀ ht ha).resolve_right ?_
    rintro ⟨q, i, hdeal, hid, -⟩
    exact hidle q ⟨i, hdeal, j, hj₀, hid.symm, ht⟩
  exact ⟨fun hp => hout (hset.pending hp), hset.free (hkept.somewhere.resolve_left hout)⟩

/-- The worker gets through. -/
theorem release_survives_sample : ∃ (c c' : State) (p : Pid) (r : Except Exc ℕ) (j : PaymentIntent),
    Steps c (.run p .done (.xack (toLex (0, 1))) r) c' ∧ j ∈ c'.world.db.intents ∧
    j.smsTransactionId = some 1 ∧ 1500001 ∉ c'.world.pending ∧ 1500001 ∈ c'.world.free := by
  have hvisits : visits 4 (delivering 10) [(ordered, waits),
      (Script.relay 2 ++ .spawn 3 (.work "worker") :: Move.goes 3 11, fun _ => true),
      ([.go 3 none], fun c => (c.past.getLast?.any (acks (toLex (0, 1)))) && settled c)]
      (.init World.empty) [] pool = true := by decide +kernel
  obtain ⟨tr₀, c₀, hr₀, hlen, hwaits, -, tr, c, hr, -, -, -, tr', c', hlast, hone, htest, -⟩ :=
    visits_run hvisits (Within.init 4 World.empty_closed)
  have hpast : c₀.past.length = 10 := by
    rw [run_past hr₀.of_restrict]
    exact hlen
  have hpast' : 10 ≤ c.past.length := by
    rw [run_past hr.of_restrict, List.length_append, hpast]
    exact Nat.le_add_right _ _
  simp only [waits, Bool.and_eq_true, List.all_eq_true, decide_eq_true_eq] at hwaits
  simp only [settled, Bool.and_eq_true, List.any_eq_true, decide_eq_true_eq] at htest
  obtain ⟨x, hs⟩ := hlast.step_of_length hone
  obtain ⟨hacks, j, hj, ⟨-, ht⟩, ha⟩ := htest
  rw [hs.1.wstep.2, List.getLast?_concat] at hacks
  obtain ⟨p, r, rfl⟩ := eq_of_acks hacks
  have hreleased := release_survives (s := pool) hr₀.of_restrict hwaits.1
    (fun i hi heq => by simp [hwaits.2 i hi] at heq)
    (run_after (fun _ _ _ => delivering_steps) hr hpast.ge) (delivering_steps hs hpast') hj ht ha
  exact ⟨c, c', p, r, j, hs.1, hj, ht, hreleased⟩

/-- The worker crashes between the commit and the release; the next one finds the transfer settled. -/
theorem release_lost : ∃ (tr₀ tr : List Label) (c₀ c c' : State) (p : Pid) (r : Except Exc ℕ)
    (f : Fields) (j : PaymentIntent), Run Steps (.init (withSets World.empty pool)) tr₀ c₀ ∧
    1500001 ∈ c₀.world.pending ∧ (∀ i ∈ c₀.world.db.intents, i.smsTransactionId ≠ some 1) ∧
    Run (StepsIf fun w _ x w' => Left 1500001 w w' x) c₀ tr c ∧
    Steps c (.run p .done (.xack (toLex (0, 1))) r) c' ∧
    (toLex (0, 1), f) ∈ c'.world.main.entries ∧ f.loads.get "transaction_id" = .ok (.int 1) ∧
    f.loads.get "amount" = .ok (.int 1500001) ∧ j ∈ c'.world.db.intents ∧ j.status = .PAID ∧
    j.smsTransactionId = some 1 ∧ j.exactAmount = 1500001 ∧
    1500001 ∈ c'.world.pending ∧ 1500001 ∉ c'.world.free := by
  have hvisits : visits 5 (leaving 10) [(ordered, waits),
      (Script.relay 2 ++ .spawn 3 (.work "worker") :: Move.goes 3 9 ++ [.crash 3, .wait 6000] ++
        .spawn 4 (.work "worker") :: Move.goes 4 7, fun _ => true),
      ([.go 4 none], fun c => (c.past.getLast?.any (acks (toLex (0, 1)))) && settled c &&
        (c.world.main.entries.any fun e => e.1 = toLex (0, 1) && carries e.2) &&
        1500001 ∈ c.world.pending && 1500001 ∉ c.world.free)]
      (.init World.empty) [] pool = true := by decide +kernel
  obtain ⟨tr₀, c₀, hr₀, hlen, hwaits, -, tr, c, hr, -, -, -, tr', c', hlast, hone, htest, -⟩ :=
    visits_run hvisits (Within.init 5 World.empty_closed)
  have hpast : c₀.past.length = 10 := by
    rw [run_past hr₀.of_restrict]
    exact hlen
  simp only [waits, Bool.and_eq_true, List.all_eq_true, decide_eq_true_eq] at hwaits
  simp only [settled, Bool.and_eq_true, List.any_eq_true, decide_eq_true_eq] at htest
  obtain ⟨x, hs⟩ := hlast.step_of_length hone
  obtain ⟨⟨⟨⟨hacks, j, hj, ⟨hst, ht⟩, ha⟩, ⟨id, f⟩, hin, rfl, hf⟩, hpending⟩, hfree⟩ := htest
  rw [hs.1.wstep.2, List.getLast?_concat] at hacks
  obtain ⟨p, r, rfl⟩ := eq_of_acks hacks
  obtain ⟨hid, hamount⟩ := eq_of_carries hf
  exact ⟨tr₀, tr, c₀, c, c', p, r, f, j, hr₀.of_restrict, hwaits.1,
    fun i hi heq => by simp [hwaits.2 i hi] at heq,
    run_after (fun _ _ _ => leaving_steps) hr hpast.ge, hs.1, hin, hid, hamount, hj, hst, ht, ha,
    hpending, hfree⟩

end Release

end PaymentRecon
