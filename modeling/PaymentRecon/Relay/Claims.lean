import PaymentRecon.Model.Ordinary
import PaymentRecon.Tables.Events

/-!
# Claims — what a relay does with the events it claimed

A relay claims events, publishes them one by one, and reports on all of them in one update.
`claimOf p past` is read off the operations of `p` and their answers.  `Lawful` is the promise under
which a request performs each operation on the outbox: a claim is of stale locks only, and an update is
of claimed events only, with the outcome that the relay saw.
-/

namespace PaymentRecon

open Interleave Rely

namespace Relay

variable {p q : Pid} {w w' : World} {past : List Label} {a : Label}

/-! ## Claims -/

inductive Claim
  | none
  | held (t : ℕ) (events : List ClaimedEvent)
  | over

/-- The claim after an operation with this answer. -/
def Claim.next (s : Claim) : (op : Op) → Except Exc op.Ret → Claim
  | .claimEvents t _ _, .ok events => .held t events
  | .commit, _ =>
    match s with
    | .none => .none
    | _ => .over
  | .rollback, _ =>
    match s with
    | .none => .none
    | _ => .over
  | _, _ => s

/-- The claim of `p` after the steps `past`. -/
def claimOf (p : Pid) (past : List Label) : Claim := track Claim.next .none p past

@[simp] theorem claimOf_nil : claimOf p [] = .none := rfl

theorem claimOf_own {f : Fault} {op : Op} {r : Except Exc op.Ret} :
    claimOf p (past ++ [.run p f op r]) = (claimOf p past).next op r := track_own

theorem claimOf_other (h : a.pid ≠ some p) : claimOf p (past ++ [a]) = claimOf p past :=
  track_other h

/-- An operation that leaves every claim as it is. -/
def Quiet : Op → Prop
  | .claimEvents _ _ _ | .commit | .rollback => False
  | _ => True

theorem Claim.next_quiet {s : Claim} {op : Op} {r : Except Exc op.Ret} (h : Quiet op) :
    s.next op r = s := by
  cases op <;> first
    | rfl
    | exact h.elim

/-- A claim that is held was held before, or the step is the claim. -/
theorem claim_of_step {t : ℕ} {es : List ClaimedEvent} (h : claimOf p (past ++ [a]) = .held t es) :
    claimOf p past = .held t es ∨ ∃ f s l, a = .run p f (Op.claimEvents t s l) (.ok es) := by
  by_cases hp : a.pid = some p
  · cases a with
    | run q f op r =>
      obtain rfl : q = p := by simpa [Act.pid] using hp
      rw [claimOf_own] at h
      by_cases hq : Quiet op
      · rw [Claim.next_quiet hq] at h
        exact Or.inl h
      · cases op with
        | claimEvents t' s l =>
          cases r with
          | ok es' =>
            obtain ⟨rfl, rfl⟩ : t' = t ∧ es' = es := by simpa [Claim.next] using h
            exact Or.inr ⟨f, s, l, rfl⟩
          | error e => exact Or.inl h
        | commit =>
          simp only [Claim.next] at h
          split at h <;> simp at h
        | rollback =>
          simp only [Claim.next] at h
          split at h <;> simp at h
        | _ => exact absurd trivial hq
    | spawn q y =>
      rw [claimOf, track_spawn] at h
      exact Or.inl h
    | crash q => exact Or.inl (by simpa [claimOf, track, List.foldl_append] using h)
    | outer y => simp [Act.pid] at hp
  · rw [claimOf_other hp] at h
    exact Or.inl h

/-- A claim takes events that were claimable. -/
theorem claimed_rows {f : Fault} {t : ℕ} {s : ℤ} {l : ℕ} {es : List ClaimedEvent}
    (hx : exec f p (Op.claimEvents t s l) w (.ok es) w') : ∃ sel, Selects w p s l sel ∧
      es = sel.map (·.claimed) ∧ w'.db.outbox = (w.db.claim (sel.map (·.id)) t).outbox := by
  rcases exec_cases hx with ⟨sel, hsel, hr, rfl⟩ | ⟨-, e, -, hr⟩ | ⟨hl, -⟩
  · exact ⟨sel, hsel, by simpa using hr, rfl⟩
  · exact absurd hr (by simp)
  · simp [Op.Loses, Op.OnRedis] at hl

/-! ## Promises -/

/-- `p` claimed the event and its payload is valid, and an XADD of the payload succeeded. -/
def Sent (p : Pid) (past : List Label) (e : ClaimedEvent) : Prop :=
  (∃ fl t s l es, Act.run p fl (Op.claimEvents t s l) (.ok es) ∈ past ∧ e ∈ es) ∧
    validateEventData e.data = .ok e.data ∧
    ∃ fl f x, Act.run p fl (Op.xadd f) (.ok x) ∈ past ∧ f.data = some e.data

/-- The promise under which `p` performs the operation. -/
def Lawful (p : Pid) (w : World) (past : List Label) : Op → Prop
  | .claimEvents t s _ => claimOf p past = .none ∧ s = t - lockTimeout ∧ t ≤ w.clock
  | .publishEvents ids => ∃ t es, claimOf p past = .held t es ∧
      ∀ id ∈ ids, ∃ e ∈ es, e.id = id ∧ Sent p past e
  | .failEvents us => ∃ t es, claimOf p past = .held t es ∧
      ∀ u ∈ us, (∃ e ∈ es, e.id = u.id) ∧ (u.status = .PENDING ∨ u.status = .FAILED)
  | .commit => claimOf p past ≠ .over
  | _ => True

def logic : Rely sig Exc Response World Request Tick where
  machine := system
  cond := fun _ _ _ _ => True
  inv := fun _ _ => True
  start := fun p _ past => claimOf p past = .none
  guard := Lawful
  final := fun _ _ => top

abbrev Facts := Assertion sig Exc World Request Tick

abbrev Keeps {β : Type} (p : Pid) (K : Facts) (x : App β) (post : Except Exc β → Facts) : Prop :=
  logic.Ensures p K x post

def At (p : Pid) (s : Claim) : Facts := fun _ past => claimOf p past = s

theorem stable_at (s : Claim) : logic.Stable p (At p s) := by
  intro w past a w' _ _ _ hp h
  show claimOf p (past ++ [a]) = s
  rw [claimOf_other hp]
  exact h

theorem Sent.mono {e : ClaimedEvent} (h : Sent p past e) : Sent p (past ++ [a]) e := by
  obtain ⟨⟨fl, t, s, l, es, hm, he⟩, hv, fl', f, x, hm', hd⟩ := h
  exact ⟨⟨fl, t, s, l, es, List.mem_append_left _ hm, he⟩, hv, fl', f, x,
    List.mem_append_left _ hm', hd⟩

/-! ## Requests that claim nothing -/

/-- An operation on anything but the outbox events there are. -/
def Calm : Op → Prop
  | .claimEvents _ _ _ | .publishEvents _ | .failEvents _ => False
  | _ => True

theorem keeps_calm {op : Op} (h : Calm op) : Keeps p (At p .none) (await op) fun _ => At p .none := by
  refine Ensures.perform (fun _ => stable_at _) (fun w past _ hK => ?_) ?_
  · cases op <;> first
      | exact h.elim
      | trivial
      | exact fun ho => absurd (hK.symm.trans ho) (by simp)
  · intro f w past r w' _ hK _ _
    show claimOf p (past ++ [.run p f op r]) = .none
    rw [claimOf_own, show claimOf p past = .none from hK]
    cases op <;> first
      | exact h.elim
      | rfl

theorem keeps_all {β : Type} {x : App β} {A : Op → Prop} (hx : x.All A fun _ => True)
    (hA : ∀ op, A op → Calm op) : Keeps p (At p .none) x fun _ => At p .none :=
  Ensures.all (fun op h => keeps_calm (hA op h)) hx

/-! ## The relay -/

/-- The claim is held; `F` is known besides, and stays known. -/
def Held (p : Pid) (t : ℕ) (es : List ClaimedEvent) (F : Facts) : Facts :=
  fun w past => claimOf p past = .held t es ∧ F w past

variable {t : ℕ} {es : List ClaimedEvent} {F : Facts}

theorem stable_held (hF : logic.Persistent F) : logic.Stable p (Held p t es F) :=
  (stable_at _).and hF.stable

/-- An operation between the claim and the update. -/
theorem keeps_quiet {op : Op} {G : Except Exc op.Ret → Facts} (hq : Quiet op)
    (hF : logic.Persistent F) (hG : ∀ r, logic.Persistent (G r))
    (hg : ∀ w past, Held p t es F w past → Lawful p w past op)
    (hx : ∀ f w past r w', Held p t es F w past → exec f p op w r w' →
      G r w' (past ++ [.run p f op r])) :
    Keeps p (Held p t es F) (await op) fun r => Held p t es fun w past => F w past ∧ G r w past := by
  refine Ensures.perform (fun r => (stable_at _).and (hF.stable.and (hG r).stable))
    (fun w past _ hK => hg w past hK) ?_
  intro f w past r w' _ hK hex hc
  refine ⟨?_, hF w past (.run p f op r) w' trivial hex hc hK.2, hx f w past r w' hK hex⟩
  show claimOf p (past ++ [.run p f op r]) = .held t es
  rw [claimOf_own, hK.1, Claim.next_quiet hq]

theorem keeps_skip {op : Op} (hq : Quiet op) (hF : logic.Persistent F)
    (hg : ∀ w past, Held p t es F w past → Lawful p w past op) :
    Keeps p (Held p t es F) (await op) fun _ => Held p t es F :=
  (keeps_quiet (G := fun _ => top) hq hF (fun _ => Persistent.true) hg
    fun _ _ _ _ _ _ _ => trivial).mono fun _ _ _ h => ⟨h.1, h.2.1⟩

/-- The label of the claim. -/
def Taken (p : Pid) (es : List ClaimedEvent) : Facts :=
  fun _ past => ∃ fl t s l, Act.run p fl (Op.claimEvents t s l) (.ok es) ∈ past

theorem persistent_taken : logic.Persistent (Taken p es) :=
  fun _ _ _ _ _ _ _ ⟨fl, t, s, l, h⟩ => ⟨fl, t, s, l, List.mem_append_left _ h⟩

theorem keeps_claimProcessEvents (limit : ℕ) :
    Keeps p (At p .none) (claimProcessEvents limit)
      (whenOk fun es w past => ∃ t, Held p t es (Taken p es) w past) := by
  unfold claimProcessEvents
  have hnow : Keeps p (At p .none) (await .now) fun r w past =>
      At p .none w past ∧ ∀ n, r = .ok n → n ≤ w.clock := by
    refine Ensures.perform (fun r => (stable_at _).and ?_) (fun _ _ _ _ => trivial) ?_
    · intro w past a w' _ hw _ _ h n hn
      exact (h n hn).trans (wstep_clock hw)
    · intro f w past r w' _ hK hex _
      refine ⟨?_, ?_⟩
      · show claimOf p (past ++ [.run p f Op.now r]) = .none
        rw [claimOf_own, show claimOf p past = .none from hK]
        rfl
      · rintro n rfl
        rcases exec_cases hex with ⟨h, rfl⟩ | ⟨-, e, -, h⟩ | ⟨-, -, -, e, -, h⟩
        · obtain rfl : n = w'.clock := by simpa using h
          exact le_rfl
        · exact absurd h (by simp)
        · exact absurd h (by simp)
  refine Ensures.bind hnow ?_ fun _ _ _ _ => trivial
  intro now
  refine Ensures.perform ?_ ?_ ?_
  · exact stable_whenOk fun es => Stable.exists fun t => stable_held persistent_taken
  · exact fun w past _ hK => ⟨hK.1, rfl, hK.2 now rfl⟩
  · intro f w past r w' _ hK _ _
    cases r with
    | error e => trivial
    | ok es =>
      refine ⟨now, ?_, f, now, _, limit, List.mem_append_right _ (List.mem_singleton_self _)⟩
      show claimOf p (past ++ [_]) = .held now es
      rw [claimOf_own]
      rfl

/-- What the relay reports of a claimed event. -/
def Report (p : Pid) (e : ClaimedEvent) (u : EventUpdate) : Facts := fun _ past =>
  u.id = e.id ∧ (u.status = .PUBLISHED ∧ Sent p past e ∨ u.status = .PENDING ∨ u.status = .FAILED)

theorem persistent_report {e : ClaimedEvent} {u : EventUpdate} :
    logic.Persistent (Report p e u) :=
  fun _ _ _ _ _ _ _ ⟨hid, h⟩ => ⟨hid, h.imp_left fun ⟨hs, hsent⟩ => ⟨hs, hsent.mono⟩⟩

theorem retryUpdate_report {e : ClaimedEvent} {n : ℤ} {failed pending : String} :
    Report p e (retryUpdate e.id n failed pending) w past := by
  unfold retryUpdate
  split_ifs
  · exact ⟨rfl, Or.inr (Or.inr rfl)⟩
  · exact ⟨rfl, Or.inr (Or.inl rfl)⟩

theorem keeps_retry {e : ClaimedEvent} {x : Exc} {failed pending : String} :
    Keeps p (Held p t es F) (if x.kind = .redisError then
        pure (retryUpdate e.id (e.retryCount.getD 0) failed pending) else throw x)
      (whenOk fun u => Held p t es fun w past => F w past ∧ Report p e u w past) := by
  split_ifs
  · exact fun w past h => ⟨h.1, h.2, retryUpdate_report⟩
  · exact fun _ _ _ => trivial

theorem keeps_processSingleOutboxEvent {e : ClaimedEvent} (he : e ∈ es)
    (hF : logic.Persistent F) (hT : ∀ w past, F w past → Taken p es w past) :
    Keeps p (Held p t es F) (processSingleOutboxEvent e)
      (whenOk fun u => Held p t es fun w past => F w past ∧ Report p e u w past) := by
  unfold processSingleOutboxEvent
  cases hv : validateEventData e.data with
  | error reason =>
    refine Ensures.tryCatch (m := fun r => match r with
      | .ok u => Held p t es fun w past => F w past ∧ Report p e u w past
      | .error _ => Held p t es F) ?_ (fun _ _ _ h => h) fun x => keeps_retry
    refine Ensures.bind (m := fun _ => Held p t es F) ?_ ?_ fun _ _ _ h => h
    · unfold enqueueDeadLetter
      refine Ensures.bind (keeps_skip trivial hF fun _ _ _ => trivial) ?_ fun _ _ _ h => h
      exact fun _ => keeps_skip trivial hF fun _ _ _ => trivial
    · exact fun _ w past h => ⟨h.1, h.2, rfl, Or.inr (Or.inr rfl)⟩
  | ok d =>
    obtain rfl := validateEventData_eq hv
    refine Ensures.tryCatch (m := fun r => match r with
      | .ok u => Held p t es fun w past => F w past ∧ Report p e u w past
      | .error _ => Held p t es F) ?_ (fun _ _ _ h => h) fun x => keeps_retry
    unfold enqueue
    refine Ensures.bind (m := fun r => Held p t es fun w past => F w past ∧
      ∀ x, r = .ok x → ∃ fl f y, Act.run p fl (Op.xadd f) (.ok y) ∈ past ∧ f.data = some e.data)
      ?_ ?_ fun _ _ _ h => ⟨h.1, h.2.1⟩
    · refine Ensures.bind (keeps_skip trivial hF fun _ _ _ => trivial) ?_
        fun _ _ _ h => ⟨h.1, h.2, fun _ hx => absurd hx (by simp)⟩
      intro now
      refine keeps_quiet trivial hF ?_ (fun _ _ _ => trivial) ?_
      · intro r w past a w' _ _ _ h x hx
        obtain ⟨fl, f, y, hm, hd⟩ := h x hx
        exact ⟨fl, f, y, List.mem_append_left _ hm, hd⟩
      · rintro f w past r w' - - x rfl
        exact ⟨f, _, x, List.mem_append_right _ (List.mem_singleton_self _), rfl⟩
    · rintro x w past ⟨hc, hf, hx⟩
      obtain ⟨fl, s, y, l, hm⟩ := hT w past hf
      exact ⟨hc, hf, rfl, Or.inl ⟨rfl, ⟨fl, s, y, l, es, hm, he⟩, hv, hx x rfl⟩⟩

/-- Every report is on an event of the claim. -/
def Reports (p : Pid) (es : List ClaimedEvent) (us : List EventUpdate) : Facts := fun w past =>
  ∀ u ∈ us, ∃ e ∈ es, Report p e u w past

theorem persistent_reports {us : List EventUpdate} : logic.Persistent (Reports p es us) :=
  fun w past a w' hI hw hc h u hu =>
    let ⟨e, he, hr⟩ := h u hu
    ⟨e, he, persistent_report w past a w' hI hw hc hr⟩

theorem keeps_processEvents {rest : List ClaimedEvent} (hsub : ∀ e ∈ rest, e ∈ es)
    (hF : logic.Persistent F) (hT : ∀ w past, F w past → Taken p es w past) :
    Keeps p (Held p t es F) (processEvents rest)
      (whenOk fun us => Held p t es fun w past => F w past ∧ Reports p es us w past) := by
  induction rest generalizing F with
  | nil => exact fun w past h => ⟨h.1, h.2, fun u hu => absurd hu (by simp)⟩
  | cons e rest ih =>
    unfold processEvents
    have he : e ∈ es := hsub e List.mem_cons_self
    refine Ensures.bind (keeps_processSingleOutboxEvent he hF hT) ?_ fun _ _ _ _ => trivial
    intro u
    refine Ensures.bind (ih (fun e' he' => hsub e' (List.mem_cons_of_mem _ he'))
      (fun w past a w' hI hw hc h =>
        ⟨hF w past a w' hI hw hc h.1, persistent_report w past a w' hI hw hc h.2⟩)
      fun w past h => hT w past h.1) ?_ fun _ _ _ _ => trivial
    rintro us w past ⟨hc, ⟨hf, hu⟩, hus⟩
    refine ⟨hc, hf, fun u' hu' => ?_⟩
    rcases List.mem_cons.mp hu' with rfl | hu'
    · exact ⟨e, he, hu⟩
    · exact hus u' hu'

theorem keeps_processOutboxUpdates (us : List EventUpdate) :
    Keeps p (Held p t es (Reports p es us)) (processOutboxUpdates us) fun _ => top := by
  unfold processOutboxUpdates
  split_ifs
  · exact fun _ _ _ => trivial
  · refine Ensures.tryCatch (m := fun _ => top) ?_ (fun _ _ _ _ => trivial) ?_
    · refine Ensures.bind (m := fun _ => Held p t es (Reports p es us)) ?_ ?_ fun _ _ _ _ => trivial
      · unfold publishStmt
        split_ifs
        · exact fun _ _ h => h
        · refine keeps_skip trivial persistent_reports fun w past h => ⟨t, es, h.1, ?_⟩
          intro id hid
          obtain ⟨u, hu, rfl⟩ := List.mem_map.mp hid
          obtain ⟨hmem, hs⟩ := List.mem_filter.mp hu
          have hpub : u.status = .PUBLISHED := by simpa using hs
          obtain ⟨e, he, hid, ⟨-, hsent⟩ | hst | hst⟩ := h.2 u hmem
          · exact ⟨e, he, hid.symm, hsent⟩
          · exact absurd (hpub.symm.trans hst) (by simp)
          · exact absurd (hpub.symm.trans hst) (by simp)
      · intro _
        refine Ensures.bind (m := fun _ => Held p t es (Reports p es us)) ?_ ?_
          fun _ _ _ _ => trivial
        · unfold errorStmt
          split_ifs
          · exact fun _ _ h => h
          · refine keeps_skip trivial persistent_reports fun w past h => ⟨t, es, h.1, ?_⟩
            intro u hu
            obtain ⟨hmem, hs⟩ := List.mem_filter.mp hu
            have hne : u.status ≠ .PUBLISHED := by simpa using hs
            obtain ⟨e, he, hid, ⟨hst, -⟩ | hst⟩ := h.2 u hmem
            · exact absurd hst hne
            · exact ⟨⟨e, he, hid.symm⟩, hst⟩
        · intro _
          refine Ensures.perform (fun _ => Persistent.true.stable) (fun w past _ h => ?_)
            fun _ _ _ _ _ _ _ _ _ => trivial
          exact fun ho => absurd (h.1.symm.trans ho) (by simp)
    · intro x
      refine Ensures.bind (m := fun _ => top) (Ensures.perform
        (fun _ => Persistent.true.stable) (fun _ _ _ _ => trivial)
        fun _ _ _ _ _ _ _ _ _ => trivial) ?_ fun _ _ _ _ => trivial
      exact fun _ _ _ _ => trivial

theorem keeps_processOutboxEvent :
    Keeps p (At p .none) processOutboxEvent fun _ => top := by
  unfold processOutboxEvent
  refine Ensures.bind (keeps_claimProcessEvents 100) ?_ fun _ _ _ _ => trivial
  intro es
  refine Ensures.exists fun t => ?_
  split_ifs
  · exact fun _ _ _ => trivial
  · refine Ensures.bind (keeps_processEvents (fun _ h => h) persistent_taken fun _ _ h => h) ?_
      fun _ _ _ _ => trivial
    intro us
    refine Ensures.bind ((keeps_processOutboxUpdates us).pre fun _ _ h => ⟨h.1, h.2.2⟩) ?_
      fun _ _ _ _ => trivial
    exact fun _ _ _ _ => trivial

/-! ## All requests -/

theorem keeps_prog (q : Request) : Keeps p (At p .none) q.prog fun _ => top := by
  have calm : ∀ {y : App Response} {A : Op → Prop} {R : Except Exc Response → Prop}, y.All A R →
      (∀ op, A op → Calm op) → Keeps p (At p .none) y fun _ => top :=
    fun hy hA => (keeps_all (hy.mono (fun _ h => h) fun _ _ => trivial) hA).mono fun _ _ _ _ => trivial
  have collects : ∀ op, Collects op → Calm op := fun op h => by cases op <;> trivial
  have stocks : ∀ op, Stocks op → Calm op := fun op h => by cases op <;> trivial
  cases q with
  | createOrder userId amount => exact calm (all_createOrder userId amount) stocks
  | confirmPayment orderId paymentId => exact calm (all_confirmPayment orderId paymentId) collects
  | handlePayment m =>
    exact calm (all_seq (all_handlePayment m) fun _ => trivial) collects
  | receiveTransaction s =>
    exact calm (all_receiveTransaction s) fun op h => by cases op <;> trivial
  | processOutboxEvent => exact keeps_processOutboxEvent
  | work workerId =>
    refine (ensures_turn (fun op h => keeps_calm ?_)
      (fun m => keeps_all (all_handlePayment m) collects) workerId).mono fun _ _ _ _ => trivial
    cases op <;> trivial
  | replayDlq y => exact calm (all_replayDlqDashboard y) fun op h => by cases op <;> trivial
  | lifespan fuel => exact calm (all_lifespan fuel) stocks

theorem sound : logic.Sound where
  prog p q w past w' _ _ := (keeps_prog q).pre fun _ _ h => h.1
  start p := stable_at .none
  begin w past p q h := by
    show claimOf p (past ++ [.spawn p q]) = .none
    rw [claimOf, track_spawn]
    exact h
  spawn w past p q h _ := trivial
  run f w past p op r w' h _ _ _ := trivial
  crash w past p h _ := trivial
  outer w past x h _ := trivial

end Relay

end PaymentRecon
