import PaymentRecon.Consume.Handed
import PaymentRecon.Lib.Solo
import PaymentRecon.Lib.Script

/-!
# Bounded — a failing message is handled `max_retries + 1` times and then dead-lettered

The programs of the worker take the message from phase to phase.  `targets` is what a list of fetched
messages holds of it, `todo` what a phase says it must hold.
-/

namespace PaymentRecon

open Interleave Streams Rely

namespace Lifecycle

/-- What the messages hold of the message `id`. -/
def targets (id : StreamId) (ms : List Message) : List (Json × ℤ) :=
  ((ms.map fun m => (m.id, m.data, m.attempts)).filter fun x => x.1 = id).map (·.2)

/-- What is left to do in a phase. -/
def Phase.todo (f : Fields) : Phase → List (Json × ℤ)
  | .inHand k => [(f.loads, k)]
  | _ => []

section Logic

variable (worker : Worker) (p : Pid) (id : StreamId) (f : Fields)

def logic : Rely sig Exc Unit World ℕ Feed where
  machine := consumer worker
  cond := fun w _ a w' => Cond p id w a ∧ Coming id f w'
  inv := Inv worker.maxRetries p id f
  start := fun q _ past => q = p → phase worker.maxRetries id p past = .unread
  guard := fun q _ past op => q = p → Lawful id (phase worker.maxRetries id p past) op
  final := fun q _ _ past => q = p → (phase worker.maxRetries id p past).AtRest

end Logic

section Programs

variable {worker : Worker} {p : Pid} {id : StreamId} {f : Fields} {ph : Phase} {w w' : World}
  {past : List Event}

/-- The message is in the phase. -/
def At (worker : Worker) (p : Pid) (id : StreamId) (ph : Phase) : Facts :=
  fun _ past => phase worker.maxRetries id p past = ph

theorem stable_phase {C : Phase → Prop} :
    (logic worker p id f).Stable p fun _ past => C (phase worker.maxRetries id p past) := by
  intro w past a w' _ _ _ hp h
  show C (phase worker.maxRetries id p (past ++ [a]))
  rw [show phase worker.maxRetries id p (past ++ [a]) = _ from track_other hp]
  exact h

theorem ok_of_run {op : Op} {r : Except Exc op.Ret} (h : op.run p w r w') (hs : Sure op) :
    ∃ a, r = .ok a := by
  cases op with
  | spop k =>
    rcases h with ⟨a, -, rfl, -⟩ | ⟨-, rfl, -⟩
    · exact ⟨_, rfl⟩
    · exact ⟨_, rfl⟩
  | xclaim c m i =>
    simp only [Op.run] at h
    split_ifs at h
    · exact ⟨_, h.1⟩
    · exact ⟨_, h.1⟩
  | smove _ _ _ | sadd _ _ | scard _ | «exists» _ | del _ | sdiffstore _ _ _ | xadd _ | xaddDead _
  | xreadgroup _ _ | xpending _ | xack _ | xrangeDead _ | moveDead _ _ | now | note _ => exact ⟨_, h.1⟩
  | _ => exact absurd hs (by simp [Sure, Op.OnRedis])

/-- **One operation** takes the message to its next phase. -/
theorem keeps_step {op : Op} {J : op.Ret → Prop} (hs : Sure op) (hg : Lawful id ph op)
    (hJ : ∀ flt w past a w', Inv worker.maxRetries p id f w past →
      phase worker.maxRetries id p past = ph → op.run p w (.ok a) w' →
      Cond p id w (.run p flt op (.ok a)) → J a) :
    (logic worker p id f).Ensures p (At worker p id ph) (await op)
      (returns fun a w past => J a ∧ At worker p id (ph.next worker.maxRetries id op (.ok a)) w past) := by
  refine Ensures.perform ?_ ?_ ?_
  · intro r
    cases r with
    | ok a =>
      exact stable_phase (C := fun x => J a ∧ x = ph.next worker.maxRetries id op (.ok a))
    | error e => exact Stable.false
  · rintro w past - hph -
    rw [show phase worker.maxRetries id p past = ph from hph]
    exact hg
  · intro flt w past r w' hI hph hx hc
    have hrun := run_of_sure hx hc.1 hs
    obtain ⟨a, rfl⟩ := ok_of_run hrun hs
    refine ⟨hJ flt w past a w' hI hph hrun hc.1, ?_⟩
    show phase worker.maxRetries id p (past ++ [.run p flt op (.ok a)]) = _
    rw [phase_own, show phase worker.maxRetries id p past = ph from hph]

variable (ph) in
theorem keeps_move {op : Op} (hs : Sure op) (hg : Lawful id ph op) :
    (logic worker p id f).Ensures p (At worker p id ph) (await op)
      (returns fun a => At worker p id (ph.next worker.maxRetries id op (.ok a))) := by
  refine (keeps_step (J := fun _ => True) hs hg fun _ _ _ _ _ _ _ _ _ => trivial).mono ?_
  intro r w past h
  cases r with
  | ok a => exact h.2
  | error e => exact h

/-- An operation elsewhere leaves the phase as it is. -/
theorem keeps_elsewhere {op : Op} (hs : Sure op) (ho : Elsewhere id op) (hph : ph.Steady) :
    (logic worker p id f).Ensures p (At worker p id ph) (await op)
      (returns fun _ => At worker p id ph) := by
  refine (keeps_move ph hs (ho.lawful hph)).mono ?_
  intro r w past h
  cases r with
  | ok a => exact h.trans (ho.next hph)
  | error e => exact h

/-- So do the operations of a handler, whatever their answers are. -/
theorem keeps_apart {op : Op} (ho : Apart op) (hph : ph.Steady) :
    (logic worker p id f).Ensures p (At worker p id ph) (await op) fun _ => At worker p id ph := by
  refine Ensures.perform (fun _ => stable_phase (C := fun x => x = ph)) ?_ ?_
  · rintro w past - h -
    rw [show phase worker.maxRetries id p past = ph from h]
    exact ho.elsewhere.lawful hph
  · intro flt w past r w' _ h _ _
    show phase worker.maxRetries id p (past ++ [.run p flt op r]) = ph
    rw [phase_own, show phase worker.maxRetries id p past = ph from h]
    exact ho.elsewhere.next hph

/-! ## Fetching -/

/-- The messages decoded from these entries. -/
def Decoded (attempts : Fields → ℤ) (es : List (StreamId × Fields)) (ms : List Message) : Prop :=
  (ms.map fun m => (m.id, m.data, m.attempts)) = es.map fun e => (e.1, e.2.loads, attempts e.2)

theorem Decoded.targets {attempts : Fields → ℤ} {es : List (StreamId × Fields)} {ms : List Message}
    (h : Decoded attempts es ms) :
    targets id ms = (es.filter fun e => e.1 = id).map fun e => (e.2.loads, attempts e.2) := by
  unfold Lifecycle.targets
  rw [h, List.filter_map, List.map_map]
  rfl

theorem Decoded.typed {attempts : Fields → ℤ} {es : List (StreamId × Fields)} {ms : List Message}
    (h : Decoded attempts es ms) (he : ∀ e ∈ es, Typed e.2.loads) : ∀ m ∈ ms, Typed m.data := by
  intro m hm
  have hmem : (m.id, m.data, m.attempts) ∈ ms.map fun m => (m.id, m.data, m.attempts) :=
    List.mem_map.mpr ⟨m, hm, rfl⟩
  rw [h] at hmem
  obtain ⟨e, hmem, heq⟩ := List.mem_map.mp hmem
  simp only [Prod.mk.injEq] at heq
  exact heq.2.1 ▸ he e hmem

theorem keeps_decodeAll (attempts : Fields → ℤ) (es : List (StreamId × Fields)) (hph : ph.Steady) :
    (logic worker p id f).Ensures p (At worker p id ph) (decodeAll attempts es)
      (returns fun ms w past => Decoded attempts es ms ∧ At worker p id ph w past) := by
  induction es with
  | nil => exact fun _ _ h => ⟨rfl, h⟩
  | cons e es ih =>
    unfold decodeAll
    refine Ensures.bind (m := returns fun m w past =>
      (m.id, m.data, m.attempts) = (e.1, e.2.loads, attempts e.2) ∧ At worker p id ph w past) ?_ ?_
      fun _ _ _ h => h.elim
    · refine Ensures.bind (keeps_elsewhere (Or.inr (Or.inl rfl)) trivial hph) ?_ fun _ _ _ h => h.elim
      exact fun now w past h => ⟨rfl, h⟩
    · intro m
      refine Ensures.pure fun hm => ?_
      refine Ensures.bind ih ?_ fun _ _ _ h => h.elim
      rintro ms w past ⟨hms, h⟩
      refine ⟨?_, h⟩
      simp only [Decoded, List.map_cons, hm] at hms ⊢
      rw [hms]

/-- The entries read since the phase `ph`. -/
structure Read (id : StreamId) (f : Fields) (attempts : Fields → ℤ) (ph ph' : Phase)
    (es : List (StreamId × Fields)) : Prop where
  collecting : ph'.Collecting
  todo : ph'.todo f =
    ph.todo f ++ (es.filter fun e => e.1 = id).map fun e => (e.2.loads, attempts e.2)
  typed : ∀ e ∈ es, Typed e.2.loads

/-- The messages fetched since the phase `ph`. -/
structure Fetched (id : StreamId) (f : Fields) (ph ph' : Phase) (ms : List Message) : Prop where
  collecting : ph'.Collecting
  todo : ph'.todo f = ph.todo f ++ targets id ms
  typed : ∀ m ∈ ms, Typed m.data

theorem Fetched.none (h : ph.Collecting) : Fetched id f ph ph [] :=
  ⟨h, by simp [targets], by simp⟩

theorem Fetched.append {ph' ph'' : Phase} {ms ms' : List Message} (h : Fetched id f ph ph' ms)
    (h' : Fetched id f ph' ph'' ms') : Fetched id f ph ph'' (ms ++ ms') := by
  refine ⟨h'.collecting, ?_, ?_⟩
  · rw [h'.todo, h.todo, List.append_assoc]
    simp [targets]
  · intro m hm
    rcases List.mem_append.mp hm with hm | hm
    · exact h.typed m hm
    · exact h'.typed m hm

theorem keeps_decoded {attempts : Fields → ℤ} {es : List (StreamId × Fields)} {ph' : Phase}
    (h : Read id f attempts ph ph' es) :
    (logic worker p id f).Ensures p (At worker p id ph') (decodeAll attempts es)
      (returns fun ms w past => Fetched id f ph ph' ms ∧ At worker p id ph' w past) := by
  refine (keeps_decodeAll attempts es h.collecting.steady).mono ?_
  intro r w past hr
  cases r with
  | ok ms => exact ⟨⟨h.collecting, by rw [hr.1.targets, h.todo], hr.1.typed h.typed⟩, hr.2⟩
  | error e => exact hr

/-- What XPENDING said about the message: how often it was delivered, if it is waiting at all. -/
def Offered (id : StreamId) (ph : Phase) (pending : List (StreamId × ℕ × ℕ)) : Prop :=
  ((pending.filter fun x => x.1 = id).map fun x => x.2.2).Sublist
    (match ph with
    | .idle k => [k]
    | _ => [])

theorem Offered.idle {x : StreamId × ℕ × ℕ} {xs : List (StreamId × ℕ × ℕ)}
    (h : Offered id ph (x :: xs)) (hid : x.1 = id) :
    ph = .idle x.2.2 ∧ ∀ ph', Offered id ph' xs := by
  unfold Offered at h
  rw [List.filter_cons_of_pos (by simpa using hid), List.map_cons] at h
  cases ph with
  | idle k =>
    have hlen := h.length_le
    have hnil : ((xs.filter fun y => y.1 = id).map fun y => y.2.2) = [] :=
      List.eq_nil_of_length_eq_zero (by simpa using hlen)
    rw [hnil, List.singleton_sublist] at h
    refine ⟨by rw [List.mem_singleton.mp h], fun ph' => ?_⟩
    unfold Offered
    rw [hnil]
    exact List.nil_sublist _
  | _ => exact absurd (List.sublist_nil.mp h) (by simp)

theorem Offered.tail {x : StreamId × ℕ × ℕ} {xs : List (StreamId × ℕ × ℕ)}
    (h : Offered id ph (x :: xs)) : Offered id ph xs :=
  (((List.sublist_cons_self x xs).filter _).map _).trans h

/-- The entries that XCLAIM answers. -/
theorem Inv.read_xclaim {consumer : String} {minIdle n : ℕ} {i : StreamId}
    {es : List (StreamId × Fields)} {maxRetries : ℤ} (h : Inv maxRetries p id f w past)
    (hph : phase maxRetries id p past = ph) (hc : ph.Collecting) (hi : i = id → ph = .idle n)
    (hx : (Op.xclaim consumer minIdle i).run p w (.ok es) w') :
    Read id f (fun _ => n) ph (ph.next maxRetries id (Op.xclaim consumer minIdle i) (.ok es)) es := by
  have hmem : ∀ e ∈ es, e ∈ w.main.entries ∧ e.1 = i := by
    intro e he
    simp only [Op.run] at hx
    split_ifs at hx
    · obtain ⟨hes, -⟩ := hx
      cases hes
      rw [Stream.xrange_self] at he
      simpa using List.mem_filter.mp he
    · obtain ⟨hes, -⟩ := hx
      cases hes
      exact absurd he (by simp)
  have htyped : ∀ e ∈ es, Typed e.2.loads := fun e he => (h.written e (hmem e he).1).typed
  by_cases hid : i = id
  · subst hid
    obtain rfl := hi rfl
    have hread : ¬ w.group.cursor < i := fun hu => by
      have hunread := h.agrees.read.mpr hu
      rw [hph] at hunread
      simp at hunread
    simp only [Op.run] at hx
    split_ifs at hx
    · have hes : es = [(i, f)] := by
        rw [show es = w.main.xrange i i from Except.ok.inj hx.1, Stream.xrange_self]
        exact Stream.filter_id (h.mem hread)
      subst hes
      have hnext : Phase.next maxRetries i (.idle n) (Op.xclaim consumer minIdle i) (.ok [(i, f)]) =
          .inHand n := if_pos ⟨rfl, by simp⟩
      rw [hnext]
      exact ⟨trivial, by simp [Phase.todo], htyped⟩
    · obtain rfl : es = [] := Except.ok.inj hx.1
      have hnext : Phase.next maxRetries i (.idle n) (Op.xclaim consumer minIdle i) (.ok []) =
          .idle n := if_neg fun hne => hne.2 rfl
      rw [hnext]
      exact ⟨trivial, by simp, htyped⟩
  · have hnone : (es.filter fun e => e.1 = id) = [] :=
      List.filter_eq_nil_iff.mpr fun e he heq => hid ((hmem e he).2.symm.trans (by simpa using heq))
    have ho : Elsewhere id (Op.xclaim consumer minIdle i) := hid
    rw [ho.next hc.steady]
    exact ⟨hc, by rw [hnone]; simp, htyped⟩

theorem keeps_claimEntries (consumer : String) (minIdle : ℕ) (pending : List (StreamId × ℕ × ℕ))
    (hph : ph.Collecting) (ho : Offered id ph pending) :
    (logic worker p id f).Ensures p (At worker p id ph) (claimEntries consumer minIdle pending)
      (returns fun ms w past => ∃ ph', Fetched id f ph ph' ms ∧ At worker p id ph' w past) := by
  induction pending generalizing ph with
  | nil => exact fun _ _ h => ⟨ph, .none hph, h⟩
  | cons x xs ih =>
    obtain ⟨i, idle, n⟩ := x
    unfold claimEntries
    split_ifs
    · have hi : i = id → ph = .idle n := fun hid => (ho.idle hid).1
      refine Ensures.bind (keeps_step (J := fun es => Read id f (fun _ => n) ph
        (ph.next worker.maxRetries id (Op.xclaim consumer minIdle i) (.ok es)) es)
        (Or.inl (by trivial)) ?_ ?_) ?_ fun _ _ _ h => h.elim
      · by_cases hid : i = id
        · obtain rfl := hi hid
          exact Or.inr (Or.inr ⟨_, _, by rw [hid]⟩)
        · exact Elsewhere.lawful hid hph.steady
      · exact fun flt w past es w' hI hat hx _ => hI.read_xclaim hat hph hi hx
      · intro es
        refine Ensures.pure fun hread => ?_
        generalize hnext : ph.next worker.maxRetries id (Op.xclaim consumer minIdle i) (.ok es) = ph₁
          at hread ⊢
        -- what is left to claim is offered in the new phase too
        have hoffer : Offered id ph₁ xs := by
          by_cases hid : i = id
          · exact (ho.idle hid).2 ph₁
          · have hother : Elsewhere id (Op.xclaim consumer minIdle i) := hid
            rw [← hnext, hother.next hph.steady]
            exact ho.tail
        refine Ensures.bind (keeps_decoded hread) ?_ fun _ _ _ h => h.elim
        intro ms
        refine Ensures.pure fun hms => ?_
        refine Ensures.bind (ih hread.collecting hoffer) ?_ fun _ _ _ h => h.elim
        rintro ms' w past ⟨ph₂, hms', hat⟩
        exact ⟨ph₂, hms.append hms', hat⟩
    · exact ih hph ho.tail

theorem keeps_claimStaleMessage (consumer : String) (minIdle count : ℕ) (hph : ph.AtRest) :
    (logic worker p id f).Ensures p (At worker p id ph) (claimStaleMessage consumer minIdle count)
      (returns fun ms w past => ∃ ph', Fetched id f ph ph' ms ∧ At worker p id ph' w past) := by
  have hsteady := hph.collecting.steady
  have hother : Elsewhere id (Op.xpending count) := trivial
  unfold claimStaleMessage
  refine Ensures.bind (m := returns fun pending w past =>
    Offered id ph pending ∧ At worker p id ph w past) ?_ ?_ fun _ _ _ h => h.elim
  · refine (keeps_step (J := Offered id ph) (Or.inl (by trivial)) (hother.lawful hsteady) ?_).mono ?_
    · rintro flt w past pending w' hI hat ⟨hpending, -⟩ -
      have hdel : (w.group.deliveries id) = ph.deliveries := by
        rw [hI.agrees.deliveries, hat]
      have hsub : ((pending.filter fun x => x.1 = id).map fun x => x.2.2).Sublist ph.deliveries := by
        rw [← hdel, Except.ok.inj hpending, List.filter_map, List.map_map]
        exact ((List.take_sublist _ _).filter _).map _
      cases ph <;> first | exact hsub | exact hph.elim
    · intro r w past h
      cases r with
      | ok a => exact ⟨h.1, h.2.trans (hother.next hsteady)⟩
      | error e => exact h
  · intro pending
    exact Ensures.pure fun ho => keeps_claimEntries consumer minIdle pending hph.collecting ho

/-- The entries that XREADGROUP answers. -/
theorem Inv.read_xreadgroup {consumer : String} {count : ℕ} {es : List (StreamId × Fields)}
    {maxRetries : ℤ} (h : Inv maxRetries p id f w past) (hph : phase maxRetries id p past = ph)
    (hrest : ph.AtRest) (hx : (Op.xreadgroup consumer count).run p w (.ok es) w') :
    Read id f (fun fields => fields.attempts.getD 0) ph
      (ph.next maxRetries id (Op.xreadgroup consumer count) (.ok es)) es := by
  obtain rfl : es = w.group.unread w.main count := Except.ok.inj hx.1
  have htyped : ∀ e ∈ w.group.unread w.main count, Typed e.2.loads :=
    fun e he => (h.written e (Group.mem_of_mem_unread he)).typed
  have hfilter := h.unread_filter count
  by_cases hex : ∃ e ∈ w.group.unread w.main count, e.1 = id
  · rw [if_pos hex] at hfilter
    obtain ⟨e, he, hid⟩ := hex
    have hmem : (id, f) ∈ w.main.entries := h.mem_of_mem (Group.mem_of_mem_unread he) hid ▸
      Group.mem_of_mem_unread he
    have hunread : ph = .unread :=
      hph ▸ h.agrees.read.mpr (hid ▸ Group.lt_of_mem_unread he)
    subst hunread
    have hnext : Phase.next maxRetries id .unread (Op.xreadgroup consumer count)
        (.ok (w.group.unread w.main count)) = .inHand 0 := if_pos ⟨e, he, hid⟩
    have hzero : f.attempts = some 0 := (h.written _ hmem).attempts
    rw [hnext]
    exact ⟨trivial, by rw [hfilter]; simp [Phase.todo, hzero], htyped⟩
  · rw [if_neg hex] at hfilter
    have hnext : ph.next maxRetries id (Op.xreadgroup consumer count)
        (.ok (w.group.unread w.main count)) = ph := by
      cases ph with
      | unread => exact if_neg hex
      | idle k => rfl
      | gone k => rfl
      | _ => exact hrest.elim
    rw [hnext]
    exact ⟨hrest.collecting, by rw [hfilter]; simp, htyped⟩

theorem keeps_readMessages (consumer : String) (count : ℕ) (hph : ph.AtRest) :
    (logic worker p id f).Ensures p (At worker p id ph) (readMessages consumer count)
      (returns fun ms w past => ∃ ph', Fetched id f ph ph' ms ∧ At worker p id ph' w past) := by
  unfold readMessages
  refine Ensures.bind (keeps_step (J := fun es => Read id f (fun fields => fields.attempts.getD 0) ph
    (ph.next worker.maxRetries id (Op.xreadgroup consumer count) (.ok es)) es)
    (Or.inl (by trivial)) ?_ ?_) ?_ fun _ _ _ h => h.elim
  · cases ph with
    | unread => exact Or.inr ⟨_, _, rfl⟩
    | idle k => exact Or.inr (Or.inl ⟨_, _, rfl⟩)
    | gone k => exact Or.inr ⟨_, _, rfl⟩
    | _ => exact hph.elim
  · exact fun flt w past es w' hI hat hx _ => hI.read_xreadgroup hat hph hx
  · intro es
    refine Ensures.pure fun hread => (keeps_decoded hread).mono ?_
    intro r w past h
    cases r with
    | ok ms => exact ⟨_, h⟩
    | error e => exact h

/-! ## Processing -/

theorem typed_get {d : Json} (h : Typed d) (key : String) : ∃ v, d.get key = .ok v := by
  obtain ⟨kvs, rfl, -⟩ := h
  exact ⟨_, rfl⟩

theorem typed_getHandler (worker : Worker) {d : Json} (h : Typed d) : ∃ v, worker.getHandler d = .ok v := by
  obtain ⟨kvs, rfl, hk | ⟨s, hk⟩⟩ := h
  · exact ⟨worker.defaultHandler, by simp [Worker.getHandler, Json.get, hk]⟩
  · by_cases hs : s = ""
    · exact ⟨worker.defaultHandler, by simp [Worker.getHandler, Json.get, hk, hs, Json.truthy]⟩
    · exact ⟨(worker.handlers.lookup s).or worker.defaultHandler,
        by simp [Worker.getHandler, Json.get, hk, hs, Json.truthy]⟩

/-- A handler always comes back to the worker. -/
theorem keeps_handlerResult {h : Handler} {m : Message} (hph : ph.Steady)
    (hh : (h m).All Apart fun _ => True) :
    (logic worker p id f).Ensures p (At worker p id ph) (handlerResult h m)
      (returns fun _ => At worker p id ph) := by
  have hrun : (logic worker p id f).Ensures p (At worker p id ph) (h m)
      fun _ => At worker p id ph := Ensures.all (fun op ho => keeps_apart ho hph) hh
  unfold handlerResult
  refine Ensures.tryCatch (m := fun _ => At worker p id ph) ?_ (fun _ _ _ h => h)
    fun _ _ _ h => h
  exact Ensures.bind hrun (fun _ _ _ h => h) fun _ _ _ h => h

theorem keeps_acknowledge {i : StreamId} (hph : ph.Steady) (hi : i ≠ id) :
    (logic worker p id f).Ensures p (At worker p id ph) (acknowledge i)
      (returns fun _ => At worker p id ph) :=
  Ensures.bind (keeps_elsewhere (Or.inl trivial) hi hph) (fun _ _ _ h => h) fun _ _ _ h => h.elim

theorem keeps_moveToDeadLetter {m : Message} (hph : ph.Steady) (hm : m.id ≠ id) :
    (logic worker p id f).Ensures p (At worker p id ph) (moveToDeadLetter m)
      (returns fun _ => At worker p id ph) := by
  unfold moveToDeadLetter
  refine Ensures.bind (keeps_elsewhere (Or.inr (Or.inl rfl)) trivial hph) ?_ fun _ _ _ h => h.elim
  intro now
  have ho : Elsewhere id (Op.xaddDead { Fields.none with
      data := some m.data, originalId := some m.id, attempts := some m.attempts,
      failedAt := some now }) := fun h => hm (Option.some.inj h)
  exact Ensures.bind (keeps_elsewhere (Or.inl trivial) ho hph) (fun _ _ _ h => h) fun _ _ _ h => h.elim

/-- Another message leaves the phase as it is. -/
theorem keeps_other {m : Message} (hW : HandlersApart worker) (hph : ph.Steady) (hm : m.id ≠ id)
    (ht : Typed m.data) :
    (logic worker p id f).Ensures p (At worker p id ph) (worker.processOne m)
      (returns fun _ => At worker p id ph) := by
  obtain ⟨amount, hamount⟩ := typed_get ht "amount"
  obtain ⟨traceId, htrace⟩ := typed_get ht "trace_id"
  obtain ⟨handler, hhandler⟩ := typed_getHandler worker ht
  have hdead : (logic worker p id f).Ensures p (At worker p id ph)
      (do moveToDeadLetter m; acknowledge m.id) (returns fun _ => At worker p id ph) :=
    Ensures.bind (keeps_moveToDeadLetter hph hm) (fun _ => keeps_acknowledge hph hm)
      fun _ _ _ h => h.elim
  have hprocess : (logic worker p id f).Ensures p (At worker p id ph) (worker.processMessage m)
      (returns fun _ => At worker p id ph) := by
    unfold Worker.processMessage
    rw [htrace, Prog.ofExcept_ok, Prog.ret_bind]
    refine Ensures.bind (keeps_elsewhere (Or.inr (Or.inr ⟨_, rfl⟩)) hm hph) ?_ fun _ _ _ h => h.elim
    intro _
    rw [hhandler, Prog.ofExcept_ok, Prog.ret_bind]
    cases handler with
    | none => exact fun _ _ h => h
    | some h =>
      refine Ensures.bind (keeps_handlerResult hph (hW _ _ m hhandler)) ?_ fun _ _ _ h => h.elim
      intro ok
      exact Ensures.bind (keeps_elsewhere (Or.inr (Or.inr ⟨_, rfl⟩)) hm hph) (fun _ _ _ h => h)
        fun _ _ _ h => h.elim
  unfold Worker.processOne
  rw [hamount, Prog.ofExcept_ok, Prog.ret_bind]
  split_ifs
  · exact hdead
  · refine Ensures.bind hprocess ?_ fun _ _ _ h => h.elim
    intro ok
    split_ifs
    · exact keeps_acknowledge hph hm
    · unfold Worker.handleFailure
      rw [htrace, Prog.ofExcept_ok, Prog.ret_bind]
      split_ifs
      · exact Ensures.tryCatch hdead (fun _ _ _ h => h) fun _ => Ensures.absurd fun _ _ h => h
      · exact fun _ _ h => h

/-- The message has an amount and a handler. -/
structure Handled (worker : Worker) (f : Fields) : Prop where
  typed : Typed f.loads
  amount : ∃ v, f.loads.get "amount" = .ok v ∧ v.truthy = true
  handler : ∃ h, worker.getHandler f.loads = .ok (some h)

/-- The message at rest. -/
def Resting (worker : Worker) (p : Pid) (id : StreamId) : Facts :=
  fun _ past => (phase worker.maxRetries id p past).AtRest

variable (ph) in
theorem At.resting (h : ph.AtRest) {w : World} {past : List Event} (hat : At worker p id ph w past) :
    Resting worker p id w past := by
  show (phase worker.maxRetries id p past).AtRest
  rwa [show phase worker.maxRetries id p past = ph from hat]

/-- The last failure leads to the dead-letter stream. -/
theorem keeps_lastFailure {m : Message} {k : ℕ} (hid : m.id = id) (hk : m.attempts = k) :
    (logic worker p id f).Ensures p (At worker p id (.failed k))
      (do moveToDeadLetter m; acknowledge m.id) (returns fun _ => Resting worker p id) := by
  refine Ensures.bind (m := returns fun _ => At worker p id (.copied k)) ?_ ?_ fun _ _ _ h => h.elim
  · unfold moveToDeadLetter
    refine Ensures.bind (keeps_move (.failed k) (Or.inr (Or.inl rfl)) rfl) ?_ fun _ _ _ h => h.elim
    intro now
    refine Ensures.bind (keeps_move (.stamped k) (Or.inl trivial)
      ⟨_, rfl, congrArg some hid, congrArg some hk⟩) ?_ fun _ _ _ h => h.elim
    exact fun _ _ _ h => h
  · intro _
    refine Ensures.bind (keeps_move (.copied k) (Or.inl trivial) (by rw [hid]; rfl)) ?_
      fun _ _ _ h => h.elim
    exact fun _ w _ h => At.resting (.gone k) trivial (w := w) h

/-- The message itself is handed to its handler, and then waits or goes to the dead letters. -/
theorem keeps_target {m : Message} {k : ℕ} (hW : HandlersApart worker) (hf : Handled worker f)
    (hid : m.id = id) (hd : m.data = f.loads) (hk : m.attempts = k) :
    (logic worker p id f).Ensures p (At worker p id (.inHand k)) (worker.processOne m)
      (returns fun _ => Resting worker p id) := by
  obtain ⟨amount, hamount, htruthy⟩ := hf.amount
  obtain ⟨h, hhandler⟩ := hf.handler
  obtain ⟨traceId, htrace⟩ := typed_get hf.typed "trace_id"
  rw [← hd] at hamount hhandler htrace
  -- the phase after a failure
  have hprocess : (logic worker p id f).Ensures p (At worker p id (.inHand k))
      (worker.processMessage m) (returns fun ok w past => ok = false ∧
        At worker p id (if worker.maxRetries ≤ k then .failed k else .idle (k + 1)) w past) := by
    unfold Worker.processMessage
    rw [htrace, Prog.ofExcept_ok, Prog.ret_bind]
    refine Ensures.bind (keeps_move (.inHand k) (Or.inr (Or.inr ⟨_, rfl⟩)) (Or.inr (by rw [hid])))
      ?_ fun _ _ _ h => h.elim
    intro _
    simp only [returns]
    rw [show Phase.next worker.maxRetries id (.inHand k) (Op.note (.started m.id)) (.ok _) =
      .handling k from if_pos hid]
    rw [hhandler, Prog.ofExcept_ok, Prog.ret_bind]
    refine Ensures.bind (keeps_handlerResult trivial (hW _ _ m hhandler)) ?_ fun _ _ _ h => h.elim
    intro ok
    refine Ensures.bind (keeps_step (J := fun _ => ok = false) (Or.inr (Or.inr ⟨_, rfl⟩))
      (Or.inr ⟨ok, by rw [hid]⟩) ?_) ?_ fun _ _ _ h => h.elim
    · intro flt w past _ w' _ _ _ hc
      cases ok with
      | false => rfl
      | true => exact absurd (by rw [hid]) hc.2.2
    · rintro _ w past ⟨hok, hat⟩
      refine ⟨hok, ?_⟩
      rwa [show Phase.next worker.maxRetries id (.handling k) (Op.note (.handled m.id ok)) (.ok _) =
        if worker.maxRetries ≤ k then .failed k else .idle (k + 1) from if_pos hid] at hat
  unfold Worker.processOne
  rw [hamount, Prog.ofExcept_ok, Prog.ret_bind, if_neg (by rw [htruthy]; simp)]
  refine Ensures.bind hprocess ?_ fun _ _ _ h => h.elim
  intro ok
  refine Ensures.pure ?_
  rintro rfl
  simp only [Bool.false_eq_true, if_false]
  unfold Worker.handleFailure
  rw [htrace, Prog.ofExcept_ok, Prog.ret_bind, hk]
  split_ifs
  · exact Ensures.tryCatch (keeps_lastFailure hid hk) (fun _ _ _ h => h)
      fun _ => Ensures.absurd fun _ _ h => h
  · exact fun _ _ h => At.resting (.idle (k + 1)) trivial h

theorem keeps_resting {β : Type} {x : App β} {post : Except Exc β → Facts}
    (h : ∀ ph : Phase, ph.AtRest → (logic worker p id f).Ensures p (At worker p id ph) x post) :
    (logic worker p id f).Ensures p (Resting worker p id) x post := by
  refine Ensures.pre (K := fun w past => ∃ ph : Phase, ph.AtRest ∧ At worker p id ph w past) ?_ ?_
  · exact Ensures.exists fun ph => Ensures.pure fun hrest => h ph hrest
  · exact fun w past hrest => ⟨_, hrest, rfl⟩

/-- The messages are what the worker has left to do. -/
structure InHands (f : Fields) (id : StreamId) (ph : Phase) (ms : List Message) : Prop where
  collecting : ph.Collecting
  todo : ph.todo f = targets id ms
  typed : ∀ m ∈ ms, Typed m.data

/-- The loop over fetched messages leaves the message at rest. -/
theorem keeps_messages {ms : List Message} (hW : HandlersApart worker) (hf : Handled worker f)
    (h : InHands f id ph ms) :
    (logic worker p id f).Ensures p (At worker p id ph) (Prog.forEach worker.processOne ms)
      (returns fun _ => Resting worker p id) := by
  induction ms generalizing ph with
  | nil =>
    intro w past hat
    refine At.resting _ ?_ hat
    have htodo := h.todo
    cases ph with
    | inHand k => simp [Phase.todo, targets] at htodo
    | _ => exact h.collecting
  | cons m ms ih =>
    have htail : ∀ m' ∈ ms, Typed m'.data := fun m' hm' => h.typed m' (List.mem_cons_of_mem _ hm')
    have htodo := h.todo
    by_cases hid : m.id = id
    · have htargets : targets id (m :: ms) = (m.data, m.attempts) :: targets id ms := by
        simp [targets, hid]
      rw [htargets] at htodo
      cases ph with
      | inHand k =>
        simp only [Phase.todo, List.cons.injEq, Prod.mk.injEq] at htodo
        obtain ⟨⟨hd, hk⟩, hnil⟩ := htodo
        refine Ensures.bind (keeps_target hW hf hid hd.symm hk.symm) ?_ fun _ _ _ h => h.elim
        refine fun _ => keeps_resting fun ph' hrest => ih ⟨hrest.collecting, ?_, htail⟩
        cases ph' <;> first | exact hnil | exact hrest.elim
      | _ => simp [Phase.todo] at htodo
    · have htargets : targets id (m :: ms) = targets id ms := by simp [targets, hid]
      rw [htargets] at htodo
      refine Ensures.bind (keeps_other hW h.collecting.steady hid (h.typed m List.mem_cons_self)) ?_
        fun _ _ _ h => h.elim
      exact fun _ => ih ⟨h.collecting, htodo, htail⟩

/-- Messages fetched from rest are all the worker has to do. -/
theorem keeps_fetched {x : App (List Message)}
    (hx : ∀ ph : Phase, ph.AtRest → (logic worker p id f).Ensures p (At worker p id ph) x
      (returns fun ms w past => ∃ ph', Fetched id f ph ph' ms ∧ At worker p id ph' w past)) :
    (logic worker p id f).Ensures p (Resting worker p id) x
      (returns fun ms w past => ∃ ph', InHands f id ph' ms ∧ At worker p id ph' w past) := by
  refine keeps_resting fun ph hrest => (hx ph hrest).mono ?_
  intro r w past h
  cases r with
  | ok ms =>
    obtain ⟨ph', hms, hat⟩ := h
    refine ⟨ph', ⟨hms.collecting, ?_, hms.typed⟩, hat⟩
    have htodo := hms.todo
    cases ph <;> first | exact hrest.elim | simpa [Phase.todo] using htodo
  | error e => exact h

theorem keeps_processBatch (hW : HandlersApart worker) (hf : Handled worker f) :
    (logic worker p id f).Ensures p (Resting worker p id) worker.processBatch
      (returns fun _ => Resting worker p id) := by
  unfold Worker.processBatch
  refine Ensures.bind (keeps_fetched fun ph hph => keeps_claimStaleMessage _ _ _ hph) ?_
    fun _ _ _ h => h.elim
  intro stale
  refine Ensures.bind (Ensures.exists fun ph => Ensures.pure fun hms => keeps_messages hW hf hms) ?_
    fun _ _ _ h => h.elim
  intro _
  refine Ensures.bind (keeps_fetched fun ph hph => keeps_readMessages _ _ hph) ?_
    fun _ _ _ h => h.elim
  exact fun messages => Ensures.exists fun ph => Ensures.pure fun hms => keeps_messages hW hf hms

theorem keeps_turn (hW : HandlersApart worker) (hf : Handled worker f) :
    (logic worker p id f).Ensures p (Resting worker p id) worker.turn
      (returns fun _ => Resting worker p id) := by
  unfold Worker.turn
  refine Ensures.tryCatch (m := returns fun _ => Resting worker p id) ?_ (fun _ _ _ h => h)
    fun _ => Ensures.absurd fun _ _ h => h
  exact Ensures.bind (keeps_processBatch hW hf) (fun _ _ _ h => h) fun _ _ _ h => h.elim

theorem keeps_turns (hW : HandlersApart worker) (hf : Handled worker f) (n : ℕ) :
    (logic worker p id f).Ensures p (Resting worker p id) (turns worker n)
      (returns fun _ => Resting worker p id) := by
  induction n with
  | zero => exact fun _ _ h => h
  | succ n ih => exact Ensures.bind (keeps_turn hW hf) (fun _ => ih) fun _ _ _ h => h.elim

/-! ## Runs -/

theorem sound (hW : HandlersApart worker) (hf : Handled worker f) (h0 : 0 ≤ worker.maxRetries) :
    (logic worker p id f).Sound where
  prog q n w past w' _ _ := by
    by_cases hq : q = p
    · subst hq
      refine Ensures.mono (Ensures.pre (keeps_turns hW hf n) ?_) ?_
      · rintro w past ⟨hstart, -⟩
        exact At.resting .unread trivial (hstart rfl)
      · intro r w past h _
        cases r with
        | ok _ => exact h
        | error e => exact h.elim
    · exact (Ensures.ofAll (all_true _) fun op w past _ _ hqp => absurd hqp hq).mono
        fun r w past _ hqp => absurd hqp hq
  start q w past a w' _ _ _ hp h := by
    rintro rfl
    exact (track_other hp).trans (h rfl)
  begin w past q n h := by
    rintro rfl
    exact track_spawn.trans (h rfl)
  spawn w past q n h hc := by
    have hph : phase worker.maxRetries id p (past ++ [.spawn q n]) = phase worker.maxRetries id p past :=
      track_spawn
    exact h.advance rfl h.cursor hph h.agrees rfl rfl
  run flt w past q op r w' h hg hx hc := by
    obtain rfl : q = p := by simpa [Act.pid] using hc.1.1
    exact h.run h0 (hg rfl) hx hc.1
  crash w past q h hc := hc.1.2.elim
  outer w past x h hc := h.outer hc.1 hc.2

/-- An entry that is in the stream was in it before, or was still to come. -/
theorem coming_xadd (fs : Fields) (now : ℕ) (h : Coming id f { w with main := w.main.xadd now fs }) :
    Coming id f w := by
  rcases h with h | h
  · exact Or.inl ((lt_nextId _ _).trans h)
  · rcases Stream.mem_xadd.mp h with h | h
    · exact Or.inr h
    · have hid : id = nextId w.main.last now := congrArg Prod.fst h
      exact Or.inl (hid ▸ lt_nextId _ _)

theorem coming_step {c c' : Consumer} {a : Event} (hs : Step (consumer worker) c a c')
    (h : Coming id f c'.world) : Coming id f c.world := by
  have hxadd : ∀ fs now, c'.world.main = c.world.main.xadd now fs → Coming id f c.world := by
    intro fs now hm
    refine coming_xadd fs now ?_
    unfold Coming at h ⊢
    rwa [hm] at h
  have hsame : c'.world.main = c.world.main → Coming id f c.world := by
    intro hm
    unfold Coming at h ⊢
    rwa [hm] at h
  cases hs with
  | spawn _ => exact h
  | @run q flt op k r w' _ hx =>
    rcases exec_effect hx with ⟨r₀, heff⟩ | hw
    · cases op with
      | xadd fs => exact hxadd fs _ heff.main
      | moveDead fs x => exact hxadd fs _ heff.main
      | _ => exact hsame heff.main
    · exact hsame (congrArg World.main hw)
  | crash _ => exact h
  | @outer x =>
    cases x with
    | enqueue fs => exact hxadd fs _ rfl
    | replay fs y => exact hxadd fs _ rfl
    | trim n =>
      rcases h with h | h
      · exact Or.inl h
      · exact Or.inr (List.mem_of_mem_drop h)
    | _ => exact h

/-- The group did not come to the message yet. -/
structure Unread (id : StreamId) (w : World) : Prop where
  cursor : w.group.cursor ≤ w.main.last
  ahead : w.group.cursor < id
  undelivered : ∀ x ∈ w.group.pel, x.id ≠ id
  uncopied : ∀ e ∈ w.dead.entries, e.2.originalId ≠ some id

theorem Inv.init {maxRetries : ℤ} (hw : ∀ e ∈ w.main.entries, Written e.2) (hu : Unread id w)
    (hc : Coming id f w) : Inv maxRetries p id f w [] where
  written := hw
  coming := hc
  cursor := hu.cursor
  agrees := by
    refine ⟨⟨fun _ => hu.ahead, fun _ => rfl⟩, ?_, ?_, trivial⟩
    · have hnil : (w.group.pel.filter fun x => x.id = id) = [] :=
        List.filter_eq_nil_iff.mpr fun x hx => by simpa using hu.undelivered x hx
      unfold Group.deliveries
      rw [hnil]
      rfl
    · have hnil : (w.dead.entries.filter fun e => e.2.originalId = some id) = [] :=
        List.filter_eq_nil_iff.mpr fun e he => by simpa using hu.uncopied e he
      unfold copies
      rw [hnil]
      rfl
  hands := rfl
  fails := rfl

/-- A run of the worker alone. -/
abbrev Runs (worker : Worker) (p : Pid) (id : StreamId) : Consumer → List Event → Consumer → Prop :=
  Lts.Run (Lts.restrict (Step (consumer worker)) fun c a _ => Cond p id c.world a)

/-- What is known after a run. -/
theorem holds_run {w₀ : World} {tr : List Event} {c : Consumer} (hW : HandlersApart worker)
    (hf : Handled worker f) (h0 : 0 ≤ worker.maxRetries) (hw : ∀ e ∈ w₀.main.entries, Written e.2)
    (hu : Unread id w₀) (hr : Runs worker p id (.init w₀) tr c) (hc : Coming id f c.world) :
    (logic worker p id f).Holds c ∧ ∀ q, c.thread q ≠ .crashed := by
  obtain ⟨hc₀, hrun⟩ := hr.backward (fun c => Coming id f c.world) hc
    fun c a c' hs h => coming_step hs.1 h
  have hinit : (logic worker p id f).Holds (.init w₀) :=
    Holds.init (Inv.init hw hu hc₀) fun _ _ => rfl
  refine (sound hW hf h0).derive (P := fun _ _ _ => True) (J := fun c => ∀ q, c.thread q ≠ .crashed)
    (hrun.mono fun c a c' h => ⟨h.1.1, ⟨h.1.2, h.2⟩, trivial⟩) hinit (by simp [Config.init]) ?_
  intro c a c' _ hcr hs hg _ q hq
  rcases hs.crashed hq with h | rfl
  · exact hcr q h
  · exact hg.1.1.2

/-- The operations of the worker are executions of the handler, and what it does in between. -/
theorem handles_messages {w₀ : World} {tr : List Event} {c : Consumer} (hW : HandlersApart worker)
    (hf : Handled worker f) (h0 : 0 ≤ worker.maxRetries) (hw : ∀ e ∈ w₀.main.entries, Written e.2)
    (hu : Unread id w₀) (hr : Runs worker p id (.init w₀) tr c) (hc : Coming id f c.world) :
    Handles worker id f (handed id tr) (failures id tr) (callsOf p tr) := by
  obtain ⟨hc₀, hrun⟩ := hr.backward (fun c => Coming id f c.world) hc
    fun c a c' hs h => coming_step hs.1 h
  have hinit : (logic worker p id f).Holds (.init w₀) :=
    Holds.init (Inv.init hw hu hc₀) fun _ _ => rfl
  obtain ⟨-, hall⟩ := hrun.along (fun c => (logic worker p id f).Holds c) hinit
    fun c a c' hH hs => ((sound hW hf h0).step hs.1.1 ⟨hs.1.2, hs.2⟩ hH).2
  obtain ⟨h, hh⟩ := hf.handler
  refine handles_run hW hh (hall.mono fun c a c' hs => ⟨hs.1.1.1, hs.1.1.2.1, fun e he hid => ?_⟩)
  exact congrArg Prod.snd (hs.2.inv.mem_of_mem he hid)

/-- From its last failure on, the message is dead-lettered in three operations. -/
theorem phase_failed {k : ℕ} (h : phase worker.maxRetries id p past = .failed k) (post : List Event) :
    phase worker.maxRetries id p (past ++ post) =
      match (callsOf p post).length with
      | 0 => .failed k
      | 1 => .stamped k
      | 2 => .copied k
      | _ => .gone k := by
  have hgone : ∀ cs : List (Σ op : Op, Except Exc op.Ret),
      cs.foldl (fun s c => Phase.next worker.maxRetries id s c.1 c.2) (.gone k) = .gone k := by
    intro cs
    induction cs with
    | nil => rfl
    | cons c cs ih => exact ih
  unfold phase at h ⊢
  rw [track_append, h, track_eq_calls]
  match callsOf p post with
  | [] => rfl
  | [_] => rfl
  | [_, _] => rfl
  | _ :: _ :: _ :: cs => exact hgone cs

/-- The message is still to be read, or pending. -/
def Waiting (id : StreamId) (handed : ℕ) (w : World) : Prop :=
  (handed = 0 ∧ w.group.cursor < id) ∨ ∃ x ∈ w.group.pel, x.id = id

theorem pending_of_deliveries {n : ℕ} (h : w.group.deliveries id = [n]) :
    ∃ x ∈ w.group.pel, x.id = id := by
  have hne : (w.group.pel.filter fun x => x.id = id) ≠ [] := by
    intro hnil
    unfold Group.deliveries at h
    rw [hnil] at h
    exact absurd h (by simp)
  obtain ⟨x, hx⟩ := List.exists_mem_of_ne_nil _ hne
  exact ⟨x, (List.mem_filter.mp hx).1, by simpa using (List.mem_filter.mp hx).2⟩

theorem Inv.handed_le {maxRetries : ℤ} (h : Inv maxRetries p id f w past) (h0 : 0 ≤ maxRetries) :
    handed id past ≤ maxRetries + 1 := by
  have hwithin := h.agrees.within
  rw [h.hands]
  generalize phase maxRetries id p past = ph at hwithin
  cases ph <;> simp only [Phase.Within, Phase.handed] at hwithin ⊢ <;> omega

theorem Inv.waiting {maxRetries : ℤ} (h : Inv maxRetries p id f w past)
    (hle : handed id past ≤ maxRetries) :
    Waiting id (handed id past) w ∧ copies w id = [] := by
  have ha := h.agrees
  have hwithin := ha.within
  rw [h.hands] at hle ⊢
  generalize phase maxRetries id p past = ph at ha hwithin hle ⊢
  cases ph with
  | unread => exact ⟨Or.inl ⟨rfl, ha.read.mp rfl⟩, ha.copies⟩
  | idle k => exact ⟨Or.inr (pending_of_deliveries ha.deliveries), ha.copies⟩
  | inHand k => exact ⟨Or.inr (pending_of_deliveries ha.deliveries), ha.copies⟩
  | handling k => exact ⟨Or.inr (pending_of_deliveries ha.deliveries), ha.copies⟩
  | _ =>
    simp only [Phase.Within, Phase.handed] at hwithin hle
    omega

/-- A message that is gone was dead-lettered once and acknowledged. -/
theorem Inv.gone {maxRetries : ℤ} {k : ℕ} (h : Inv maxRetries p id f w past)
    (hph : phase maxRetries id p past = .gone k) :
    copies w id = [some maxRetries] ∧ ∀ x ∈ w.group.pel, x.id ≠ id := by
  have ha := h.agrees
  rw [hph] at ha
  have hk : (k : ℤ) = maxRetries := ha.within
  refine ⟨by rw [ha.copies, ← hk]; rfl, fun x hx hid => ?_⟩
  have hmem : x.timesDelivered ∈ w.group.deliveries id :=
    List.mem_map_of_mem (List.mem_filter.mpr ⟨hx, by simpa using hid⟩)
  rw [ha.deliveries] at hmem
  exact absurd hmem (by simp [Phase.deliveries])

/-- A worker on its way to the dead-letter stream does not stop. -/
theorem progress {c : Consumer} (h : (logic worker p id f).Holds c) (hc : c.thread p ≠ .crashed)
    (hph : ¬ (phase worker.maxRetries id p c.past).Steady) :
    ∃ a c', Step (consumer worker) c a c' ∧ a.Clean ∧ a.pid = some p := by
  have hrest : ¬ (phase worker.maxRetries id p c.past).AtRest := fun hr => hph hr.collecting.steady
  cases ht : c.thread p with
  | fresh =>
    refine absurd ?_ hrest
    rw [h.fresh p ht rfl]
    trivial
  | crashed => exact absurd ht hc
  | live x =>
    cases x with
    | ret a => exact absurd (h.final ht rfl) hrest
    | raise e => exact absurd (h.final_error ht rfl) hrest
    | call op k =>
      obtain ⟨K, hK, -, J, -, hg, -⟩ := h.live p _ ht
      have hlaw := hg _ _ h.inv hK rfl
      have hrun : ∃ r w', exec .done p op c.world r w' := by
        generalize phase worker.maxRetries id p c.past = ph at hph hlaw
        cases ph with
        | failed n =>
          obtain rfl : op = Op.now := hlaw
          exact ⟨_, _, rfl, rfl⟩
        | stamped n =>
          obtain ⟨fs, rfl, -⟩ := hlaw
          exact ⟨_, _, rfl, rfl⟩
        | copied n =>
          obtain rfl : op = Op.xack id := hlaw
          exact ⟨_, _, rfl, rfl⟩
        | _ => exact absurd trivial hph
      obtain ⟨r, w', hx⟩ := hrun
      exact ⟨_, _, Step.run ht hx, rfl, rfl⟩

/-- The failure after `max_retries` others. -/
theorem phase_lastFailure {w₀ : World} {before after : List Event} {c : Consumer} {flt : Fault}
    {r : Except Exc Unit} (hW : HandlersApart worker) (hf : Handled worker f)
    (h0 : 0 ≤ worker.maxRetries) (hw : ∀ e ∈ w₀.main.entries, Written e.2) (hu : Unread id w₀)
    (hr : Runs worker p id (.init w₀) (before ++ .run p flt (Op.note (.handled id false)) r :: after) c)
    (hc : Coming id f c.world) (hcount : failures id before = worker.maxRetries) :
    ∃ k : ℕ, phase worker.maxRetries id p (before ++ [.run p flt (Op.note (.handled id false)) r]) =
      .failed k := by
  obtain ⟨c₁, h₁, h₂⟩ := hr.split
  obtain ⟨c₂, hs, h₃⟩ := h₂.uncons
  have hback : ∀ c a c', Lts.restrict (Step (consumer worker)) (fun c a _ => Cond p id c.world a) c a c' →
      Coming id f c'.world → Coming id f c.world := fun c a c' hs h => coming_step hs.1 h
  have hc₂ : Coming id f c₂.world := (h₃.backward (fun c => Coming id f c.world) hc hback).1
  have hc₁ : Coming id f c₁.world := coming_step hs.1 hc₂
  obtain ⟨hH, -⟩ := holds_run hW hf h0 hw hu h₁ hc₁
  have hpast : c₁.past = before := by rw [run_past h₁.of_restrict]; rfl
  have hlaw : Lawful id (phase worker.maxRetries id p c₁.past) (Op.note (.handled id false)) :=
    ((sound hW hf h0).step hs.1 ⟨hs.2, hc₂⟩ hH).1.2 p flt _ r rfl rfl
  have hfails := hH.inv.fails
  have hwithin := hH.inv.agrees.within
  rw [hpast] at hlaw hfails hwithin
  have hnot : ¬ Elsewhere id (Op.note (.handled id false)) := fun ho => ho rfl
  rw [phase_own]
  generalize phase worker.maxRetries id p before = ph at hlaw hfails hwithin
  cases ph with
  | handling k =>
    have hk : worker.maxRetries ≤ k := by
      rw [← hcount, hfails]
      rfl
    exact ⟨k, by simp [Phase.next, hk]⟩
  | unread => simp [Lawful, hnot] at hlaw
  | idle k => simp [Lawful, hnot] at hlaw
  | inHand k => simp [Lawful, hnot] at hlaw
  | gone k => simp [Lawful, hnot] at hlaw
  | failed k => simp [Lawful] at hlaw
  | stamped k => simp [Lawful] at hlaw
  | copied k => simp [Lawful] at hlaw

end Programs

/-- **Bounded handling before dead-lettering.**  In a run of a single worker, without crashes and with
Redis up, whatever else is written to the stream: a message that the handler always fails on is handed
to it at most `max_retries + 1` times; as long as it was handed fewer times it waits and has no
dead-letter entry; and three operations after the last failure, which nothing holds up, it has exactly
one dead-letter entry, with `attempts = max_retries`, and is acknowledged.  A hand-over is an execution
of the handler, and a failure one that ended without success: `Handles` finds them all among the
operations of the worker. -/
theorem bounded_handling {worker : Worker} {p : Pid} {id : StreamId} {f : Fields} {w₀ : World}
    {tr : List Event} {c : Consumer} (hW : HandlersApart worker) (h0 : 0 ≤ worker.maxRetries)
    (hf : Handled worker f) (hw : ∀ e ∈ w₀.main.entries, Written e.2) (hu : Unread id w₀)
    (hr : Runs worker p id (.init w₀) tr c) (hin : (id, f) ∈ c.world.main.entries) :
    Handles worker id f (handed id tr) (failures id tr) (callsOf p tr) ∧
      handed id tr ≤ worker.maxRetries + 1 ∧
      (handed id tr ≤ worker.maxRetries →
        Waiting id (handed id tr) c.world ∧ copies c.world id = []) ∧
      ∀ before after flt r, tr = before ++ .run p flt (Op.note (.handled id false)) r :: after →
        failures id before = worker.maxRetries →
          (3 ≤ (callsOf p after).length → copies c.world id = [some worker.maxRetries] ∧
              ∀ x ∈ c.world.group.pel, x.id ≠ id) ∧
            ((callsOf p after).length < 3 →
              ∃ a c', Step (consumer worker) c a c' ∧ a.Clean ∧ a.pid = some p) := by
  obtain ⟨hH, hcrash⟩ := holds_run hW hf h0 hw hu hr (Or.inr hin)
  have hpast : c.past = tr := by rw [run_past hr.of_restrict]; rfl
  have hinv := hH.inv
  rw [hpast] at hinv
  refine ⟨handles_messages hW hf h0 hw hu hr (Or.inr hin), hinv.handed_le h0, hinv.waiting, ?_⟩
  rintro before after flt r rfl hcount
  obtain ⟨k, hk⟩ := phase_lastFailure hW hf h0 hw hu hr (Or.inr hin) hcount
  have hph := phase_failed hk after
  rw [← List.append_cons] at hph
  constructor
  · intro hlen
    refine hinv.gone (k := k) (hph.trans ?_)
    match (callsOf p after).length, hlen with
    | _ + 3, _ => rfl
  · intro hlen
    refine progress hH (hcrash p) ?_
    rw [hpast, hph]
    match (callsOf p after).length, hlen with
    | 0, _ => exact fun h => h
    | 1, _ => exact fun h => h
    | 2, _ => exact fun h => h

/-- The handler of the service leaves the streams alone. -/
theorem handlersApart_payment (workerId : String) (n : ℤ) :
    HandlersApart { paymentWorker workerId with maxRetries := n } := by
  intro d h m hd
  have hd' : (paymentWorker workerId).getHandler d = .ok (some h) := hd
  obtain rfl := paymentWorker_getHandler hd'
  refine all_seq ((all_handlePayment m).mono (fun op ho => ?_) fun _ h => h) fun _ => trivial
  cases op <;> first | exact ho.elim | trivial

/-! ## A message handed over twice -/

/-- A payment without the id of its transaction: its handler fails. -/
def orphan : Fields := { Fields.none with
  data := some (.obj [("amount", .int 1500001), ("type", .str "payment")])
  createdAt := some 0
  attempts := some 0 }

/-- A payment without an amount. -/
def blank : Fields := { Fields.none with
  data := some (.obj [("type", .str "payment")]), createdAt := some 0, attempts := some 0 }

def orphaned : World := { World.empty with main := (Stream.empty.xadd 0 orphan).xadd 0 blank }

def impatient : Worker := { paymentWorker "worker-1" with maxRetries := 1 }

/-- The outcome of the operations that such messages lead to. -/
def attempt (p : Pid) : (op : Op) → World → Option (Except Exc op.Ret × World)
  | .xaddDead fs, w =>
    some (.ok (nextId w.dead.last w.clock), { w with dead := w.dead.xadd w.clock fs })
  | .xreadgroup consumer count, w =>
    some (.ok (w.group.unread w.main count),
      { w with group := w.group.deliver consumer w.clock (w.group.unread w.main count) })
  | .xpending count, w =>
    some (.ok ((w.group.pel.take count).map fun x => (x.id, w.clock - x.deliveredAt,
      x.timesDelivered)), w)
  | .xclaim consumer minIdle i, w =>
    if w.group.claimable w.clock minIdle i then
      some (.ok (w.main.xrange i i), { w with group := w.group.claim consumer w.clock i })
    else none
  | .xack i, w =>
    some (.ok (w.group.pel.filter fun x => x.id = i).length, { w with group := w.group.xack i })
  | .rollback, w => some (.ok (), w.rollback p)
  | .now, w => some (.ok w.clock, w)
  | .note _, w => some (.ok (), w)
  | _, _ => none

theorem attempt_run {p : Pid} {op : Op} {w w' : World} {r : Except Exc op.Ret}
    (h : attempt p op w = some (r, w')) : op.run p w r w' := by
  cases op with
  | xclaim consumer minIdle i =>
    simp only [attempt] at h
    split_ifs at h with hc
    obtain ⟨rfl, rfl⟩ := Prod.mk.inj (Option.some.inj h)
    exact (if_pos hc).mpr ⟨rfl, rfl⟩
  | xaddDead _ | xreadgroup _ _ | xpending _ | xack _ | rollback | now | note _ =>
    obtain ⟨rfl, rfl⟩ := Prod.mk.inj (Option.some.inj h)
    exact ⟨rfl, rfl⟩
  | _ => cases h

def player : Player (consumer impatient) := ⟨attempt, fun _ _ _ _ _ => attempt_run⟩

/-- A step that `Cond` allows in any state, and that appends nothing to the stream. -/
def allowed : Event → Bool
  | .spawn p _ => p = 0
  | .run p _ (.note (.handled _ ok)) _ => p = 0 ∧ ok = false
  | .run _ _ (.xadd _) _ | .run _ _ (.moveDead _ _) _ => false
  | .run p _ _ _ => p = 0
  | .outer (.tick _) => true
  | _ => false

theorem cond_of_allowed {id : StreamId} {w : World} {a : Event} (h : allowed a = true) (hc : a.Clean) :
    Cond 0 id w a := by
  cases a with
  | spawn p n => exact ⟨Or.inr (congrArg some (by simpa [allowed] using h)), trivial⟩
  | run p flt op r =>
    have hp : p = 0 ∧ op ≠ Op.note (.handled id true) := by
      cases op with
      | note x =>
        cases x with
        | started i => exact ⟨by simpa [allowed] using h, by simp⟩
        | handled i ok =>
          obtain ⟨rfl, rfl⟩ : p = 0 ∧ ok = false := by simpa [allowed] using h
          exact ⟨rfl, by simp⟩
      | xadd fs => cases h
      | moveDead fs x => cases h
      | _ => exact ⟨by simpa [allowed] using h, by simp⟩
    exact ⟨Or.inr (congrArg some hp.1), fun _ => hc, hp.2⟩
  | crash p => cases h
  | outer x =>
    cases x with
    | tick d => exact ⟨Or.inl rfl, trivial⟩
    | _ => cases h

theorem main_of_allowed {c c' : Consumer} {a : Event} (hs : Step (consumer impatient) c a c')
    (h : allowed a = true) : c'.world.main = c.world.main := by
  cases hs with
  | spawn _ => rfl
  | @run q flt op k r w' _ hx =>
    rcases exec_effect hx with ⟨r₀, heff⟩ | hw
    · cases op with
      | xadd fs => cases h
      | moveDead fs x => cases h
      | _ => exact heff.main
    · exact congrArg World.main hw
  | crash _ => rfl
  | @outer x =>
    cases x with
    | tick d => rfl
    | _ => cases h

/-- Two turns of the worker, six seconds apart. -/
def twoTurns : List (Interleave.Move ℕ Feed) := [.spawn 0 2, .go 0 10, .outer (.tick 6000), .go 0 10]

/-- The last failure is step 17; the worker goes on with the clock, `XADD`, `XACK` and `XREADGROUP`. -/
def lastFailure (past : List Event) : Bool :=
  past.all allowed && match past.drop 17 with
    | .run 0 _ (.note (.handled i false)) _ :: after =>
      i = toLex (0, 1) ∧ (callsOf 0 after).length = 4 ∧ failures (toLex (0, 1)) (past.take 17) = 1 ∧
        handed (toLex (0, 1)) past = 2 ∧ failures (toLex (0, 1)) past = 2
    | _ => false

/-- The message is read, fails, is claimed after six seconds with the delivery count 1, and fails again,
while the entry beside it goes to the dead letters at once. -/
theorem bounded_handling_sample : ∃ (tr before after : List Event) (c : Consumer) (id : StreamId)
    (flt : Fault) (r : Except Exc Unit), Runs impatient 0 id (.init orphaned) tr c ∧
      tr = before ++ .run 0 flt (Op.note (.handled id false)) r :: after ∧
      handed id tr = 2 ∧ Handles impatient id orphan 2 2 (callsOf 0 tr) ∧
      copies c.world id = [some 1] ∧ ∀ x ∈ c.world.group.pel, x.id ≠ id := by
  have hplay : (player.play twoTurns (.init orphaned)).any (fun c => lastFailure c.past) = true := by
    decide +kernel
  obtain ⟨tr, c, hr, htest⟩ := Player.play_test _ _ _ _ hplay
  have hpast : c.past = tr := run_past hr.of_restrict
  rw [hpast] at htest
  simp only [lastFailure, Bool.and_eq_true] at htest
  obtain ⟨hall, hlast⟩ := htest
  split at hlast
  · next flt i r after hdrop =>
    simp only [decide_eq_true_eq] at hlast
    obtain ⟨rfl, hlen, hbefore, hhanded, hfails⟩ := hlast
    have htr : tr = tr.take 17 ++ .run 0 flt (Op.note (.handled (toLex (0, 1)) false)) r :: after := by
      rw [← hdrop, List.take_append_drop]
    have hlabelled := hr.labelled (List.all_eq_true.mp hall)
    have hmain : c.world.main = orphaned.main :=
      hlabelled.inv (fun c => c.world.main = orphaned.main) rfl
        fun c a c' h hs => (main_of_allowed hs.1.1 hs.2).trans h
    have hrun : Runs impatient 0 (toLex (0, 1)) (.init orphaned) tr c :=
      hlabelled.mono fun c a c' hs => ⟨hs.1.1, cond_of_allowed hs.2 hs.1.2⟩
    have hhandled : Handled impatient orphan :=
      ⟨⟨_, rfl, Or.inr ⟨_, rfl⟩⟩, ⟨_, rfl, rfl⟩, ⟨dependenciesHandler, rfl⟩⟩
    have hwritten : ∀ e ∈ orphaned.main.entries, Written e.2 := by
      intro e he
      rcases List.mem_cons.mp he with rfl | he
      · exact ⟨rfl, hhandled.typed⟩
      · obtain rfl := List.mem_singleton.mp he
        exact ⟨rfl, _, rfl, Or.inr ⟨_, rfl⟩⟩
    have hunread : Unread (toLex (0, 1)) orphaned :=
      ⟨by decide, by decide, by simp [orphaned, World.empty, Group.init],
        by simp [orphaned, World.empty, Stream.empty]⟩
    have hin : (toLex (0, 1), orphan) ∈ c.world.main.entries := by
      rw [hmain]
      exact List.mem_cons_self
    obtain ⟨hexec, -, -, hend⟩ := bounded_handling (handlersApart_payment "worker-1" 1) (by decide)
      hhandled hwritten hunread hrun hin
    obtain ⟨hcopies, hacked⟩ := (hend _ _ _ _ htr (by rw [hbefore]; rfl)).1 (by omega)
    rw [hhanded, hfails] at hexec
    exact ⟨tr, _, after, c, _, flt, r, hrun, htr, hhanded, hexec, hcopies, hacked⟩
  · exact absurd hlast (by simp)

end Lifecycle

end PaymentRecon
