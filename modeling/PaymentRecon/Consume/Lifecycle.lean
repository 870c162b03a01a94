import PaymentRecon.Model.Ordinary
import PaymentRecon.Tables.Effects

/-!
# Lifecycle — the life of one message between its first read and its dead-letter copy

A single worker with any handlers reads the stream while the rest of the service does what it likes
with the clock, the tables and the sets, appends entries, and trims the stream.  `Phase` is what the
worker is doing with one message; it is read off the operations of the worker.  The attempt counter
comes from two sources, the field `attempts` on the first read and the delivery count before `XCLAIM`
on every later one: `Agrees` ties both to the phase.
-/

namespace PaymentRecon

open Interleave Streams Rely

namespace Lifecycle

/-! ## A worker by itself -/

/-- What happens outside the worker.  `XADD` with `MAXLEN` is an `enqueue` and a `trim`; `purge` drops
pending entries that were trimmed, as `XCLAIM` does with them. -/
inductive Feed
  | tick (d : ℕ)
  | enqueue (f : Fields)
  | replay (f : Fields) (x : StreamId)
  | trim (n : ℕ)
  | purge
  | others (v : World)

def feed (w : World) : Feed → World
  | .tick d => { w with clock := w.clock + d }
  | .enqueue f => { w with main := w.main.xadd w.clock f }
  | .replay f x => { w with main := w.main.xadd w.clock f, dead := w.dead.xdel x }
  | .trim n => { w with main := w.main.trim n }
  | .purge => { w with group := w.group.purge w.main }
  | .others v => { w with sets := v.sets, db := v.db, txn := v.txn }

/-- `_run` for `n` turns of its loop. -/
def turns (worker : Worker) : ℕ → App Unit
  | 0 => pure ()
  | n + 1 => do
    let _ ← worker.turn
    turns worker n

@[reducible] def consumer (worker : Worker) : Machine sig Exc Unit World ℕ Feed where
  prog := turns worker
  exec := exec
  abort := fun p w => w.rollback p
  outer := fun x w => feed w x

abbrev Event := Act sig Exc ℕ Feed

abbrev Consumer := Config sig Exc Unit World ℕ Feed

/-- A type that can be looked up among the handlers: none, or a string. -/
def Typed (d : Json) : Prop :=
  ∃ kvs, d = .obj kvs ∧ (kvs.lookup "type" = none ∨ ∃ s, kvs.lookup "type" = some (.str s))

/-- What `enqueue` and `replay_message` write. -/
structure Written (f : Fields) : Prop where
  attempts : f.attempts = some 0
  typed : Typed f.loads

/-- An operation of a handler: it leaves the streams alone. -/
def Apart : Op → Prop
  | .xadd _ | .xaddDead _ | .xreadgroup _ _ | .xpending _ | .xclaim _ _ _ | .xack _ | .xrangeDead _
  | .moveDead _ _ | .note _ => False
  | _ => True

def HandlersApart (worker : Worker) : Prop :=
  ∀ d h m, worker.getHandler d = .ok (some h) → (h m).All Apart fun _ => True

/-! ## Counting -/

/-- How often the worker began to process the message. -/
def handed (id : StreamId) (past : List Event) : ℕ :=
  past.countP fun a =>
    match a with
    | .run _ _ (.note (.started i)) _ => i = id
    | _ => false

/-- How often its handler failed. -/
def failures (id : StreamId) (past : List Event) : ℕ :=
  past.countP fun a =>
    match a with
    | .run _ _ (.note (.handled i ok)) _ => i = id ∧ ok = false
    | _ => false

/-- The `attempts` of the dead-letter copies of the message. -/
def copies (w : World) (id : StreamId) : List (Option ℤ) :=
  (w.dead.entries.filter fun e => e.2.originalId = some id).map fun e => e.2.attempts

/-! ## Phases -/

/-- The number is that of the failures so far. -/
inductive Phase
  | unread
  | idle (k : ℕ)
  | inHand (k : ℕ)
  | handling (k : ℕ)
  | failed (k : ℕ)
  | stamped (k : ℕ)
  | copied (k : ℕ)
  | gone (k : ℕ)

section Next

variable (maxRetries : ℤ) (id : StreamId)

/-- The phase after one more operation of the worker. -/
def Phase.next : Phase → (op : Op) → Except Exc op.Ret → Phase
  | .unread, .xreadgroup _ _, .ok es => if ∃ e ∈ es, e.1 = id then .inHand 0 else .unread
  | .idle k, .xclaim _ _ i, .ok es => if i = id ∧ es ≠ [] then .inHand k else .idle k
  | .inHand k, .note (.started i), _ => if i = id then .handling k else .inHand k
  | .handling k, .note (.handled i _), _ =>
    if i = id then if maxRetries ≤ k then .failed k else .idle (k + 1) else .handling k
  | .failed k, _, _ => .stamped k
  | .stamped k, _, _ => .copied k
  | .copied k, _, _ => .gone k
  | ph, _, _ => ph

def phase (p : Pid) (past : List Event) : Phase :=
  track (Phase.next maxRetries id) .unread p past

end Next

namespace Phase

/-- The number of times the message was handed to its handler. -/
def handed : Phase → ℕ
  | unread => 0
  | idle k => k
  | inHand k => k
  | handling k => k + 1
  | failed k => k + 1
  | stamped k => k + 1
  | copied k => k + 1
  | gone k => k + 1

def failures : Phase → ℕ
  | unread => 0
  | idle k => k
  | inHand k => k
  | handling k => k
  | failed k => k + 1
  | stamped k => k + 1
  | copied k => k + 1
  | gone k => k + 1

/-- The delivery counts of the message in the pending list. -/
def deliveries : Phase → List ℕ
  | unread => []
  | idle k => [k]
  | inHand k => [k + 1]
  | handling k => [k + 1]
  | failed k => [k + 1]
  | stamped k => [k + 1]
  | copied k => [k + 1]
  | gone _ => []

def copies : Phase → List (Option ℤ)
  | copied k => [some k]
  | gone k => [some k]
  | _ => []

/-- Where the number stands with respect to `max_retries`. -/
def Within (maxRetries : ℤ) : Phase → Prop
  | unread => True
  | idle k => 1 ≤ k ∧ k ≤ maxRetries
  | inHand k => k ≤ maxRetries
  | handling k => k ≤ maxRetries
  | failed k => k = maxRetries
  | stamped k => k = maxRetries
  | copied k => k = maxRetries
  | gone k => k = maxRetries

/-- The worker holds nothing of the message. -/
def AtRest : Phase → Prop
  | unread => True
  | idle _ => True
  | gone _ => True
  | _ => False

/-- The worker may be collecting messages. -/
def Collecting : Phase → Prop
  | inHand _ => True
  | ph => ph.AtRest

theorem AtRest.collecting {ph : Phase} (h : ph.AtRest) : ph.Collecting := by
  cases ph <;> trivial

/-- The worker is not on its way to the dead-letter stream with the message. -/
def Steady : Phase → Prop
  | failed _ => False
  | stamped _ => False
  | copied _ => False
  | _ => True

theorem Collecting.steady {ph : Phase} (h : ph.Collecting) : ph.Steady := by
  cases ph <;> trivial

end Phase

/-- An operation that does nothing with the message `id`. -/
def Elsewhere (id : StreamId) : Op → Prop
  | .xack i => i ≠ id
  | .xclaim _ _ i => i ≠ id
  | .xaddDead f => f.originalId ≠ some id
  | .note (.started i) => i ≠ id
  | .note (.handled i _) => i ≠ id
  | .xreadgroup _ _ | .xadd _ | .moveDead _ _ => False
  | _ => True

theorem Apart.elsewhere {id : StreamId} {op : Op} (h : Apart op) : Elsewhere id op := by
  cases op <;> first | exact h.elim | trivial

/-- What the worker may do in a phase. -/
def Lawful (id : StreamId) : Phase → Op → Prop
  | .unread, op => Elsewhere id op ∨ ∃ c n, op = Op.xreadgroup c n
  | .idle _, op => Elsewhere id op ∨ (∃ c n, op = Op.xreadgroup c n) ∨ ∃ c m, op = Op.xclaim c m id
  | .inHand _, op => Elsewhere id op ∨ op = Op.note (.started id)
  | .handling _, op => Elsewhere id op ∨ ∃ ok, op = Op.note (.handled id ok)
  | .failed _, op => op = Op.now
  | .stamped k, op => ∃ f, op = Op.xaddDead f ∧ f.originalId = some id ∧ f.attempts = some (k : ℤ)
  | .copied _, op => op = Op.xack id
  | .gone _, op => Elsewhere id op ∨ ∃ c n, op = Op.xreadgroup c n

section Steps

variable {maxRetries : ℤ} {p : Pid} {id : StreamId} {f : Fields} {w w' : World} {past : List Event}
  {ph : Phase} {op : Op} {flt : Fault}

theorem Elsewhere.lawful (h : Elsewhere id op) (hs : ph.Steady) : Lawful id ph op := by
  cases ph <;> first | exact hs.elim | exact Or.inl h

/-- The phase does not change. -/
theorem Elsewhere.next {r : Except Exc op.Ret} (h : Elsewhere id op) (hs : ph.Steady) :
    ph.next maxRetries id op r = ph := by
  cases ph with
  | unread => cases op <;> first | exact h.elim | rfl
  | idle k =>
    cases op with
    | xclaim c m i =>
      cases r with
      | ok es => exact if_neg fun hi => h hi.1
      | error e => rfl
    | _ => rfl
  | inHand k =>
    cases op with
    | note n =>
      cases n with
      | started i => exact if_neg h
      | handled i ok => rfl
    | _ => rfl
  | handling k =>
    cases op with
    | note n =>
      cases n with
      | started i => rfl
      | handled i ok => exact if_neg h
    | _ => rfl
  | failed k => exact hs.elim
  | stamped k => exact hs.elim
  | copied k => exact hs.elim
  | gone k => rfl

/-! ## The invariant -/

/-- The entry `(id, f)` is in the stream, or its id is still to come. -/
def Coming (id : StreamId) (f : Fields) (w : World) : Prop :=
  w.main.last < id ∨ (id, f) ∈ w.main.entries

/-- What the streams hold of the message in each phase. -/
structure Agrees (maxRetries : ℤ) (id : StreamId) (ph : Phase) (w : World) : Prop where
  read : ph = .unread ↔ w.group.cursor < id
  deliveries : w.group.deliveries id = ph.deliveries
  copies : copies w id = ph.copies
  within : ph.Within maxRetries

structure Inv (maxRetries : ℤ) (p : Pid) (id : StreamId) (f : Fields) (w : World)
    (past : List Event) : Prop where
  written : ∀ e ∈ w.main.entries, Written e.2
  coming : Coming id f w
  cursor : w.group.cursor ≤ w.main.last
  agrees : Agrees maxRetries id (phase maxRetries id p past) w
  hands : handed id past = (phase maxRetries id p past).handed
  fails : failures id past = (phase maxRetries id p past).failures

/-- A run of the single worker `p` in which Redis does not fail, the streams hold what `enqueue` and
`replay_message` write, and the handler of the message fails. -/
def Cond (p : Pid) (id : StreamId) (w : World) (a : Event) : Prop :=
  (a.pid = none ∨ a.pid = some p) ∧
    match a with
    | .spawn _ _ => True
    | .run _ flt op _ => (op.OnRedis → flt = .done) ∧ op ≠ Op.note (.handled id true)
    | .crash _ => False
    | .outer (.enqueue f) => Written f
    | .outer (.replay f x) => Written f ∧ ∀ e ∈ w.dead.entries, e.1 = x → e.2.originalId ≠ some id
    | .outer _ => True

/-- What an operation elsewhere leaves as it is. -/
structure Framed (id : StreamId) (w w' : World) : Prop where
  main : w'.main = w.main
  cursor : w'.group.cursor = w.group.cursor
  deliveries : w'.group.deliveries id = w.group.deliveries id
  copies : copies w' id = copies w id

theorem Framed.refl : Framed id w w := ⟨rfl, rfl, rfl, rfl⟩

theorem Framed.agrees (h : Framed id w w') (ha : Agrees maxRetries id ph w) :
    Agrees maxRetries id ph w' :=
  ⟨by rw [h.cursor]; exact ha.read, h.deliveries.trans ha.deliveries, h.copies.trans ha.copies,
    ha.within⟩

theorem copies_xaddDead {fs : Fields} {now : ℕ} :
    copies { w with dead := w.dead.xadd now fs } id =
      copies w id ++ if fs.originalId = some id then [fs.attempts] else [] := by
  simp only [copies, Stream.xadd, List.filter_append, List.map_append]
  congr 1
  split_ifs with h <;> simp [h]

theorem copies_xdel {x : StreamId} (h : ∀ e ∈ w.dead.entries, e.1 = x → e.2.originalId ≠ some id) :
    copies { w with dead := w.dead.xdel x } id = copies w id := by
  simp only [copies, Stream.xdel, List.filter_filter]
  congr 1
  refine List.filter_congr fun e he => ?_
  by_cases hx : e.1 = x
  · simp [h e he hx]
  · simp [hx]

theorem framed_of_run {r : Except Exc op.Ret} (h : op.run p w r w') (ho : Elsewhere id op) :
    Framed id w w' := by
  have heff := run_effect h
  have hcopies : copies w' id = copies { w with dead := op.deadAfter w } id := by
    simp only [copies, heff.dead]
  refine ⟨heff.main.trans ?_, heff.group ▸ ?_, heff.group ▸ ?_, hcopies.trans ?_⟩
  · cases op <;> first | exact ho.elim | rfl
  · cases op with
    | xreadgroup _ _ => exact ho.elim
    | xclaim c m i =>
      simp only [Op.groupAfter]
      split_ifs <;> rfl
    | _ => rfl
  · cases op with
    | xreadgroup _ _ => exact ho.elim
    | xclaim c m i =>
      simp only [Op.groupAfter]
      split_ifs
      · exact Group.deliveries_claim ho
      · rfl
    | xack i => exact Group.deliveries_xack ho
    | _ => rfl
  · cases op with
    | xaddDead fs => rw [Op.deadAfter, copies_xaddDead, if_neg ho, List.append_nil]
    | moveDead _ _ => exact ho.elim
    | _ => rfl

theorem framed_of_exec {r : Except Exc op.Ret} (h : exec flt p op w r w') (ho : Elsewhere id op) :
    Framed id w w' := by
  rcases exec_cases h with h | ⟨rfl, -⟩ | ⟨-, r₀, h, -⟩
  · exact framed_of_run h ho
  · exact Framed.refl
  · exact framed_of_run h ho

/-- An operation that cannot fail while Redis is up. -/
def Sure (op : Op) : Prop := op.OnRedis ∨ op = Op.now ∨ ∃ n, op = Op.note n

theorem run_of_sure {r : Except Exc op.Ret} (hx : exec flt p op w r w')
    (hc : Cond p id w (.run p flt op r)) (hs : Sure op) : op.run p w r w' := by
  cases flt with
  | done => exact hx
  | failed =>
    obtain ⟨-, e, he, -⟩ := hx
    rcases hs with h | rfl | ⟨n, rfl⟩
    · exact absurd (hc.2.1 h) (by simp)
    · exact he.elim
    · exact he.elim
  | lost =>
    obtain ⟨-, -, e, he, -⟩ := hx
    rcases hs with h | rfl | ⟨n, rfl⟩
    · exact absurd (hc.2.1 h) (by simp)
    · exact he.elim
    · exact he.elim

theorem Elsewhere.uncounted {r : Except Exc op.Ret} (h : Elsewhere id op) :
    handed id [.run p flt op r] = 0 ∧ failures id [.run p flt op r] = 0 := by
  cases op with
  | note n =>
    cases n with
    | started i =>
      have hi : i ≠ id := h
      simp [handed, failures, hi]
    | handled i ok =>
      have hi : i ≠ id := h
      simp [handed, failures, hi]
  | _ => exact ⟨rfl, rfl⟩

theorem phase_own {r : Except Exc op.Ret} : phase maxRetries id p (past ++ [.run p flt op r]) =
    (phase maxRetries id p past).next maxRetries id op r := track_own

/-- The invariant after a step that leads to the phase `ph`. -/
theorem Inv.advance {a : Event} (h : Inv maxRetries p id f w past) (hm : w'.main = w.main)
    (hcur : w'.group.cursor ≤ w'.main.last) (hph : phase maxRetries id p (past ++ [a]) = ph)
    (ha : Agrees maxRetries id ph w')
    (hh : ph.handed = (phase maxRetries id p past).handed + handed id [a])
    (hf : ph.failures = (phase maxRetries id p past).failures + failures id [a]) :
    Inv maxRetries p id f w' (past ++ [a]) := by
  refine ⟨?_, ?_, hcur, hph ▸ ha, ?_, ?_⟩
  · rw [hm]
    exact h.written
  · unfold Coming
    rw [hm]
    exact h.coming
  · rw [hph, hh, ← h.hands]
    exact List.countP_append
  · rw [hph, hf, ← h.fails]
    exact List.countP_append

/-- A message that was read is in the stream. -/
theorem Inv.mem (h : Inv maxRetries p id f w past) (hread : ¬ w.group.cursor < id) :
    (id, f) ∈ w.main.entries :=
  h.coming.resolve_left fun hl => hread (lt_of_le_of_lt h.cursor hl)

theorem Inv.mem_of_mem (h : Inv maxRetries p id f w past) {e : StreamId × Fields}
    (he : e ∈ w.main.entries) (hid : e.1 = id) : e = (id, f) := by
  have hmem : (id, f) ∈ w.main.entries :=
    h.coming.resolve_left (not_lt_of_ge (hid ▸ w.main.le_last e he))
  exact Stream.eq_of_id he hmem hid

/-- The entries read at once that have the id of the message. -/
theorem Inv.unread_filter (h : Inv maxRetries p id f w past) (count : ℕ) :
    ((w.group.unread w.main count).filter fun e => e.1 = id) =
      if ∃ e ∈ w.group.unread w.main count, e.1 = id then [(id, f)] else [] := by
  split_ifs with hex
  · obtain ⟨e, he, hid⟩ := hex
    have hmem : e ∈ w.main.entries := Group.mem_of_mem_unread he
    obtain rfl := h.mem_of_mem hmem hid
    have hsub : ((w.group.unread w.main count).filter fun e => e.1 = id).Sublist [(id, f)] := by
      rw [← Stream.filter_id hmem]
      exact ((List.take_sublist _ _).trans List.filter_sublist).filter _
    rcases List.sublist_cons_iff.mp hsub with hnil | ⟨l, hl, hnil⟩
    · have hin : (id, f) ∈ (w.group.unread w.main count).filter fun e => e.1 = id :=
        List.mem_filter.mpr ⟨he, by simp⟩
      rw [List.sublist_nil.mp hnil] at hin
      exact absurd hin (by simp)
    · rw [hl, List.sublist_nil.mp hnil]
  · refine List.filter_eq_nil_iff.mpr fun e he hid => hex ⟨e, he, by simpa using hid⟩

/-- Reading keeps the agreement. -/
theorem Inv.agrees_read (h : Inv maxRetries p id f w past) (h0 : 0 ≤ maxRetries) {consumer : String}
    {count : ℕ} {r : Except Exc (List (StreamId × Fields))}
    (hrest : (phase maxRetries id p past).AtRest) (hx : (Op.xreadgroup consumer count).run p w r w') :
    Agrees maxRetries id ((phase maxRetries id p past).next maxRetries id
      (Op.xreadgroup consumer count) r) w' := by
  obtain ⟨rfl, rfl⟩ := hx
  have ha := h.agrees
  have hfilter := h.unread_filter count
  generalize hph : phase maxRetries id p past = ph at ha hrest ⊢
  by_cases hnew : w.group.cursor < id
  · obtain rfl := ha.read.mpr hnew
    by_cases hex : ∃ e ∈ w.group.unread w.main count, e.1 = id
    · rw [if_pos hex] at hfilter
      have hnext : Phase.next maxRetries id .unread (Op.xreadgroup consumer count)
          (.ok (w.group.unread w.main count)) = .inHand 0 := if_pos hex
      rw [hnext]
      obtain ⟨e, he, hid⟩ := hex
      refine ⟨⟨fun hc => by simp at hc, fun hc => absurd hc ?_⟩, ?_, ha.copies, h0⟩
      · exact not_lt_of_ge (hid ▸ Group.le_deliver_cursor he)
      · show (w.group.deliver _ _ _).deliveries id = _
        rw [Group.deliveries_deliver, hfilter, ha.deliveries]
        rfl
    · rw [if_neg hex] at hfilter
      have hnext : Phase.next maxRetries id .unread (Op.xreadgroup consumer count)
          (.ok (w.group.unread w.main count)) = .unread := if_neg hex
      rw [hnext]
      refine ⟨⟨fun _ => ?_, fun _ => rfl⟩, ?_, ha.copies, trivial⟩
      · rcases h.coming with hl | hmem
        · exact lt_of_le_of_lt (Group.deliver_cursor_le h.cursor) hl
        · exact Group.deliver_cursor_lt hmem hnew fun he => hex ⟨_, he, rfl⟩
      · show (w.group.deliver _ _ _).deliveries id = _
        rw [Group.deliveries_deliver, hfilter, ha.deliveries]
        rfl
  · have hne : ph ≠ .unread := fun hu => hnew (ha.read.mp hu)
    have hnext : ph.next maxRetries id (Op.xreadgroup consumer count)
        (.ok (w.group.unread w.main count)) = ph := by
      cases ph <;> first | exact absurd rfl hne | exact hrest.elim | rfl
    have hex : ¬ ∃ e ∈ w.group.unread w.main count, e.1 = id := by
      rintro ⟨e, he, rfl⟩
      exact hnew (Group.lt_of_mem_unread he)
    rw [if_neg hex] at hfilter
    rw [hnext]
    refine ⟨⟨fun hu => absurd hu hne, fun hc => absurd ?_ hnew⟩, ?_, ha.copies, ha.within⟩
    · exact lt_of_le_of_lt Group.cursor_le_deliver hc
    · show (w.group.deliver _ _ _).deliveries id = _
      rw [Group.deliveries_deliver, hfilter, ha.deliveries, List.map_nil, List.append_nil]

/-- Claiming the message keeps the agreement. -/
theorem Inv.agrees_claim (h : Inv maxRetries p id f w past) {consumer : String} {minIdle k : ℕ}
    {r : Except Exc (List (StreamId × Fields))} (hph : phase maxRetries id p past = .idle k)
    (hx : (Op.xclaim consumer minIdle id).run p w r w') :
    Agrees maxRetries id (Phase.next maxRetries id (.idle k) (Op.xclaim consumer minIdle id) r) w' := by
  have ha := h.agrees
  rw [hph] at ha
  have hread : ¬ w.group.cursor < id := fun hc => by simpa using ha.read.mpr hc
  simp only [Op.run] at hx
  split_ifs at hx
  · obtain ⟨rfl, rfl⟩ := hx
    have hentries : w.main.xrange id id = [(id, f)] := by
      rw [Stream.xrange_self]
      exact Stream.filter_id (h.mem hread)
    rw [hentries]
    have hnext : Phase.next maxRetries id (.idle k) (Op.xclaim consumer minIdle id) (.ok [(id, f)]) =
        .inHand k := if_pos ⟨rfl, by simp⟩
    rw [hnext]
    refine ⟨⟨fun hc => by simp at hc, fun hc => absurd hc hread⟩, ?_, ha.copies, ha.within.2⟩
    show (w.group.claim _ _ _).deliveries id = _
    rw [Group.deliveries_claim_self, ha.deliveries]
    rfl
  · obtain ⟨rfl, rfl⟩ := hx
    have hnext : Phase.next maxRetries id (.idle k) (Op.xclaim consumer minIdle id) (.ok []) =
        .idle k := if_neg fun hc => hc.2 rfl
    rw [hnext]
    exact ha

/-- An operation elsewhere keeps the invariant. -/
theorem Inv.elsewhere {r : Except Exc op.Ret} (h : Inv maxRetries p id f w past)
    (ho : Elsewhere id op) (hs : (phase maxRetries id p past).Steady) (hx : exec flt p op w r w') :
    Inv maxRetries p id f w' (past ++ [.run p flt op r]) := by
  have hfr : Framed id w w' := framed_of_exec hx ho
  have hcount : handed id [.run p flt op r] = 0 ∧ failures id [.run p flt op r] = 0 := ho.uncounted
  refine h.advance hfr.main ?_ (phase_own.trans (ho.next hs)) (hfr.agrees h.agrees) ?_ ?_
  · rw [hfr.cursor, hfr.main]
    exact h.cursor
  · rw [hcount.1, Nat.add_zero]
  · rw [hcount.2, Nat.add_zero]

/-- Reading keeps the invariant while the worker holds nothing of the message. -/
theorem Inv.read {c : String} {n : ℕ} {r : Except Exc (List (StreamId × Fields))}
    (h : Inv maxRetries p id f w past) (h0 : 0 ≤ maxRetries)
    (hrest : (phase maxRetries id p past).AtRest) (hx : exec flt p (Op.xreadgroup c n) w r w')
    (hc : Cond p id w (.run p flt (Op.xreadgroup c n) r)) :
    Inv maxRetries p id f w' (past ++ [.run p flt (Op.xreadgroup c n) r]) := by
  have hrun := run_of_sure hx hc (Or.inl trivial)
  have hw : w' = { w with group := w.group.deliver c w.clock (w.group.unread w.main n) } := hrun.2
  have hnext : (phase maxRetries id p past).next maxRetries id (Op.xreadgroup c n) r =
      phase maxRetries id p past ∨ phase maxRetries id p past = .unread ∧
      (phase maxRetries id p past).next maxRetries id (Op.xreadgroup c n) r = .inHand 0 := by
    generalize phase maxRetries id p past = ph at hrest
    cases ph with
    | unread =>
      by_cases hex : ∃ e ∈ w.group.unread w.main n, e.1 = id
      · exact Or.inr ⟨rfl, by rw [hrun.1]; exact if_pos hex⟩
      · exact Or.inl (by rw [hrun.1]; exact if_neg hex)
    | idle k => exact Or.inl rfl
    | gone k => exact Or.inl rfl
    | _ => exact hrest.elim
  refine h.advance (by rw [hw]) ?_ phase_own (h.agrees_read h0 hrest hrun) ?_ ?_
  · rw [hw]
    exact Group.deliver_cursor_le h.cursor
  · rcases hnext with hn | ⟨hu, hn⟩
    · rw [hn]
      rfl
    · rw [hn, hu]
      rfl
  · rcases hnext with hn | ⟨hu, hn⟩
    · rw [hn]
      rfl
    · rw [hn, hu]
      rfl

/-- Claiming the message keeps the invariant. -/
theorem Inv.claim {c : String} {m k : ℕ} {r : Except Exc (List (StreamId × Fields))}
    (h : Inv maxRetries p id f w past) (hph : phase maxRetries id p past = .idle k)
    (hx : exec flt p (Op.xclaim c m id) w r w')
    (hc : Cond p id w (.run p flt (Op.xclaim c m id) r)) :
    Inv maxRetries p id f w' (past ++ [.run p flt (Op.xclaim c m id) r]) := by
  have hrun := run_of_sure hx hc (Or.inl trivial)
  have heff := run_effect hrun
  have hm : w'.main = w.main := heff.main
  have hcur : w'.group.cursor = w.group.cursor := by
    rw [heff.group]
    simp only [Op.groupAfter]
    split_ifs <;> rfl
  have hown : phase maxRetries id p (past ++ [.run p flt (Op.xclaim c m id) r]) =
      Phase.next maxRetries id (.idle k) (Op.xclaim c m id) r := by
    rw [← hph]
    exact phase_own
  have hnext : Phase.next maxRetries id (.idle k) (Op.xclaim c m id) r = .inHand k ∨
      Phase.next maxRetries id (.idle k) (Op.xclaim c m id) r = .idle k := by
    cases r with
    | ok es =>
      simp only [Phase.next]
      split_ifs
      · exact Or.inl rfl
      · exact Or.inr rfl
    | error e => exact Or.inr rfl
  refine h.advance hm (by rw [hcur, hm]; exact h.cursor) hown (h.agrees_claim hph hrun) ?_ ?_
  · rw [hph]
    rcases hnext with hn | hn <;> rw [hn] <;> rfl
  · rw [hph]
    rcases hnext with hn | hn <;> rw [hn] <;> rfl

/-- **Step lemma** for the operations of the worker. -/
theorem Inv.run {r : Except Exc op.Ret} (h : Inv maxRetries p id f w past) (h0 : 0 ≤ maxRetries)
    (hg : Lawful id (phase maxRetries id p past) op) (hx : exec flt p op w r w')
    (hc : Cond p id w (.run p flt op r)) : Inv maxRetries p id f w' (past ++ [.run p flt op r]) := by
  have ha := h.agrees
  have hown : phase maxRetries id p (past ++ [.run p flt op r]) =
      (phase maxRetries id p past).next maxRetries id op r := phase_own
  cases hph : phase maxRetries id p past with
  | unread =>
    rw [hph] at hg
    rcases hg with ho | ⟨c, n, rfl⟩
    · exact h.elsewhere ho (by rw [hph]; trivial) hx
    · exact h.read h0 (by rw [hph]; trivial) hx hc
  | gone k =>
    rw [hph] at hg
    rcases hg with ho | ⟨c, n, rfl⟩
    · exact h.elsewhere ho (by rw [hph]; trivial) hx
    · exact h.read h0 (by rw [hph]; trivial) hx hc
  | idle k =>
    rw [hph] at hg
    rcases hg with ho | ⟨c, n, rfl⟩ | ⟨c, m, rfl⟩
    · exact h.elsewhere ho (by rw [hph]; trivial) hx
    · exact h.read h0 (by rw [hph]; trivial) hx hc
    · exact h.claim hph hx hc
  | inHand k =>
    rw [hph] at hg
    rcases hg with ho | rfl
    · exact h.elsewhere ho (by rw [hph]; trivial) hx
    · obtain ⟨-, rfl⟩ : r = .ok () ∧ w' = w := run_of_sure hx hc (Or.inr (Or.inr ⟨_, rfl⟩))
      rw [hph] at ha hown
      have hnext : Phase.next maxRetries id (.inHand k) (Op.note (.started id)) r = .handling k :=
        if_pos rfl
      refine h.advance rfl h.cursor (hown.trans hnext) ⟨⟨fun hu => by simp at hu, fun hu => ?_⟩,
        ha.deliveries, ha.copies, ha.within⟩ ?_ ?_
      · simpa using ha.read.mpr hu
      · rw [hph]
        simp [Phase.handed, handed]
      · rw [hph]
        simp [Phase.failures, failures]
  | handling k =>
    rw [hph] at hg
    rcases hg with ho | ⟨ok, rfl⟩
    · exact h.elsewhere ho (by rw [hph]; trivial) hx
    · obtain ⟨-, rfl⟩ : r = .ok () ∧ w' = w := run_of_sure hx hc (Or.inr (Or.inr ⟨_, rfl⟩))
      obtain rfl : ok = false := by
        cases ok with
        | false => rfl
        | true => exact absurd rfl hc.2.2
      rw [hph] at ha hown
      have hwithin : (k : ℤ) ≤ maxRetries := ha.within
      have hread : ¬ w'.group.cursor < id := fun hu => by simpa using ha.read.mpr hu
      by_cases hlast : maxRetries ≤ k
      · have hnext : Phase.next maxRetries id (.handling k) (Op.note (.handled id false)) r =
            .failed k := by simp [Phase.next, hlast]
        refine h.advance rfl h.cursor (hown.trans hnext) ⟨⟨fun hu => by simp at hu,
          fun hu => absurd hu hread⟩, ha.deliveries, ha.copies, le_antisymm hwithin hlast⟩ ?_ ?_
        · rw [hph]
          simp [Phase.handed, handed]
        · rw [hph]
          simp [Phase.failures, failures]
      · have hnext : Phase.next maxRetries id (.handling k) (Op.note (.handled id false)) r =
            .idle (k + 1) := by simp [Phase.next, hlast]
        have hstill : 1 ≤ k + 1 ∧ ((k + 1 : ℕ) : ℤ) ≤ maxRetries := by omega
        refine h.advance rfl h.cursor (hown.trans hnext) ⟨⟨fun hu => by simp at hu,
          fun hu => absurd hu hread⟩, ha.deliveries, ha.copies, hstill⟩ ?_ ?_
        · rw [hph]
          simp [Phase.handed, handed]
        · rw [hph]
          simp [Phase.failures, failures]
  | failed k =>
    rw [hph] at hg ha hown
    obtain rfl : op = Op.now := hg
    obtain ⟨-, rfl⟩ : r = .ok w.clock ∧ w' = w := run_of_sure hx hc (Or.inr (Or.inl rfl))
    refine h.advance rfl h.cursor hown ⟨⟨fun hu => by simp [Phase.next] at hu, fun hu => ?_⟩,
      ha.deliveries, ha.copies, ha.within⟩ ?_ ?_
    · simpa using ha.read.mpr hu
    · rw [hph]
      rfl
    · rw [hph]
      rfl
  | stamped k =>
    rw [hph] at hg ha hown
    obtain ⟨fs, rfl, hid, hattempts⟩ := hg
    obtain ⟨-, rfl⟩ := run_of_sure hx hc (Or.inl trivial)
    refine h.advance rfl h.cursor hown ⟨⟨fun hu => by simp [Phase.next] at hu, fun hu => ?_⟩,
      ha.deliveries, ?_, ha.within⟩ ?_ ?_
    · simpa using ha.read.mpr hu
    · rw [copies_xaddDead, if_pos hid, ha.copies, hattempts]
      rfl
    · rw [hph]
      rfl
    · rw [hph]
      rfl
  | copied k =>
    rw [hph] at hg ha hown
    obtain rfl : op = Op.xack id := hg
    obtain ⟨-, rfl⟩ := run_of_sure hx hc (Or.inl trivial)
    refine h.advance rfl h.cursor hown ⟨⟨fun hu => by simp [Phase.next] at hu, fun hu => ?_⟩,
      Group.deliveries_xack_self, ha.copies, ha.within⟩ ?_ ?_
    · simpa using ha.read.mpr hu
    · rw [hph]
      rfl
    · rw [hph]
      rfl

/-- **Step lemma** for what happens outside. -/
theorem Inv.outer {x : Feed} (h : Inv maxRetries p id f w past) (hc : Cond p id w (.outer x))
    (hcome : Coming id f (feed w x)) : Inv maxRetries p id f (feed w x) (past ++ [.outer x]) := by
  have hsame : phase maxRetries id p (past ++ [.outer x]) = phase maxRetries id p past :=
    track_other (by simp [Act.pid])
  have hh : handed id (past ++ [.outer x]) = handed id past := by simp [handed]
  have hf : failures id (past ++ [.outer x]) = failures id past := by simp [failures]
  have ha := h.agrees
  have hadd : ∀ fs, Written fs → ∀ e ∈ (w.main.xadd w.clock fs).entries, Written e.2 := by
    intro fs hfs e he
    rcases Stream.mem_xadd.mp he with he | rfl
    · exact h.written e he
    · exact hfs
  have hlast : ∀ fs, w.group.cursor ≤ (w.main.xadd w.clock fs).last := fun fs =>
    h.cursor.trans (lt_nextId _ _).le
  refine ⟨?_, hcome, ?_, hsame ▸ ?_, ?_, ?_⟩
  · cases x with
    | enqueue fs => exact hadd fs hc.2
    | replay fs y => exact hadd fs hc.2.1
    | trim n => exact fun e he => h.written e (List.mem_of_mem_drop he)
    | _ => exact h.written
  · cases x with
    | enqueue fs => exact hlast fs
    | replay fs y => exact hlast fs
    | _ => exact h.cursor
  · cases x with
    | replay fs y => exact ⟨ha.read, ha.deliveries, (copies_xdel hc.2.2).trans ha.copies, ha.within⟩
    | purge =>
      refine ⟨ha.read, ?_, ha.copies, ha.within⟩
      by_cases hread : w.group.cursor < id
      · have hnil : (phase maxRetries id p past).deliveries = [] := by
          rw [ha.read.mpr hread]
          rfl
        exact (Group.deliveries_purge_nil (ha.deliveries.trans hnil)).trans hnil.symm
      · exact (Group.deliveries_purge (List.mem_map.mpr ⟨_, h.mem hread, rfl⟩)).trans ha.deliveries
    | _ => exact ⟨ha.read, ha.deliveries, ha.copies, ha.within⟩
  · rw [hh, hsame]
    exact h.hands
  · rw [hf, hsame]
    exact h.fails

end Steps

end Lifecycle

end PaymentRecon
