import PaymentRecon.Replay.Conserved
import PaymentRecon.Requests.Allocate

/-!
# ById — what a replay does with the string it is given

`replay_message` passes its string to XRANGE, as both ends of a range, and to XDEL, as one id.  XRANGE
also takes `-`, `+`, ids without a sequence number and, after a `(`, ranges without their ends; it
answers all entries in between, of which the replay appends the first.
-/

namespace PaymentRecon

open Interleave Streams Requests

namespace Replay

variable {w w' : World} {lo hi : StreamId}

/-! ## The strings that Redis takes -/

/-- How Redis reads an id `ms` or `ms-seq`.  The ends of a range have their own spelling. -/
structure IdReader where
  read : List Char → Option IdArg
  least : read ['-'] = none
  greatest : read ['+'] = none
  exclusive : ∀ s, read ('(' :: s) = none

/-- The greatest number in an id. -/
def maxPart : ℕ := 2 ^ 64 - 1

/-- The next id. -/
def incrId (i : StreamId) : Option StreamId :=
  if (ofLex i).2 < maxPart then some (toLex ((ofLex i).1, (ofLex i).2 + 1))
  else if (ofLex i).1 < maxPart then some (toLex ((ofLex i).1 + 1, 0))
  else none

/-- The id before. -/
def decrId (i : StreamId) : Option StreamId :=
  if 0 < (ofLex i).2 then some (toLex ((ofLex i).1, (ofLex i).2 - 1))
  else if 0 < (ofLex i).1 then some (toLex ((ofLex i).1 - 1, maxPart))
  else none

/-- The range of `XRANGE stream s s`, unless Redis refuses the string. -/
def IdReader.range (R : IdReader) (s : List Char) : Option (StreamId × StreamId) :=
  match s with
  | ['-'] => some (toLex (0, 0), toLex (0, 0))
  | ['+'] => some (toLex (maxPart, maxPart), toLex (maxPart, maxPart))
  | '(' :: c :: rest => do
    let x ← R.read (c :: rest)
    let lo ← incrId x.lo
    let hi ← decrId x.hi
    pure (lo, hi)
  | s => (R.read s).map fun x => (x.lo, x.hi)

theorem range_of_read {R : IdReader} {s : List Char} {x : IdArg} (h : R.read s = some x) :
    R.range s = some (x.lo, x.hi) := by
  unfold IdReader.range
  split
  · rw [R.least] at h
    exact absurd h (by simp)
  · rw [R.greatest] at h
    exact absurd h (by simp)
  · rw [R.exclusive] at h
    exact absurd h (by simp)
  · rw [h]
    rfl

/-- A number of at most 64 bits. -/
def readNumber (s : List Char) : Option ℕ :=
  if s = [] ∨ ¬ s.all Char.isDigit then none
  else
    let n := s.foldl (fun n c => 10 * n + (c.toNat - '0'.toNat)) 0
    if n ≤ maxPart then some n else none

/-- `ms` or `ms-seq`. -/
def readId (s : List Char) : Option IdArg := do
  let ms ← readNumber (s.takeWhile (· ≠ '-'))
  match s.dropWhile (· ≠ '-') with
  | [] => pure ⟨ms, none⟩
  | _ :: seq => do
    let seq ← readNumber seq
    pure ⟨ms, some seq⟩

def decimal : IdReader where
  read := readId
  least := by decide
  greatest := by decide
  exclusive s := by simp [readId, readNumber]

/-! ## The replay -/

/-- How `replay_message` ends. -/
inductive Reply
  | raises
  | notFound
  | success (newMsgId : StreamId)

/-- `replay_message`.  A command of the transaction that Redis refuses does not keep the others from
taking effect; the pipeline raises its error afterwards. -/
def replayString (R : IdReader) (msgId : String) (w : World) : Reply × World :=
  match R.range msgId.toList with
  | none => (.raises, w)
  | some (lo, hi) =>
    match w.dead.xrange lo hi with
    | [] => (.notFound, w)
    | (_, fields) :: _ =>
      let main := w.main.xadd w.clock { fields with attempts := some 0 }
      match R.read msgId.toList with
      | none => (.raises, { w with main := main })
      | some x => (.success (nextId w.main.last w.clock), { w with main := main, dead := w.dead.xdel x.lo })

/-- The reply as the result of the program. -/
def Reply.result : Reply → Except Exc (Option StreamId)
  | .raises => .error RedisError
  | .notFound => .ok none
  | .success newMsgId => .ok (some newMsgId)

/-- Of a string that is an id, the replay is the program of the service. -/
theorem executes_replayMessage {R : IdReader} {msgId : String} {x : IdArg} {p : Pid} {cs : Calls}
    {r : Except Exc (Option StreamId)} (hread : R.read msgId.toList = some x)
    (h : Executes p (replayMessage x) w cs r w') (hs : ∀ c ∈ cs, c.fault = .done) :
    r = (replayString R msgId w).1.result ∧ w' = (replayString R msgId w).2 := by
  unfold replayMessage at h
  unfold replayString
  rw [range_of_read hread]
  rcases runs_await.mp h with ⟨es, w₁, cs₁, ⟨hes, rfl⟩, hrest, rfl⟩ | ⟨f, e, hx, rfl, -⟩
  · obtain rfl := Except.ok.inj hes
    rw [List.forall_mem_cons] at hs
    cases hrange : w₁.dead.xrange x.lo x.hi with
    | nil =>
      rw [hrange] at hrest
      obtain ⟨-, rfl, rfl⟩ := runs_ret.mp hrest
      simp [hrange, Reply.result]
    | cons e rest =>
      rw [hrange] at hrest
      rcases runs_await.mp hrest with ⟨_, w₂, cs₂, ⟨hid, rfl⟩, hend, rfl⟩ | ⟨f, e, hx, rfl, -⟩
      · obtain rfl := Except.ok.inj hid
        obtain ⟨-, rfl, rfl⟩ := runs_ret.mp hend
        simp [hrange, hread, Reply.result]
      · obtain rfl : f = .done := hs.2 _ (List.mem_singleton_self _)
        exact absurd hx.1 (by simp)
  · obtain rfl : f = .done := hs _ (List.mem_singleton_self _)
    exact absurd hx.1 (by simp)

/-! ## What a replay moves -/

/-- A replay that reports success appended the payload of one dead letter and deleted that one; any
other leaves both streams as they are. -/
def Moved (w : World) (out : Reply × World) : Prop :=
  match out.1 with
  | .success newMsgId => ∃ e ∈ w.dead.entries, ∃ f, payload f = payload e.2 ∧
      out.2.main.entries = w.main.entries ++ [(newMsgId, f)] ∧
      ∀ e', e' ∈ out.2.dead.entries ↔ e' ∈ w.dead.entries ∧ e' ≠ e
  | _ => out.2.main = w.main ∧ out.2.dead = w.dead

/-- No dead letter is in the range that the string denotes, or the string is an id that one has. -/
def Removable (R : IdReader) (msgId : String) (w : World) : Prop :=
  (∀ lo hi, R.range msgId.toList = some (lo, hi) → ∀ e ∈ w.dead.entries, ¬ (lo ≤ e.1 ∧ e.1 ≤ hi)) ∨
    ∃ x, R.read msgId.toList = some x ∧ ∃ e ∈ w.dead.entries, e.1 = x.lo

theorem lo_le_hi (x : IdArg) : x.lo ≤ x.hi := by
  refine Prod.Lex.toLex_le_toLex.mpr (Or.inr ⟨rfl, ?_⟩)
  cases x.seq with
  | none => exact Nat.zero_le _
  | some n => exact le_rfl

/-- The first entry of a range is its least. -/
theorem xrange_head {s : Stream Fields} {e e' : StreamId × Fields} {rest : List (StreamId × Fields)}
    (h : s.xrange lo hi = e :: rest) (he' : e' ∈ s.xrange lo hi) : e.1 ≤ e'.1 := by
  have hsorted : ((s.xrange lo hi).map (·.1)).Pairwise (· < ·) :=
    s.sorted.sublist (List.filter_sublist.map _)
  rw [h] at hsorted he'
  rcases List.mem_cons.mp he' with rfl | he'
  · exact le_rfl
  · exact ((List.pairwise_cons.mp hsorted).1 _ (List.mem_map_of_mem he')).le

/-- What a replay does with the two streams. -/
theorem replayString_cases (R : IdReader) (msgId : String) (w : World) :
    (replayString R msgId w).2 = w ∧ (∀ i, (replayString R msgId w).1 ≠ .success i) ∧
        (∀ lo hi, R.range msgId.toList = some (lo, hi) → w.dead.xrange lo hi = []) ∨
      ∃ lo hi e rest, R.range msgId.toList = some (lo, hi) ∧ w.dead.xrange lo hi = e :: rest ∧
        ((R.read msgId.toList = none ∧ replayString R msgId w = (.raises,
            { w with main := w.main.xadd w.clock { e.2 with attempts := some 0 } })) ∨
          ∃ x, R.read msgId.toList = some x ∧ lo = x.lo ∧
            replayString R msgId w = (.success (nextId w.main.last w.clock),
              { w with main := w.main.xadd w.clock { e.2 with attempts := some 0 },
                       dead := w.dead.xdel x.lo })) := by
  unfold replayString
  cases hr : R.range msgId.toList with
  | none => exact Or.inl ⟨rfl, by simp, by simp⟩
  | some b =>
    obtain ⟨lo, hi⟩ := b
    cases hx : w.dead.xrange lo hi with
    | nil =>
      refine Or.inl ⟨by simp [hx], by simp [hx], fun lo' hi' h => ?_⟩
      obtain ⟨rfl, rfl⟩ := Prod.mk.inj (Option.some.inj h)
      exact hx
    | cons e rest =>
      refine Or.inr ⟨lo, hi, e, rest, rfl, hx, ?_⟩
      cases hread : R.read msgId.toList with
      | none => exact Or.inl ⟨rfl, by simp [hx]⟩
      | some x =>
        obtain ⟨rfl, -⟩ := Prod.mk.inj (Option.some.inj (hr.symm.trans (range_of_read hread)))
        exact Or.inr ⟨x, rfl, rfl, by simp [hx]⟩

/-- **A replay moves one dead letter exactly when it deletes the one it read.**  For every string and
any dead letters: it does what it reports if and only if nothing is in the range of the string, or the
string is the id of a dead letter, with the sequence number 0 where it has none. -/
theorem replay_moves (R : IdReader) (msgId : String) (w : World) :
    Moved w (replayString R msgId w) ↔ Removable R msgId w := by
  rcases replayString_cases R msgId w with ⟨hsame, hno, hnone⟩ |
    ⟨lo, hi, e, rest, hrange, hx, ⟨hread, hout⟩ | ⟨x, hread, rfl, hout⟩⟩
  · -- nothing was read
    refine iff_of_true ?_ (Or.inl fun lo hi hr e he hin => ?_)
    · unfold Moved
      rw [hsame]
      cases h : (replayString R msgId w).1 with
      | success i => exact absurd h (hno i)
      | _ => exact ⟨rfl, rfl⟩
    · have hmem := Stream.mem_xrange.mpr ⟨he, hin⟩
      rw [hnone lo hi hr] at hmem
      exact absurd hmem List.not_mem_nil
  · -- XDEL refuses the string, after XADD
    have he := Stream.mem_xrange.mp (hx ▸ List.mem_cons_self : e ∈ w.dead.xrange lo hi)
    refine iff_of_false ?_ ?_
    · rw [hout]
      rintro ⟨hmain, -⟩
      have hlen := congrArg (fun s : Stream Fields => s.entries.length) hmain
      simp [Stream.xadd] at hlen
    · rintro (h | ⟨x, h, -⟩)
      · exact h lo hi hrange e he.1 he.2
      · rw [hread] at h
        exact absurd h (by simp)
  · have he := Stream.mem_xrange.mp (hx ▸ List.mem_cons_self : e ∈ w.dead.xrange x.lo hi)
    rw [hout]
    constructor
    · rintro ⟨e₀, he₀, -, -, -, hdead⟩
      refine Or.inr ⟨x, hread, e₀, he₀, ?_⟩
      by_contra hne
      exact ((hdead e₀).mp (Stream.mem_xdel.mpr ⟨he₀, hne⟩)).2 rfl
    · rintro (h | ⟨x', hread', e₀, he₀, hid⟩)
      · exact absurd he.2 (h _ _ hrange e he.1)
      · obtain rfl := Option.some.inj (hread.symm.trans hread')
        obtain ⟨-, rfl⟩ := Prod.mk.inj (Option.some.inj (hrange.symm.trans (range_of_read hread)))
        -- the dead letter with the id of the string is the first one read
        have hmem := Stream.mem_xrange.mpr ⟨he₀, hid.ge, hid.le.trans (lo_le_hi x)⟩
        have hfirst : e.1 = x.lo := le_antisymm ((xrange_head hx hmem).trans hid.le) he.2.1
        refine ⟨e, he.1, { e.2 with attempts := some 0 }, rfl, rfl, fun e' => ?_⟩
        rw [Stream.mem_xdel]
        refine and_congr_right fun he' => not_congr ⟨fun h => ?_, fun h => ?_⟩
        · exact Stream.eq_of_id he' he.1 (h.trans hfirst.symm)
        · exact h ▸ hfirst

/-- A dead letter with a sequence number, as the second of a millisecond has it. -/
def sequenced : World :=
  { World.empty with
    dead := (Stream.empty.xadd 5 { Fields.none with data := some (transactionData 1 "tx_1" 1500001) }).xadd 5
      { Fields.none with data := some (transactionData 2 "tx_2" 1500002) } |>.xdel (toLex (5, 0)) }

/-- Replayed as `5`, it is appended and stays where it is. -/
theorem replayed_stays : ¬ ∀ (R : IdReader) (msgId : String) (w : World),
    (R.range msgId.toList).isSome → Moved w (replayString R msgId w) := by
  intro h
  have hsame : (replayString decimal "5" sequenced).2.dead.entries = sequenced.dead.entries := rfl
  obtain ⟨e, he, -, -, -, hdead⟩ := h decimal "5" sequenced (by decide)
  exact ((hdead e).mp (hsame ▸ he)).2 rfl

end Replay

end PaymentRecon
