import PaymentRecon.Lib.Paging
import PaymentRecon.Replay.ById

/-!
# DeadLetters — reading the dead-letter stream page by page

Two producers with different fields write dead letters, and one decoder reads them.  `get_dead_letters`
reads a page of the entries after a cursor; between two pages entries may be appended, replayed and
trimmed.
-/

namespace PaymentRecon

open Interleave Streams Requests Paging

namespace Replay

/-! ## The producers -/

/-- A dead letter: what its producer was given, and when. -/
inductive DeadLetter
  | enqueued (data : Json) (eventId : Id) (reason : String) (createdAt : ℕ)
  | moved (message : Message) (failedAt : ℕ)

namespace DeadLetter

def data : DeadLetter → Json
  | enqueued data _ _ _ => data
  | moved message _ => message.data

/-- The payload of its XADD. -/
def fields : DeadLetter → Fields
  | enqueued data eventId reason createdAt =>
    { Fields.none with
      eventId := some eventId, data := some data, reason := some reason,
      originalStream := some "pending_orders_queue", createdAt := some createdAt }
  | moved message failedAt =>
    { Fields.none with
      data := some message.data, originalId := some message.id, attempts := some message.attempts,
      failedAt := some failedAt }

end DeadLetter

theorem enqueueDeadLetter_eq (data : Json) (eventId : Id) (reason : String) :
    enqueueDeadLetter data eventId reason =
      (await .now >>= fun now => await (.xaddDead (DeadLetter.enqueued data eventId reason now).fields)) :=
  rfl

theorem moveToDeadLetter_eq (m : Message) :
    moveToDeadLetter m = (await .now >>= fun now =>
      await (.xaddDead (DeadLetter.moved m now).fields) >>= fun _ => pure ()) :=
  rfl

/-! ## Fields as text -/

/-- The text of a field: of `json.dumps`, or `str` of an integer, of a time in seconds, or of an id. -/
inductive FieldText
  | json (j : Json)
  | int (n : ℤ)
  | float (q : ℚ)
  | id (i : StreamId)

namespace FieldText

/-- `json.loads`. -/
def loads : FieldText → Except Exc Json
  | .json j => .ok j
  | .int n => .ok (.int n)
  | .float q => .ok (.float q)
  | .id _ => .error ⟨.valueError, "Extra data"⟩

/-- `int(..)`. -/
def toInt : FieldText → Except Exc ℤ
  | .int n | .json (.int n) => .ok n
  | _ => .error ⟨.valueError, "invalid literal for int()"⟩

/-- `float(..)`. -/
def toFloat : FieldText → Except Exc ℚ
  | .float q | .json (.float q) => .ok q
  | .int n | .json (.int n) => .ok n
  | _ => .error ⟨.valueError, "could not convert string to float"⟩

end FieldText

/-- `fields.get(name)`, of the fields that `get_dead_letters` reads.  The times of the model are
milliseconds. -/
def fieldText (f : Fields) (name : String) : Option FieldText :=
  match name with
  | "data" => f.data.map .json
  | "original_id" => f.originalId.map .id
  | "attempts" => f.attempts.map .int
  | "failed_at" => f.failedAt.map fun t => .float (t / 1000)
  | _ => none

/-! ## Pages -/

/-- The start of an `XRANGE`: `-`, or `(id`. -/
inductive RangeStart
  | least
  | exclusive (id : StreamId)

def RangeStart.Admits : RangeStart → StreamId → Prop
  | .least, _ => True
  | .exclusive id, i => id < i

instance (start : RangeStart) (i : StreamId) : Decidable (start.Admits i) :=
  match start with
  | .least => isTrue trivial
  | .exclusive id => inferInstanceAs (Decidable (id < i))

/-- `XRANGE stream start + COUNT count`.  The client refuses a count below one. -/
def xrangeCount {F : Type} (s : Stream F) (start : RangeStart) (count : ℕ) :
    Except Exc (List (StreamId × F)) :=
  if count < 1 then .error RedisError
  else .ok ((s.entries.filter fun e => start.Admits e.1).take count)

/-- One of `messages`. -/
structure DeadMessage where
  msgId : StreamId
  data : Json
  originalId : Option FieldText
  attempts : ℤ
  failedAt : ℚ

def parseDeadLetter (e : StreamId × Fields) : Except Exc DeadMessage := do
  let data ← ((fieldText e.2 "data").getD (.json (.obj []))).loads
  let attempts ← ((fieldText e.2 "attempts").getD (.int 0)).toInt
  let failedAt ← ((fieldText e.2 "failed_at").getD (.int 0)).toFloat
  pure ⟨e.1, data, fieldText e.2 "original_id", attempts, failedAt⟩

/-- `start_id`.  The cursor `-` is `none`. -/
def startId : Option StreamId → RangeStart
  | none => .least
  | some cursor => .exclusive cursor

/-- `dead_messages[-1][0]`. -/
def lastId {F : Type} (deadMessages : List (StreamId × F)) : Except Exc StreamId :=
  match deadMessages.getLast? with
  | some e => .ok e.1
  | none => .error ⟨.indexError, "list index out of range"⟩

/-- `messages` and `next_cursor`. -/
def getDeadLetters (count : ℕ) (cursor : Option StreamId) (dead : Stream Fields) :
    Except Exc (List DeadMessage × Option StreamId) := do
  let deadMessages ← xrangeCount dead (startId cursor) count
  let parsedMessage ← deadMessages.mapM parseDeadLetter
  if deadMessages.length < count then pure (parsedMessage, none)
  else
    let nextCursor ← lastId deadMessages
    pure (parsedMessage, some nextCursor)

/-! ## What a page is -/

variable {count : ℕ} {cursor : Option StreamId} {s : Stream DeadLetter}

/-- What the decoder makes of a dead letter. -/
def message : StreamId × DeadLetter → DeadMessage
  | (i, .enqueued data _ _ _) => ⟨i, data, none, 0, 0⟩
  | (i, .moved m failedAt) => ⟨i, m.data, some (.id m.id), m.attempts, failedAt / 1000⟩

@[simp] theorem message_msgId (e : StreamId × DeadLetter) : (message e).msgId = e.1 := by
  obtain ⟨i, letter⟩ := e
  cases letter <;> rfl

@[simp] theorem message_data (e : StreamId × DeadLetter) : (message e).data = e.2.data := by
  obtain ⟨i, letter⟩ := e
  cases letter <;> rfl

/-- The decoder reads what either producer writes. -/
theorem parse_fields (e : StreamId × DeadLetter) :
    parseDeadLetter (e.1, e.2.fields) = .ok (message e) := by
  obtain ⟨i, letter⟩ := e
  cases letter <;> rfl

theorem mapM_parse (es : List (StreamId × DeadLetter)) :
    (es.map fun e => (e.1, e.2.fields)).mapM parseDeadLetter = .ok (es.map message) := by
  induction es with
  | nil => rfl
  | cons e es ih =>
    rw [List.map_cons, List.mapM_cons, parse_fields, ih]
    rfl

/-- The stream in Redis. -/
def stored (s : Stream DeadLetter) : Stream Fields := s.map DeadLetter.fields

theorem xrangeCount_stored (hc : 0 < count) :
    xrangeCount (stored s) (startId cursor) count =
      .ok ((page Prod.fst count cursor s.entries).map fun e => (e.1, e.2.fields)) := by
  have hfilter : ((stored s).entries.filter fun e => (startId cursor).Admits e.1) =
      (rest Prod.fst cursor s.entries).map fun e => (e.1, e.2.fields) := by
    show ((s.entries.map fun e => (e.1, e.2.fields)).filter _) = _
    rw [List.filter_map, rest]
    refine congrArg _ (List.filter_congr fun e _ => ?_)
    refine decide_eq_decide.mpr ?_
    cases cursor with
    | none => simp [startId, RangeStart.Admits]
    | some c => simp [startId, RangeStart.Admits]
  rw [xrangeCount, if_neg (by omega), hfilter, ← List.map_take]
  rfl

/-- **A page**: the first letters after the cursor, and the last id unless the page is not full. -/
theorem getDeadLetters_stored (hc : 0 < count) :
    getDeadLetters count cursor (stored s) =
      .ok ((page Prod.fst count cursor s.entries).map message,
        if (full Prod.fst hc).more cursor s.entries then
          (page Prod.fst count cursor s.entries).getLast?.map Prod.fst
        else none) := by
  rw [getDeadLetters, xrangeCount_stored hc]
  change (List.mapM parseDeadLetter _ >>= _) = _
  rw [mapM_parse]
  change (if _ then _ else _) = _
  rw [List.length_map]
  by_cases hfull : (page Prod.fst count cursor s.entries).length < count
  · have hmore : (full Prod.fst hc).more cursor s.entries = false :=
      decide_eq_false (not_le.mpr hfull)
    rw [if_pos hfull, hmore]
    rfl
  · have hmore : (full Prod.fst hc).more cursor s.entries = true := decide_eq_true (not_lt.mp hfull)
    obtain ⟨e, he⟩ := Option.isSome_iff_exists.mp
      (List.getLast?_isSome.mpr ((full Prod.fst hc).goes hmore))
    rw [if_neg hfull, hmore, he, lastId, List.getLast?_map, he]
    rfl

/-! ## Streams that change -/

/-- What happens to the stream: a producer appends, a replay deletes, MAXLEN evicts.  The time of an
append is the one of Redis. -/
inductive DlqEvent
  | append (letter : DeadLetter) (now : ℕ)
  | replay (msgId : StreamId)
  | evict (n : ℕ)

def DlqEvent.step (s : Stream DeadLetter) : DlqEvent → Stream DeadLetter
  | append letter now => s.xadd now letter
  | replay msgId => s.xdel msgId
  | evict n => s.trim n

/-- No producer. -/
def DlqEvent.Removes : DlqEvent → Prop
  | append _ _ => False
  | _ => True

/-- The append of either producer. -/
theorem xaddDead_step {w w' : World} {p : Pid} {letter : DeadLetter} {r : Except Exc StreamId}
    (hw : w.dead = stored s) (h : (Op.xaddDead letter.fields).run p w r w') :
    w'.dead = stored (DlqEvent.step s (.append letter w.clock)) := by
  obtain ⟨-, rfl⟩ := h
  show w.dead.xadd w.clock letter.fields = _
  rw [hw]
  exact (Stream.map_xadd DeadLetter.fields s w.clock letter).symm

/-- A replay, whatever its string. -/
theorem replayString_step {w : World} (R : IdReader) (msgId : String) (hw : w.dead = stored s) :
    (replayString R msgId w).2.dead = stored s ∨
      ∃ id, (replayString R msgId w).2.dead = stored (DlqEvent.step s (.replay id)) := by
  rcases replayString_cases R msgId w with ⟨h, -⟩ | ⟨lo, hi, e, rest, -, -, ⟨-, h⟩ | ⟨x, -, -, h⟩⟩
  · rw [h]
    exact Or.inl hw
  · rw [h]
    exact Or.inl hw
  · rw [h]
    refine Or.inr ⟨x.lo, ?_⟩
    show w.dead.xdel x.lo = _
    rw [hw]
    exact (Stream.map_xdel DeadLetter.fields s x.lo).symm

/-- The eviction of MAXLEN. -/
theorem trim_step (n : ℕ) : (stored s).trim n = stored (DlqEvent.step s (.evict n)) :=
  (Stream.map_trim DeadLetter.fields s n).symm

/-- The stream that page `k` reads: `built`, and what happened before each of the pages. -/
def streamAt (built : List DlqEvent) (env : ℕ → List DlqEvent) : ℕ → Stream DeadLetter
  | 0 => built.foldl DlqEvent.step Stream.empty
  | k + 1 => (env k).foldl DlqEvent.step (streamAt built env k)

/-- The calls of a walk, each with the stream it reads, and the messages they return: `next_cursor` is fed
back until it is `None`. -/
inductive DlqWalk (count : ℕ) :
    Option StreamId → List (Stream Fields) → List (List DeadMessage) → Prop
  | last {cursor : Option StreamId} {dead : Stream Fields} {messages : List DeadMessage}
      (h : getDeadLetters count cursor dead = .ok (messages, none)) :
      DlqWalk count cursor [dead] [messages]
  | next {cursor : Option StreamId} {dead : Stream Fields} {messages : List DeadMessage}
      {nextCursor : StreamId} {later : List (Stream Fields)} {pages : List (List DeadMessage)}
      (h : getDeadLetters count cursor dead = .ok (messages, some nextCursor))
      (hw : DlqWalk count (some nextCursor) later pages) :
      DlqWalk count cursor (dead :: later) (messages :: pages)

/-- The walk is the one of the library. -/
theorem DlqWalk.walk {dead : List (Stream Fields)} {out : List (List DeadMessage)}
    {ss : List (Stream DeadLetter)} (hc : 0 < count) (h : DlqWalk count cursor dead out)
    (hdead : dead = ss.map stored) :
    ∃ pages, Walk (full Prod.fst hc) cursor (ss.map (·.entries)) pages ∧
      out = pages.map fun page => page.map message := by
  induction h generalizing ss with
  | @last cursor dead messages h =>
    obtain ⟨s, rfl, rfl⟩ : ∃ s, ss = [s] ∧ dead = stored s := by
      obtain ⟨s, rfl, hs⟩ := List.map_eq_singleton_iff.mp hdead.symm
      exact ⟨s, rfl, hs.symm⟩
    rw [getDeadLetters_stored hc] at h
    obtain ⟨rfl, hnone⟩ := Prod.mk.inj (Except.ok.inj h)
    refine ⟨[_], .stop ?_, rfl⟩
    by_contra hmore
    rw [Bool.not_eq_false] at hmore
    rw [if_pos hmore, Option.map_eq_none_iff, List.getLast?_eq_none_iff] at hnone
    exact (full Prod.fst hc).goes hmore hnone
  | @next cursor dead messages nextCursor later out h _ ih =>
    obtain ⟨s, ss, rfl, rfl, rfl⟩ : ∃ s ss', ss = s :: ss' ∧ dead = stored s ∧ later = ss'.map stored := by
      obtain ⟨s, ss', rfl, hs, hss⟩ := List.map_eq_cons_iff.mp hdead.symm
      exact ⟨s, ss', rfl, hs.symm, hss.symm⟩
    rw [getDeadLetters_stored hc] at h
    obtain ⟨rfl, hsome⟩ := Prod.mk.inj (Except.ok.inj h)
    split at hsome
    next hmore =>
      obtain ⟨e, he, rfl⟩ := Option.map_eq_some_iff.mp hsome
      obtain ⟨pages, hw, rfl⟩ := ih rfl
      exact ⟨_, .go hmore he hw, rfl⟩
    next => exact absurd hsome (by simp)

theorem walk_dlqWalk {lists pages : List (List (StreamId × DeadLetter))}
    {ss : List (Stream DeadLetter)} (hc : 0 < count) (h : Walk (full Prod.fst hc) cursor lists pages)
    (hlists : lists = ss.map (·.entries)) :
    DlqWalk count cursor (ss.map stored) (pages.map fun page => page.map message) := by
  induction h generalizing ss with
  | @stop cursor xs hstop =>
    obtain ⟨s, rfl, rfl⟩ := List.map_eq_singleton_iff.mp hlists.symm
    refine .last ?_
    rw [getDeadLetters_stored hc, hstop]
    rfl
  | @go cursor xs lists pages e hmore he _ ih =>
    obtain ⟨s, ss', rfl, rfl, hss⟩ := List.map_eq_cons_iff.mp hlists.symm
    refine .next ?_ (ih hss.symm)
    rw [getDeadLetters_stored hc, if_pos hmore, he]
    rfl

/-- Without producers no id is new. -/
theorem foldl_removes {es : List DlqEvent} (h : ∀ e ∈ es, e.Removes) (s : Stream DeadLetter) :
    ∀ x ∈ (es.foldl DlqEvent.step s).entries, x ∈ s.entries := by
  induction es generalizing s with
  | nil => exact fun x hx => hx
  | cons e es ih =>
    rw [List.forall_mem_cons] at h
    intro x hx
    have hmem := ih h.2 (DlqEvent.step s e) x hx
    cases e with
    | append => exact h.1.elim
    | replay => exact (Stream.mem_xdel.mp hmem).1
    | evict n => exact List.mem_of_mem_drop hmem

/-- Finitely many ids occur when the producers are quiet from some page on. -/
theorem finite_ids {built : List DlqEvent} {env : ℕ → List DlqEvent} {N : ℕ}
    (h : ∀ k, N ≤ k → ∀ e ∈ env k, e.Removes) :
    ∃ U : Finset StreamId, ∀ k, ∀ x ∈ (streamAt built env k).entries, x.1 ∈ U := by
  refine ⟨((List.range (N + 1)).flatMap fun k => (streamAt built env k).entries.map (·.1)).toFinset,
    fun k x hx => ?_⟩
  rw [List.mem_toFinset, List.mem_flatMap]
  rcases le_or_gt k N with hk | hk
  · exact ⟨k, List.mem_range.mpr (by omega), List.mem_map_of_mem hx⟩
  · have hback : ∀ d, ∀ y ∈ (streamAt built env (N + d)).entries, y ∈ (streamAt built env N).entries := by
      intro d
      induction d with
      | zero => exact fun y hy => hy
      | succ d ih => exact fun y hy => ih y (foldl_removes (h (N + d) (by omega)) _ y hy)
    have hmem := hback (k - N) x (by rwa [Nat.add_sub_cancel' hk.le])
    exact ⟨N, List.mem_range.mpr (by omega), List.mem_map_of_mem hmem⟩

/-! ## The walk over the dead letters -/

/-- **Dead-letter paging is complete.**  No page raises; the walk ends when the producers are quiet from
some page on; it returns the letters in the order of their ids, and every letter that is in the stream all
the time once, with the data that its producer was given. -/
theorem dead_letters_complete (count : ℕ) (hc : 1 ≤ count) (built : List DlqEvent)
    (env : ℕ → List DlqEvent) :
    (∀ k cursor, ∃ out, getDeadLetters count cursor (stored (streamAt built env k)) = .ok out) ∧
    ((∃ N, ∀ k, N ≤ k → ∀ e ∈ env k, e.Removes) →
      ∃ m pages, DlqWalk count none
        ((List.range (m + 1)).map fun k => stored (streamAt built env k)) pages) ∧
    ∀ m pages, DlqWalk count none
        ((List.range (m + 1)).map fun k => stored (streamAt built env k)) pages →
      (pages.flatten.map (·.msgId)).Pairwise (· < ·) ∧
      ∀ e, (∀ k, k ≤ m → e ∈ (streamAt built env k).entries) →
        (pages.flatten.filter fun m => m.msgId = e.1).map (·.data) = [e.2.data] := by
  refine ⟨fun k cursor => ⟨_, getDeadLetters_stored hc⟩, ?_, ?_⟩
  · rintro ⟨N, hN⟩
    obtain ⟨U, hU⟩ : ∃ U : Finset StreamId, ∀ k, ∀ x ∈ (streamAt built env k).entries, x.1 ∈ U :=
      finite_ids hN
    obtain ⟨m, pages, hw⟩ := Walk.exists_of_finite (full Prod.fst hc)
      (fun k => (streamAt built env k).entries) U hU none
    have hlists : (List.range (m + 1)).map (fun k => (streamAt built env k).entries) =
        ((List.range (m + 1)).map fun k => streamAt built env k).map (·.entries) := by simp
    have hcalls := walk_dlqWalk hc hw hlists
    rw [List.map_map] at hcalls
    exact ⟨m, _, hcalls⟩
  · intro m out hw
    have hdead : (List.range (m + 1)).map (fun k => stored (streamAt built env k)) =
        ((List.range (m + 1)).map fun k => streamAt built env k).map stored := by simp
    obtain ⟨pages, hwalk, rfl⟩ := hw.walk hc hdead
    rw [List.map_map] at hwalk
    have hsorted : Sorted Prod.fst pages.flatten := by
      refine hwalk.sorted fun xs hxs => ?_
      obtain ⟨k, _, rfl⟩ := List.mem_map.mp hxs
      exact (streamAt built env k).sorted
    rw [← List.map_flatten]
    refine ⟨?_, fun e he => ?_⟩
    · rw [List.map_map, Function.comp_def]
      simp only [message_msgId]
      exact hsorted
    have hmem : e ∈ pages.flatten := by
      refine hwalk.complete (fun xs hxs => ?_) past_none fun xs hxs => ?_
      · obtain ⟨k, _, rfl⟩ := List.mem_map.mp hxs
        exact (streamAt built env k).sorted
      · obtain ⟨k, hk, rfl⟩ := List.mem_map.mp hxs
        exact he k (by simpa [Nat.lt_succ_iff] using hk)
    have hone : (pages.flatten.filter fun x => x.1 = e.1) = [e] :=
      filter_key (hsorted.imp fun h => h.ne) hmem
    rw [List.filter_map, Function.comp_def]
    simp [hone]

/-- A letter of each producer; the first is replayed after the first page, and a third is appended. -/
theorem dead_letters_complete_sample :
    ∃ m pages, DlqWalk 1 none ((List.range (m + 1)).map fun k => stored (streamAt
      [.append (.enqueued (.obj []) 7 "Missing amount" 0) 5,
        .append (.moved ⟨toLex (3, 0), .obj [("amount", .int 0)], 3, 0⟩ 6) 6]
      (fun k => if k = 0 then
          [.replay (toLex (5, 0)), .append (.enqueued .null 8 "Payload must be a dictionary" 7) 7]
        else []) k)) pages := by
  refine (dead_letters_complete 1 le_rfl _ _).2.1 ⟨1, fun k hk e he => ?_⟩
  rw [if_neg (by omega)] at he
  exact absurd he (by simp)

end Replay

end PaymentRecon
