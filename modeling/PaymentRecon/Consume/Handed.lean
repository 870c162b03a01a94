import PaymentRecon.Consume.Acknowledged
import PaymentRecon.Consume.Lifecycle

/-!
# Handed — what a hand-over is

The worker notes when it begins to process a message and how its handler fared.  Between the two notes
about a message it runs the handler, and nothing else: `Handlings` reads the operations of the worker
as executions of the handler and operations in between, and counts them.
-/

namespace PaymentRecon

open Interleave Streams Rely

namespace Lifecycle

abbrev Calls := List (Σ op : Op, Except Exc op.Ret)

/-- Neither of the two notes about the message. -/
def Plain (id : StreamId) : Op → Prop
  | .note (.started i) => i ≠ id
  | .note (.handled i _) => i ≠ id
  | _ => True

/-- The handler `h` is the one for the message `m`, which is that of the entry `(id, f)`. -/
structure Takes (worker : Worker) (id : StreamId) (f : Fields) (m : Message) (h : Handler) : Prop where
  id : m.id = id
  data : m.data = f.loads
  handler : worker.getHandler f.loads = .ok (some h)

/-- In the operations `calls` the handler of the message was executed `n` times, and failed `k` times. -/
inductive Handlings (worker : Worker) (id : StreamId) (f : Fields) : ℕ → ℕ → Calls → Prop
  | none : Handlings worker id f 0 0 []
  | other {n k : ℕ} {calls : Calls} {op : Op} (r : Except Exc op.Ret)
      (h : Handlings worker id f n k calls) (hop : Plain id op) :
      Handlings worker id f n k (calls ++ [⟨op, r⟩])
  | ended {n k : ℕ} {calls run : Calls} {m : Message} {handler : Handler}
      {r : Except Exc (Option Bool)} {ok : Bool} (u v : Except Exc Unit)
      (h : Handlings worker id f n k calls) (hm : Takes worker id f m handler)
      (hrun : (handler m).Ends run r) (hok : ok = true ↔ Consume.Succeeded r) :
      Handlings worker id f (n + 1) (if ok then k else k + 1)
        (calls ++ ⟨Op.note (.started id), u⟩ :: run ++ [⟨Op.note (.handled id ok), v⟩])

/-- So it was, but for an execution of the handler that is still going on. -/
inductive Handles (worker : Worker) (id : StreamId) (f : Fields) : ℕ → ℕ → Calls → Prop
  | between {n k : ℕ} {calls : Calls} (h : Handlings worker id f n k calls) :
      Handles worker id f n k calls
  | running {n k : ℕ} {calls run : Calls} {m : Message} {handler : Handler} {y : App (Option Bool)}
      (u : Except Exc Unit) (h : Handlings worker id f n k calls) (hm : Takes worker id f m handler)
      (hrun : (handler m).Reaches run y) :
      Handles worker id f (n + 1) k (calls ++ ⟨Op.note (.started id), u⟩ :: run)

variable {worker : Worker} {p : Pid} {id : StreamId} {f : Fields} {w w' : World} {past : List Event}
  {n k : ℕ} {calls : Calls}

/-! ## Counting -/

/-- The operation begins the message. -/
def starts (id : StreamId) : (Σ op : Op, Except Exc op.Ret) → Bool
  | ⟨.note (.started i), _⟩ => i = id
  | _ => false

/-- The operation tells that the handler of the message failed. -/
def fails (id : StreamId) : (Σ op : Op, Except Exc op.Ret) → Bool
  | ⟨.note (.handled i ok), _⟩ => i = id ∧ ok = false
  | _ => false

theorem Plain.uncounted {op : Op} (h : Plain id op) (r : Except Exc op.Ret) :
    starts id ⟨op, r⟩ = false ∧ fails id ⟨op, r⟩ = false := by
  cases op with
  | note x =>
    cases x with
    | started i => exact ⟨by simpa [starts] using (show i ≠ id from h), rfl⟩
    | handled i ok => exact ⟨rfl, by simp [fails, show i ≠ id from h]⟩
  | _ => exact ⟨rfl, rfl⟩

theorem countP_plain {run : Calls} (h : ∀ c ∈ run, Plain id c.1) :
    run.countP (starts id) = 0 ∧ run.countP (fails id) = 0 := by
  constructor
  · exact List.countP_eq_zero.mpr fun c hc => by simp [((h c hc).uncounted c.2).1]
  · exact List.countP_eq_zero.mpr fun c hc => by simp [((h c hc).uncounted c.2).2]

theorem Apart.plain {op : Op} (h : Apart op) : Plain id op := by
  cases op <;> first | exact h.elim | trivial

theorem Takes.plain {m : Message} {handler : Handler} (hW : HandlersApart worker)
    (h : Takes worker id f m handler) : (handler m).All (Plain id) fun _ => True :=
  (hW _ _ m h.handler).mono (fun _ => Apart.plain) fun _ h => h

theorem Handlings.counted (hW : HandlersApart worker) (h : Handlings worker id f n k calls) :
    calls.countP (starts id) = n ∧ calls.countP (fails id) = k := by
  induction h with
  | none => exact ⟨rfl, rfl⟩
  | other r _ hop ih =>
    obtain ⟨hs, hf⟩ := hop.uncounted r
    simp [List.countP_append, ih, hs, hf]
  | ended u v _ hm hrun _ ih =>
    obtain ⟨hs, hf⟩ := countP_plain (hrun.all (hm.plain hW))
    next ok _ _ =>
    have hstart : starts id ⟨Op.note (.started id), u⟩ = true := by simp [starts]
    have hend : starts id ⟨Op.note (.handled id ok), v⟩ = false := rfl
    constructor
    · simp [List.countP_append, ih, hs, hstart, hend]
    · cases ok <;> simp [List.countP_append, ih, hf, fails]

theorem Handles.counted (hW : HandlersApart worker) (h : Handles worker id f n k calls) :
    calls.countP (starts id) = n ∧ calls.countP (fails id) = k := by
  cases h with
  | between h => exact h.counted hW
  | running u h hm hrun =>
    obtain ⟨hs, hf⟩ := countP_plain (hrun.all (hm.plain hW)).1
    have hstart : starts id ⟨Op.note (.started id), u⟩ = true := by simp [starts]
    have hfail : fails id ⟨Op.note (.started id), u⟩ = false := rfl
    simp [List.countP_append, h.counted hW, hs, hf, hstart, hfail]

/-- In a run of the worker alone its notes are counted among its operations. -/
theorem counted_past (h : ∀ a ∈ past, a.pid = none ∨ a.pid = some p) :
    handed id past = (callsOf p past).countP (starts id) ∧
      failures id past = (callsOf p past).countP (fails id) := by
  induction past using List.reverseRecOn with
  | nil => exact ⟨rfl, rfl⟩
  | append_singleton past a ih =>
    obtain ⟨hs, hf⟩ := ih fun b hb => h b (List.mem_append_left _ hb)
    have ha := h a (List.mem_append_right _ List.mem_cons_self)
    unfold handed at hs ⊢
    unfold failures at hf ⊢
    rw [List.countP_append, List.countP_append, hs, hf]
    cases a with
    | run q flt op r =>
      obtain rfl : q = p := by simpa [Act.pid] using ha
      rw [callsOf_own, List.countP_append, List.countP_append]
      constructor
      · congr 1
        cases op with
        | note x => cases x <;> rfl
        | _ => rfl
      · congr 1
        cases op with
        | note x => cases x <;> rfl
        | _ => rfl
    | spawn q n =>
      rw [callsOf_spawn]
      exact ⟨rfl, rfl⟩
    | crash q =>
      rw [callsOf_crash]
      exact ⟨rfl, rfl⟩
    | outer x =>
      rw [callsOf_outer]
      exact ⟨rfl, rfl⟩

/-! ## The worker -/

abbrev Facts := Assertion sig Exc World ℕ Feed

/-- A value was returned, and this is known of it. -/
def returns {β : Type} (J : β → Facts) : Except Exc β → Facts
  | .ok a => J a
  | .error _ => fun _ _ => False

theorem all_true {β : Type} (x : App β) : x.All (fun _ => True) fun _ => True := by
  induction x with
  | ret a => trivial
  | raise e => trivial
  | call op k ih => exact ⟨trivial, fun r => ih r⟩

namespace Handing

section Logic

variable (worker : Worker) (p : Pid) (id : StreamId) (f : Fields)

def logic : Rely sig Exc Unit World ℕ Feed where
  machine := consumer worker
  cond := fun w _ a _ => (a.pid = none ∨ a.pid = some p) ∧ ∀ e ∈ w.main.entries, e.1 = id → e.2 = f
  inv := fun _ past => ∃ n k, Handles worker id f n k (callsOf p past)
  start := fun q _ past => q = p → callsOf p past = []
  guard := fun q _ past op => q = p → ∀ r, ∃ n k, Handles worker id f n k (callsOf p past ++ [⟨op, r⟩])
  final := fun _ _ => top

/-- The worker is not in the middle of an execution of the handler. -/
def Between : Facts :=
  fun _ past => ∃ n k, Handlings worker id f n k (callsOf p past)

end Logic

theorem stable_calls {C : Calls → Prop} :
    (logic worker p id f).Stable p fun _ past => C (callsOf p past) := by
  intro w past a w' _ _ _ hp h
  show C (callsOf p (past ++ [a]))
  rw [callsOf_other hp]
  exact h

theorem keeps_plain {op : Op} (h : Plain id op) :
    (logic worker p id f).Ensures p (Between worker p id f) (await op)
      fun _ => Between worker p id f := by
  refine Ensures.perform (fun _ => stable_calls (C := fun cs => ∃ n k, Handlings worker id f n k cs)) ?_ ?_
  · rintro w past - ⟨n, k, hcalls⟩ - r
    exact ⟨n, k, .between (.other r hcalls h)⟩
  · rintro flt w past r w' - ⟨n, k, hcalls⟩ - -
    show ∃ n k, Handlings worker id f n k (callsOf p (past ++ [.run p flt op r]))
    rw [callsOf_own]
    exact ⟨n, k, .other r hcalls h⟩

theorem keeps_plainly {β : Type} {x : App β} {R : Except Exc β → Prop} (hx : x.All (Plain id) R) :
    (logic worker p id f).Ensures p (Between worker p id f) x
      fun r w past => Between worker p id f w past ∧ R r :=
  Ensures.allOf (fun _ => keeps_plain) hx

theorem note_ok {flt : Fault} {x : Note} {r : Except Exc Unit} (h : exec flt p (.note x) w r w') :
    r = .ok () := by
  rcases exec_cases h with h | ⟨-, e, he, -⟩ | ⟨hl, -⟩
  · exact h.1
  · exact he.elim
  · exact absurd hl (by simp [Op.Loses, Op.OnRedis])

/-- The note that the worker begins the message. -/
theorem keeps_started {m : Message} {handler : Handler} (hm : Takes worker id f m handler) :
    (logic worker p id f).Ensures p (Between worker p id f) (await (Op.note (.started id)))
      fun r _ past => r = .ok () ∧ ∃ calls n k, Handlings worker id f n k calls ∧
        callsOf p past = calls ++ [⟨Op.note (.started id), .ok ()⟩] := by
  refine Ensures.perform (fun r => stable_calls (C := fun cs => r = .ok () ∧ ∃ calls n k,
    Handlings worker id f n k calls ∧ cs = calls ++ [⟨Op.note (.started id), .ok ()⟩])) ?_ ?_
  · rintro w past - ⟨n, k, hcalls⟩ - r
    exact ⟨n + 1, k, .running r hcalls hm .here⟩
  · rintro flt w past r w' - ⟨n, k, hcalls⟩ hx -
    obtain rfl := note_ok hx
    exact ⟨rfl, _, n, k, hcalls, callsOf_own⟩

/-- The handler runs from the one note to the other. -/
theorem keeps_handlerResult {m : Message} {handler : Handler} (hm : Takes worker id f m handler)
    (hcalls : Handlings worker id f n k calls) :
    (logic worker p id f).Ensures p
      (fun _ past => callsOf p past = calls ++ [⟨Op.note (.started id), .ok ()⟩])
      (handlerResult handler m) (returns fun ok _ past => ∃ run r, (handler m).Ends run r ∧
        (ok = true ↔ Consume.Succeeded r) ∧
        callsOf p past = calls ++ ⟨Op.note (.started id), .ok ()⟩ :: run) := by
  have hrun : (logic worker p id f).Ensures p
      (fun _ past => callsOf p past = calls ++ [⟨Op.note (.started id), .ok ()⟩]) (handler m)
      fun r _ past => ∃ run,
        callsOf p past = (calls ++ [⟨Op.note (.started id), .ok ()⟩]) ++ run ∧ (handler m).Ends run r := by
    refine Ensures.traces ?_
    intro run op rest w past hreach hpast _ _ r
    rw [hpast]
    refine ⟨n + 1, k, ?_⟩
    have := Handles.running (.ok ()) hcalls hm (hreach.snoc r)
    simpa using this
  unfold handlerResult
  refine Ensures.tryCatch (m := fun r => match r with
    | .ok ok => fun _ past => ∃ run r, (handler m).Ends run r ∧ (ok = true ↔ Consume.Succeeded r) ∧
        callsOf p past = calls ++ ⟨Op.note (.started id), .ok ()⟩ :: run
    | .error e => fun _ past => ∃ run, (handler m).Ends run (.error e) ∧
        callsOf p past = calls ++ ⟨Op.note (.started id), .ok ()⟩ :: run) ?_ (fun _ _ _ h => h) ?_
  · refine Ensures.bind hrun ?_ ?_
    · rintro result w past ⟨run, hpast, hend⟩
      exact ⟨run, .ok result, hend, Iff.rfl, by simpa using hpast⟩
    · rintro e w past ⟨run, hpast, hend⟩
      exact ⟨run, hend, by simpa using hpast⟩
  · rintro e w past ⟨run, hend, hpast⟩
    exact ⟨run, .error e, hend, by simp [Consume.Succeeded], hpast⟩

theorem keeps_processMessage {m : Message} {handler : Handler} (hm : Takes worker id f m handler) :
    (logic worker p id f).Ensures p (Between worker p id f) (worker.processMessage m)
      fun _ => Between worker p id f := by
  unfold Worker.processMessage
  refine Ensures.bind (m := fun _ => Between worker p id f) ?_ ?_ fun _ _ _ h => h
  · exact (keeps_plainly (all_ofExcept (m.data.get "trace_id"))).mono fun _ _ _ h => h.1
  intro _
  rw [hm.id, hm.data, hm.handler, Prog.ofExcept_ok]
  refine Ensures.bind (keeps_started hm) ?_ fun e w past h => absurd h.1 (by simp)
  intro u
  refine Ensures.pure fun _ => Ensures.exists fun calls => Ensures.exists fun n => Ensures.exists fun k =>
    Ensures.pure fun hcalls => ?_
  rw [Prog.ret_bind]
  refine Ensures.bind (keeps_handlerResult hm hcalls) ?_ fun _ _ _ h => h.elim
  intro ok
  refine Ensures.exists fun run => Ensures.exists fun r => Ensures.pure fun hend =>
    Ensures.pure fun hok => ?_
  refine Ensures.bind (m := fun _ => Between worker p id f) ?_ (fun _ _ _ h => h) fun _ _ _ h => h
  refine Ensures.perform (fun _ => stable_calls (C := fun cs => ∃ n k, Handlings worker id f n k cs)) ?_ ?_
  · intro w past _ hpast _ v
    rw [hpast]
    exact ⟨_, _, .between (.ended (.ok ()) v hcalls hm hend hok)⟩
  · intro flt w past v w' _ hpast _ _
    show ∃ n k, Handlings worker id f n k (callsOf p (past ++ [.run p flt (Op.note (.handled id ok)) v]))
    rw [callsOf_own, hpast]
    exact ⟨_, _, .ended (.ok ()) v hcalls hm hend hok⟩

theorem plain_acknowledge (i : StreamId) : (acknowledge i).All (Plain id) fun _ => True :=
  all_seq (all_await trivial) fun _ => trivial

theorem plain_moveToDeadLetter (m : Message) : (moveToDeadLetter m).All (Plain id) fun _ => True :=
  all_seq (all_await trivial) fun _ => all_seq (all_await trivial) fun _ => trivial

theorem plain_handleFailure (m : Message) : (worker.handleFailure m).All (Plain id) fun _ => True := by
  unfold Worker.handleFailure
  refine all_seq (all_ofExcept _) fun _ => ?_
  split_ifs
  · exact all_try (all_seq (plain_moveToDeadLetter m) fun _ => plain_acknowledge m.id) fun _ => trivial
  · trivial

/-- Another message is handled without a note about this one. -/
theorem plain_processMessage (hW : HandlersApart worker) {m : Message} (hm : m.id ≠ id) :
    (worker.processMessage m).All (Plain id) fun _ => True := by
  unfold Worker.processMessage
  refine all_seq (all_ofExcept _) fun _ => all_seq (all_await hm) fun _ => ?_
  cases hd : worker.getHandler m.data with
  | error e => trivial
  | ok handler =>
    rw [Prog.ofExcept_ok, Prog.ret_bind]
    cases handler with
    | none => trivial
    | some h =>
      have hrun : (h m).All (Plain id) fun _ => True :=
        (hW _ _ m hd).mono (fun _ => Apart.plain) fun _ h => h
      refine all_seq (all_try (all_seq hrun fun _ => trivial) fun _ => trivial) fun ok => ?_
      exact all_seq (all_await hm) fun _ => trivial

/-- The messages are decoded from entries of the stream. -/
def Faithful (id : StreamId) (f : Fields) (ms : List Message) : Prop :=
  ∀ m ∈ ms, m.id = id → m.data = f.loads

theorem keeps_processOne (hW : HandlersApart worker) {h : Handler}
    (hh : worker.getHandler f.loads = .ok (some h)) {m : Message} (hm : m.id = id → m.data = f.loads) :
    (logic worker p id f).Ensures p (Between worker p id f) (worker.processOne m)
      fun _ => Between worker p id f := by
  have keeps : ∀ {β : Type} {x : App β}, x.All (Plain id) (fun _ => True) →
      (logic worker p id f).Ensures p (Between worker p id f) x fun _ => Between worker p id f :=
    fun hx => (keeps_plainly hx).mono fun _ _ _ h => h.1
  have hprocess : (logic worker p id f).Ensures p (Between worker p id f) (worker.processMessage m)
      fun _ => Between worker p id f := by
    by_cases hid : m.id = id
    · exact keeps_processMessage ⟨hid, hm hid, hh⟩
    · exact keeps (plain_processMessage hW hid)
  unfold Worker.processOne
  refine Ensures.bind (keeps (all_ofExcept _)) ?_ fun _ _ _ h => h
  intro amount
  split_ifs
  · exact keeps (all_seq (plain_moveToDeadLetter m) fun _ => plain_acknowledge m.id)
  · refine Ensures.bind hprocess ?_ fun _ _ _ h => h
    intro ok
    split_ifs
    · exact keeps (plain_acknowledge m.id)
    · exact keeps (plain_handleFailure m)

/-- The entries read have the data of the stream. -/
theorem keeps_entries {op : Op} {R : op.Ret → Prop} (hop : Plain id op)
    (hR : ∀ w w' a, (∀ e ∈ w.main.entries, e.1 = id → e.2 = f) → op.run p w (.ok a) w' → R a) :
    (logic worker p id f).Ensures p (Between worker p id f) (await op)
      fun r w past => Between worker p id f w past ∧ ∀ a, r = .ok a → R a := by
  refine Ensures.perform (fun r => stable_calls (C := fun cs =>
    (∃ n k, Handlings worker id f n k cs) ∧ ∀ a, r = .ok a → R a)) ?_ ?_
  · rintro w past - ⟨n, k, hcalls⟩ - r
    exact ⟨n, k, .between (.other r hcalls hop)⟩
  · rintro flt w past r w' - ⟨n, k, hcalls⟩ hx hc
    refine ⟨?_, fun a hr => ?_⟩
    · show ∃ n k, Handlings worker id f n k (callsOf p (past ++ [.run p flt op r]))
      rw [callsOf_own]
      exact ⟨n, k, .other r hcalls hop⟩
    · subst hr
      rcases exec_cases hx with h | ⟨-, e, -, he⟩ | ⟨-, -, -, e, -, he⟩
      · exact hR w w' a hc.2 h
      · cases he
      · cases he

theorem decodes_decodeAll (attempts : Fields → ℤ) {es : List (StreamId × Fields)}
    (hes : ∀ e ∈ es, e.1 = id → e.2 = f) : (decodeAll attempts es).All (Plain id)
      fun r => ∀ ms, r = .ok ms → Faithful id f ms := by
  induction es with
  | nil =>
    intro ms hms
    obtain rfl := Except.ok.inj hms
    intro m hm
    cases hm
  | cons e es ih =>
    unfold decodeAll
    refine Prog.All.bind (m := fun r => ∀ m, r = .ok m → m.id = id → m.data = f.loads) ?_ ?_ ?_
    · refine Prog.All.bind (all_await trivial) ?_ fun e _ m hm => by cases hm
      rintro now - m hm hid
      obtain rfl := Except.ok.inj hm
      exact congrArg Fields.loads (hes e List.mem_cons_self hid)
    · intro m hm
      refine Prog.All.bind (ih fun e he => hes e (List.mem_cons_of_mem _ he)) ?_ fun e _ ms hms => by cases hms
      intro ms hms all hall
      obtain rfl := Except.ok.inj hall
      exact List.forall_mem_cons.mpr ⟨hm m rfl, hms ms rfl⟩
    · intro e _ ms hms
      cases hms

/-- The messages fetched carry the data of the stream. -/
def Gathered (worker : Worker) (p : Pid) (id : StreamId) (f : Fields)
    (r : Except Exc (List Message)) : Facts := fun w past =>
  Between worker p id f w past ∧ ∀ ms, r = .ok ms → Faithful id f ms

theorem keeps_decoding (attempts : Fields → ℤ) (es : List (StreamId × Fields)) :
    (logic worker p id f).Ensures p
      (fun w past => (∀ e ∈ es, e.1 = id → e.2 = f) ∧ Between worker p id f w past)
      (decodeAll attempts es) (Gathered worker p id f) :=
  Ensures.pure fun hes => keeps_plainly (decodes_decodeAll attempts hes)

theorem keeps_readMessages (consumer : String) (count : ℕ) :
    (logic worker p id f).Ensures p (Between worker p id f) (readMessages consumer count)
      (Gathered worker p id f) := by
  unfold readMessages
  refine Ensures.bind (keeps_entries (R := fun es => ∀ e ∈ es, e.1 = id → e.2 = f) trivial ?_) ?_ ?_
  · rintro w w' es hmain ⟨hes, -⟩ e he
    obtain rfl := Except.ok.inj hes
    exact hmain e (Group.mem_of_mem_unread he)
  · intro es
    exact (keeps_decoding _ es).pre fun w past h => ⟨h.2 es rfl, h.1⟩
  · intro e w past h
    exact ⟨h.1, fun ms hms => by cases hms⟩

theorem keeps_claimEntries (consumer : String) (minIdle : ℕ) (pending : List (StreamId × ℕ × ℕ)) :
    (logic worker p id f).Ensures p (Between worker p id f) (claimEntries consumer minIdle pending)
      (Gathered worker p id f) := by
  induction pending with
  | nil =>
    intro w past h
    refine ⟨h, fun ms hms => ?_⟩
    obtain rfl := Except.ok.inj hms
    intro m hm
    cases hm
  | cons x xs ih =>
    obtain ⟨i, idle, times⟩ := x
    have herr : ∀ e w past, Between worker p id f w past → Gathered worker p id f (.error e) w past :=
      fun e w past h => ⟨h, fun ms hms => by cases hms⟩
    unfold claimEntries
    split_ifs
    · refine Ensures.bind (keeps_entries (R := fun es => ∀ e ∈ es, e.1 = id → e.2 = f) trivial ?_) ?_
        fun e w past h => herr e w past h.1
      · intro w w' es hmain hx e he
        simp only [Op.run] at hx
        split_ifs at hx
        · obtain rfl := Except.ok.inj hx.1
          exact hmain e (List.mem_filter.mp he).1
        · obtain rfl := Except.ok.inj hx.1
          cases he
      intro es
      refine Ensures.bind ((keeps_decoding _ es).pre fun w past h => ⟨h.2 es rfl, h.1⟩) ?_
        fun e w past h => herr e w past h.1
      intro ms
      refine (Ensures.pure fun hms => ?_).pre fun w past h => ⟨h.2, h.1⟩
      refine Ensures.bind ih ?_ fun e w past h => herr e w past h.1
      rintro ms' w past ⟨h, hms'⟩
      refine ⟨h, fun all hall => ?_⟩
      obtain rfl := Except.ok.inj hall
      intro m hm
      rcases List.mem_append.mp hm with hm | hm
      · exact hms ms rfl m hm
      · exact hms' ms' rfl m hm
    · exact ih

theorem keeps_claimStaleMessage (consumer : String) (minIdle count : ℕ) :
    (logic worker p id f).Ensures p (Between worker p id f)
      (claimStaleMessage consumer minIdle count) (Gathered worker p id f) := by
  unfold claimStaleMessage
  refine Ensures.bind (keeps_plain trivial) (fun pending => keeps_claimEntries _ _ pending) ?_
  exact fun e w past h => ⟨h, fun ms hms => by cases hms⟩

theorem keeps_turn (hW : HandlersApart worker) {h : Handler}
    (hh : worker.getHandler f.loads = .ok (some h)) :
    (logic worker p id f).Ensures p (Between worker p id f) worker.turn
      fun _ => Between worker p id f := by
  have loop : ∀ {ms : List Message}, Faithful id f ms → (logic worker p id f).Ensures p
      (Between worker p id f) (Prog.forEach worker.processOne ms) fun _ => Between worker p id f :=
    fun hms => Ensures.forEachInv fun m hm => keeps_processOne hW hh (hms m hm)
  have fetched : ∀ ms, (logic worker p id f).Ensures p (Gathered worker p id f (.ok ms))
      (Prog.forEach worker.processOne ms) fun _ => Between worker p id f := by
    intro ms
    exact (Ensures.pure fun hms => loop (hms ms rfl)).pre fun w past h => ⟨h.2, h.1⟩
  unfold Worker.turn
  refine Ensures.tryCatch (m := fun _ => Between worker p id f) ?_ (fun _ _ _ h => h) fun _ _ _ h => h
  refine Ensures.bind (m := fun _ => Between worker p id f) ?_ (fun _ _ _ h => h) fun _ _ _ h => h
  unfold Worker.processBatch
  refine Ensures.bind (keeps_claimStaleMessage _ _ _) ?_ fun _ _ _ h => h.1
  intro stale
  refine Ensures.bind (fetched stale) ?_ fun _ _ _ h => h
  intro _
  exact Ensures.bind (keeps_readMessages _ _) (fun messages => fetched messages) fun _ _ _ h => h.1

theorem keeps_turns (hW : HandlersApart worker) {h : Handler}
    (hh : worker.getHandler f.loads = .ok (some h)) (n : ℕ) :
    (logic worker p id f).Ensures p (Between worker p id f) (turns worker n)
      fun _ => Between worker p id f := by
  induction n with
  | zero => exact fun _ _ h => h
  | succ n ih => exact Ensures.bind (keeps_turn hW hh) (fun _ => ih) fun _ _ _ h => h

theorem sound (hW : HandlersApart worker) {h : Handler}
    (hh : worker.getHandler f.loads = .ok (some h)) : (logic worker p id f).Sound where
  prog q n w past w' _ _ := by
    by_cases hq : q = p
    · subst hq
      refine ((keeps_turns hW hh n).pre ?_).mono fun _ _ _ _ => trivial
      rintro w past ⟨hstart, -⟩
      exact ⟨0, 0, by rw [hstart rfl]; exact .none⟩
    · exact (Ensures.ofAll (all_true _) fun op w past _ _ hqp => absurd hqp hq).mono
        fun _ _ _ _ => trivial
  start q w past a w' _ _ _ hp h := by
    rintro rfl
    exact (callsOf_other hp).trans (h rfl)
  begin w past q n h := by
    rintro rfl
    exact callsOf_spawn.trans (h rfl)
  spawn w past q n h _ := by
    obtain ⟨n', k, hcalls⟩ := h
    exact ⟨n', k, by rwa [callsOf_spawn]⟩
  run flt w past q op r w' h hg _ hc := by
    obtain rfl : q = p := by simpa [Act.pid] using hc.1
    obtain ⟨n, k, hcalls⟩ := hg rfl r
    exact ⟨n, k, by rwa [callsOf_own]⟩
  crash w past q h _ := by
    obtain ⟨n, k, hcalls⟩ := h
    exact ⟨n, k, by rwa [callsOf_crash]⟩
  outer w past x h _ := by
    obtain ⟨n, k, hcalls⟩ := h
    exact ⟨n, k, by rwa [callsOf_outer]⟩

end Handing

open Handing in
/-- **Hand-overs are executions.**  In a run of the worker alone over a stream with the entry `(id, f)`:
the operations of the worker hold one execution of the handler for each hand-over of the message that was
counted, the last one perhaps unfinished, and one that failed for each failure. -/
theorem handles_run {c : Consumer} {tr : List Event} {w₀ : World} (hW : HandlersApart worker)
    {h : Handler} (hh : worker.getHandler f.loads = .ok (some h))
    (hr : Lts.Run (Lts.restrict (Step (consumer worker)) fun c a _ =>
      (a.pid = none ∨ a.pid = some p) ∧ ∀ e ∈ c.world.main.entries, e.1 = id → e.2 = f)
      (.init w₀) tr c) :
    Handles worker id f (handed id tr) (failures id tr) (callsOf p tr) := by
  have hinit : (logic worker p id f).Holds (.init w₀) :=
    Holds.init ⟨0, 0, .between .none⟩ fun _ _ => rfl
  have hstep : ∀ (c : Consumer) (a : Event) (c' : Consumer), (logic worker p id f).inv c.world c.past →
      (∀ b ∈ c.past, b.pid = none ∨ b.pid = some p) → Step (consumer worker) c a c' →
      Allows (logic worker p id f).Guarded c a c' → True →
      ∀ b ∈ c'.past, b.pid = none ∨ b.pid = some p := by
    intro c a c' _ hpids hs hg _ b hb
    rw [hs.wstep.2] at hb
    rcases List.mem_append.mp hb with hb | hb
    · exact hpids b hb
    · rw [List.mem_singleton.mp hb]
      exact hg.1.1
  obtain ⟨hH, hpids⟩ := (sound hW hh).derive (P := fun _ _ _ => True)
    (J := fun c => ∀ a ∈ c.past, a.pid = none ∨ a.pid = some p)
    (hr.mono fun c a c' hs => ⟨hs.1, hs.2, trivial⟩) hinit (by simp [Config.init]) hstep
  have hpast : c.past = tr := by rw [run_past hr.of_restrict]; rfl
  rw [hpast] at hpids
  obtain ⟨n, k, hcalls⟩ := hH.inv
  rw [hpast] at hcalls
  obtain ⟨hn, hk⟩ := hcalls.counted hW
  obtain ⟨hhanded, hfailures⟩ := counted_past hpids
  rwa [hhanded, hfailures, hn, hk]

end Lifecycle

end PaymentRecon
