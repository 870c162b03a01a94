import Mathlib.Data.Multiset.AddSub
import PaymentRecon.Model.Ordinary
import PaymentRecon.Play
import PaymentRecon.Tables.Growth

/-!
# Conserved — replays move dead letters, unless two of them read the same one

A replay reads the entry with XRANGE and moves it in one MULTI/EXEC.  When the entry is gone by then,
the EXEC appends it once more and deletes nothing.  That is the only way in which the two streams
together gain an entry, and they never lose one.
-/

namespace PaymentRecon

open Interleave Streams Rely

namespace Replay

variable {p : Pid} {w w' : World} {past : List Label} {a : Label} {id : StreamId}

/-! ## What the streams hold -/

/-- All fields of an entry but the counter of attempts, which a replay resets. -/
def payload (f : Fields) : Fields := { f with attempts := none }

/-- The payloads of the dead letters and of the main stream. -/
def contents (w : World) : Multiset Fields :=
  (w.main.entries.map fun e => payload e.2 : List Fields) +
    (w.dead.entries.map fun e => payload e.2 : List Fields)

/-- The id of the dead letter that the step appends to the main stream and deletes. -/
def movedId : Label → Option StreamId
  | .run _ .failed _ _ => none
  | .run _ _ (.moveDead _ x) _ => some x.lo
  | _ => none

def Moves (id : StreamId) (a : Label) : Prop := movedId a = some id

instance (id : StreamId) (a : Label) : Decidable (Moves id a) :=
  inferInstanceAs (Decidable (_ = _))

/-- How often the dead letter `id` was appended to the main stream. -/
def appended (id : StreamId) (tr : List Label) : ℕ := tr.countP fun a => Moves id a

/-- Dead letters are replayed by their full ids, and no other requests run. -/
def Replaying : StepCond := fun _ _ a _ =>
  match a with
  | .spawn _ (.replayDlq x) => x.seq ≠ none
  | .spawn _ _ => False
  | _ => True

/-- A dead letter that is moved is still there. -/
def Present : StepCond := fun w _ a _ => ∀ id, Moves id a → ∃ e ∈ w.dead.entries, e.1 = id

/-! ## The promise of a replay -/

def Lawful (w : World) : Op → Prop
  | .moveDead f x => ∃ g, f = { g with attempts := some 0 } ∧ w.Serves x g
  | .xrangeDead _ => True
  | _ => False

def logic : Rely sig Exc Response World Request Tick where
  machine := system
  cond := Replaying
  inv := fun _ _ => True
  start := fun _ => top
  guard := fun _ w _ => Lawful w
  final := fun _ _ => top

theorem keeps_replayDlqDashboard (x : IdArg) :
    logic.Ensures p top (replayDlqDashboard x) fun _ => top := by
  have hread : logic.Ensures p top (await (.xrangeDead x))
      (whenOk fun es w _ => ∀ e rest, es = e :: rest → w.Serves x e.2) := by
    refine Ensures.perform (stable_whenOk fun es => ?_) (fun _ _ _ _ => trivial) ?_
    · exact fun w past a w' _ hw _ _ h e rest heq => wstep_serves hw (h e rest heq)
    · intro f w past r w' _ _ hx _
      rcases exec_cases hx with ⟨rfl, rfl⟩ | ⟨-, e, -, rfl⟩ | ⟨-, r₀, -, e, -, rfl⟩
      · exact fun e rest heq => xrange_serves heq
      · trivial
      · trivial
  unfold replayDlqDashboard
  refine Ensures.bind (m := fun _ => top) ?_ ?_ fun _ _ _ _ => trivial
  · unfold replayMessage
    refine Ensures.bind hread ?_ fun _ _ _ _ => trivial
    intro es
    match es with
    | [] => exact fun _ _ _ => trivial
    | e :: rest =>
      refine Ensures.bind (m := fun _ => top) (Ensures.perform (fun _ => Persistent.true.stable)
        ?_ fun _ _ _ _ _ _ _ _ _ => trivial) (fun _ _ _ _ => trivial) fun _ _ _ _ => trivial
      exact fun w past _ h => ⟨e.2, rfl, h e rest rfl⟩
  · rintro (_ | x) <;> exact fun _ _ _ => trivial

theorem sound : logic.Sound where
  prog p q _ _ _ _ hc := by
    cases q with
    | replayDlq x => exact (keeps_replayDlqDashboard x).pre fun _ _ _ => trivial
    | _ => exact hc.elim
  start _ := Persistent.true.stable
  begin _ _ _ _ h := h
  spawn _ _ _ _ _ _ := trivial
  run _ _ _ _ _ _ _ _ _ _ _ := trivial
  crash _ _ _ _ _ := trivial
  outer _ _ _ _ _ := trivial

/-! ## One step -/

/-- Either the step moves a dead letter, or it leaves both streams as they are. -/
theorem streams_step (hw : system.WStep w a w') (hg : logic.Guarded w past a w') :
    (w'.main = w.main ∧ w'.dead = w.dead ∧ ∀ id, ¬ Moves id a) ∨
      ∃ g x, w.Serves x g ∧ w'.main = w.main.xadd w.clock { g with attempts := some 0 } ∧
        w'.dead = w.dead.xdel x.lo ∧ ∀ id, Moves id a ↔ x.lo = id := by
  cases a with
  | spawn q r =>
    obtain rfl : w' = w := hw
    exact Or.inl ⟨rfl, rfl, fun _ => by simp [Moves, movedId]⟩
  | run q f op r =>
    have hlaw : Lawful w op := hg.2 q f op r rfl
    by_cases hf : f = .failed
    · subst hf
      obtain ⟨rfl, -⟩ := hw
      exact Or.inl ⟨rfl, rfl, fun _ => by simp [Moves, movedId]⟩
    · cases op with
      | moveDead g x =>
        obtain ⟨g, rfl, hserves⟩ := hlaw
        obtain ⟨r₀, heff⟩ := exec_taken hw hf
        refine Or.inr ⟨g, x, hserves, heff.main, heff.dead, fun id => ?_⟩
        cases f <;> simp_all [Moves, movedId]
      | xrangeDead x =>
        obtain ⟨r₀, heff⟩ := exec_taken hw hf
        refine Or.inl ⟨heff.main, heff.dead, fun id => ?_⟩
        cases f <;> simp [Moves, movedId]
      | _ => exact hlaw.elim
  | crash q =>
    obtain rfl : w' = w.rollback q := hw
    exact Or.inl ⟨rfl, rfl, fun _ => by simp [Moves, movedId]⟩
  | outer x =>
    obtain rfl : w' = w.tick x := hw
    cases x
    exact Or.inl ⟨rfl, rfl, fun _ => by simp [Moves, movedId]⟩

/-- What a step makes of the contents: a move of a dead letter that is there keeps them, any other move
adds a payload. -/
theorem contents_step (hw : system.WStep w a w') (hg : logic.Guarded w past a w') :
    (contents w' = contents w ∧ Present w past a w') ∨
      ¬ Present w past a w' ∧ ∃ f, contents w' = f ::ₘ contents w := by
  rcases streams_step hw hg with ⟨hmain, hdead, hno⟩ | ⟨g, x, hserves, hmain, hdead, hmoves⟩
  · exact Or.inl ⟨by rw [contents, hmain, hdead, contents], fun id h => absurd h (hno id)⟩
  · have happend : ((w'.main.entries.map fun e => payload e.2 : List Fields) : Multiset Fields) =
        payload g ::ₘ (w.main.entries.map fun e => payload e.2 : List Fields) := by
      rw [hmain, Stream.xadd, List.map_append, ← Multiset.coe_add, Multiset.add_comm]
      rfl
    by_cases hthere : ∃ e ∈ w.dead.entries, e.1 = x.lo
    · obtain ⟨e, he, hid⟩ := hthere
      refine Or.inl ⟨?_, fun id h => ⟨e, he, hid.trans ((hmoves id).mp h)⟩⟩
      have hg' : e.2 = g := hserves.1 e he hid
      have htake : ((w.dead.entries.map fun e => payload e.2 : List Fields) : Multiset Fields) =
          payload g ::ₘ (w'.dead.entries.map fun e => payload e.2 : List Fields) := by
        rw [hdead, ← hid, ← hg']
        exact Multiset.coe_eq_coe.mpr ((Stream.perm_xdel he).map fun e => payload e.2)
      rw [contents, happend, contents, htake, Multiset.cons_add, Multiset.add_cons]
    · refine Or.inr ⟨fun hp => hthere (hp x.lo ((hmoves x.lo).mpr rfl)), payload g, ?_⟩
      have hsame : w'.dead.entries = w.dead.entries := by
        rw [hdead]
        exact Stream.xdel_of_absent fun e he hid => hthere ⟨e, he, hid⟩
      rw [contents, happend, contents, hsame, Multiset.cons_add]

/-- A dead letter from the start is gone exactly when it was moved, and it was moved once at most. -/
structure Tracked (w₀ w : World) (past : List Label) : Prop where
  once : ∀ e ∈ w₀.dead.entries, appended e.1 past ≤ 1
  left : ∀ e ∈ w₀.dead.entries, e ∈ w.dead.entries ↔ appended e.1 past = 0
  from_start : ∀ e ∈ w.dead.entries, e ∈ w₀.dead.entries

theorem appended_step : appended id (past ++ [a]) = appended id past + if Moves id a then 1 else 0 := by
  simp [appended, List.countP_append, List.countP_singleton]

theorem Tracked.step {w₀ : World} (h : Tracked w₀ w past) (hw : system.WStep w a w')
    (hg : logic.Guarded w past a w') (hp : Present w past a w') : Tracked w₀ w' (past ++ [a]) := by
  rcases streams_step hw hg with ⟨-, hdead, hno⟩ | ⟨g, x, -, -, hdead, hmoves⟩
  · have hsame : ∀ id, appended id (past ++ [a]) = appended id past := fun id => by
      rw [appended_step, if_neg (hno id), Nat.add_zero]
    refine ⟨fun e he => (hsame e.1).le.trans (h.once e he), fun e he => ?_, ?_⟩
    · rw [hdead, hsame]
      exact h.left e he
    · rw [hdead]
      exact h.from_start
  · have hleft : ∀ e, e ∈ w'.dead.entries ↔ e ∈ w.dead.entries ∧ e.1 ≠ x.lo := fun e => by
      rw [hdead]
      exact Stream.mem_xdel
    have hcount : ∀ e ∈ w₀.dead.entries, appended e.1 past = 0 ∨ e.1 ≠ x.lo := by
      intro e he
      by_cases hid : e.1 = x.lo
      · obtain ⟨e', he', hid'⟩ := hp x.lo ((hmoves x.lo).mpr rfl)
        obtain rfl := Stream.eq_of_id he (h.from_start e' he') (hid.trans hid'.symm)
        exact Or.inl ((h.left e he).mp he')
      · exact Or.inr hid
    refine ⟨fun e he => ?_, fun e he => ?_, fun e he => h.from_start e ((hleft e).mp he).1⟩
    · rw [appended_step]
      rcases hcount e he with h0 | hne
      · rw [h0]
        split_ifs <;> omega
      · rw [if_neg fun hm => hne ((hmoves e.1).mp hm).symm]
        exact h.once e he
    · rw [appended_step, hleft, h.left e he]
      by_cases hid : e.1 = x.lo
      · rw [if_pos ((hmoves e.1).mpr hid.symm)]
        constructor
        · exact fun hn => absurd hid hn.2
        · exact fun hn => absurd hn (by omega)
      · rw [if_neg fun hm => hid ((hmoves e.1).mp hm).symm]
        simp [hid]

/-! ## Runs -/

/-- The dead letters are conserved: the two streams hold what they held at the start, and a dead letter
was appended to the main stream once when it is gone, and else not at all. -/
structure Conserved (w₀ : World) (tr : List Label) (w : World) : Prop where
  contents : contents w = contents w₀
  once : ∀ e ∈ w₀.dead.entries, appended e.1 tr ≤ 1
  left : ∀ e ∈ w₀.dead.entries, e ∈ w.dead.entries ↔ appended e.1 tr = 0

/-- The runs in which every dead letter is still there when it is moved. -/
abbrev PresentSteps : State → Label → State → Prop :=
  Lts.restrict Steps fun c a c' => Allows Replaying c a c' ∧ Allows Present c a c'

theorem guarded_run {w₀ : World} {tr : List Label} {c : State}
    (hr : Lts.Run (StepsIf Replaying) (.init w₀) tr c) : logic.Holds c :=
  (sound.derive (P := fun _ _ _ => True) (J := fun _ => True)
    (hr.mono fun _ _ _ h => ⟨h.1, h.2, trivial⟩) (Holds.init trivial fun _ => trivial) trivial
    fun _ _ _ _ _ _ _ _ => trivial).1

theorem conserved_run {w₀ : World} {tr : List Label} {c : State}
    (hr : Lts.Run PresentSteps (.init w₀) tr c) : Conserved w₀ tr c.world := by
  have h := (sound.derive (P := fun c a c' => Allows Present c a c')
    (J := fun c => contents c.world = contents w₀ ∧ Tracked w₀ c.world c.past)
    hr (Holds.init trivial fun _ => trivial) ⟨rfl, ?_, ?_, fun _ h => h⟩ ?_).2
  · have hpast : c.past = tr := run_past hr.of_restrict
    rw [hpast] at h
    exact ⟨h.1, h.2.once, h.2.left⟩
  · intro e _
    exact Nat.zero_le 1
  · intro e he
    exact ⟨fun _ => rfl, fun _ => he⟩
  · intro c a c' _ hJ hs hg hp
    obtain ⟨hw, hpast⟩ := hs.wstep
    rw [hpast]
    refine ⟨?_, hJ.2.step hw hg hp⟩
    rcases contents_step hw hg with ⟨heq, -⟩ | ⟨hnot, -⟩
    · exact heq.trans hJ.1
    · exact absurd hp hnot

/-- A run that keeps the contents moves only dead letters that are there. -/
theorem present_of_contents {w₀ : World} {tr : List Label} {c : State}
    (hr : Lts.Run (StepsIf Replaying) (.init w₀) tr c) :
    contents w₀ ≤ contents c.world ∧
      (contents c.world = contents w₀ → Lts.Run PresentSteps (.init w₀) tr c) := by
  induction hr with
  | nil => exact ⟨le_rfl, fun _ => .nil⟩
  | @snoc tr c c' a hr hs ih =>
    obtain ⟨hle, hpresent⟩ := ih
    have hg := (sound.step hs.1 hs.2 (guarded_run hr)).1
    rcases contents_step hs.1.wstep.1 hg with ⟨heq, hp⟩ | ⟨-, f, hcons⟩
    · rw [heq]
      exact ⟨hle, fun h => (hpresent h).snoc ⟨hs.1, hs.2, hp⟩⟩
    · rw [hcons]
      refine ⟨hle.trans (Multiset.le_cons_self _ f), fun h => ?_⟩
      have hcard := Multiset.card_le_card hle
      rw [← h, Multiset.card_cons] at hcard
      omega

/-- **Replays conserve dead letters exactly when none is moved that is already gone.**  For any number
of replays at once, with crashes and failures: the law holds after a run if and only if every EXEC that
took effect met its dead letter still in the dead-letter stream. -/
theorem replay_conserves {w₀ : World} {tr : List Label} {c : State}
    (hr : Lts.Run (StepsIf Replaying) (.init w₀) tr c) :
    Conserved w₀ tr c.world ↔ Lts.Run PresentSteps (.init w₀) tr c :=
  ⟨fun h => (present_of_contents hr).2 h.contents, conserved_run⟩

/-- Replays go by full ids. -/
def replaying : Check := .label fun a => match a with
  | .spawn _ (.replayDlq x) => x.seq.isSome
  | .spawn _ _ => false
  | _ => true

theorem replaying_steps {c c' : State} (h : replaying.Steps c a c') : StepsIf Replaying c a c' := by
  obtain ⟨hs, htest⟩ := h
  refine ⟨hs, ?_⟩
  cases a with
  | spawn q r =>
    cases r with
    | replayDlq x => exact Option.isSome_iff_ne_none.mp htest
    | _ => exact absurd htest (by simp [replaying, Check.label])
  | _ => trivial

/-- One dead letter, as a worker leaves it. -/
def lettered : World :=
  { World.empty with
    dead := Stream.empty.xadd 1 { Fields.none with
      data := some (transactionData 1 "tx_1" 1500001), originalId := some (toLex (1, 0)),
      attempts := some 3, failedAt := some 1 } }

theorem lettered_closed : lettered.Closed := fun _ => rfl

/-- The id of the dead letter, in full. -/
def letterId : IdArg := ⟨1, some 0⟩

/-- Two replays of the dead letter, one after the other. -/
theorem replay_conserves_sample : ∃ (tr : List Label) (c : State),
    Lts.Run (StepsIf Replaying) (.init lettered) tr c ∧ appended letterId.lo tr = 1 ∧
      (Conserved lettered tr c.world ↔ Lts.Run PresentSteps (.init lettered) tr c) := by
  obtain ⟨tr, c, hr, htest, -⟩ := plays_run 2 replaying
    (.spawn 0 (.replayDlq letterId) :: Move.goes 0 2 ++
      .spawn 1 (.replayDlq letterId) :: Move.goes 1 1)
    (fun c => appended letterId.lo c.past = 1) (by decide +kernel) lettered_closed
  have hr := hr.mono fun _ _ _ => replaying_steps
  have hpast : c.past = tr := run_past hr.of_restrict
  exact ⟨tr, c, hr, hpast ▸ of_decide_eq_true htest, replay_conserves hr⟩

/-- Two replays that read the dead letter before either of them moves it append it twice. -/
theorem replayed_twice : ∃ (tr : List Label) (c : State),
    Lts.Run (StepsIf Replaying) (.init lettered) tr c ∧
      ∃ e ∈ lettered.dead.entries, appended e.1 tr = 2 ∧ ¬ Conserved lettered tr c.world := by
  obtain ⟨tr, c, hr, htest, -⟩ := plays_run 2 replaying
    (.spawn 0 (.replayDlq letterId) :: Move.goes 0 1 ++
      .spawn 1 (.replayDlq letterId) :: Move.goes 1 1 ++ Move.goes 0 1 ++ Move.goes 1 1)
    (fun c => appended letterId.lo c.past = 2) (by decide +kernel) lettered_closed
  have hr := hr.mono fun _ _ _ => replaying_steps
  have hpast : c.past = tr := run_past hr.of_restrict
  have htwice : appended letterId.lo tr = 2 := hpast ▸ of_decide_eq_true htest
  refine ⟨tr, c, hr, _, List.mem_singleton_self _, htwice, fun h => ?_⟩
  have honce := h.once _ (List.mem_singleton_self _)
  exact absurd (htwice ▸ honce : 2 ≤ 1) (by decide)

end Replay

end PaymentRecon
