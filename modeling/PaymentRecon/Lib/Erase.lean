import PaymentRecon.Lib.Prog

/-!
# Erase — runs with one thread left out

A thread whose steps change nothing but its own session can be left out of a run: no other thread can tell,
and the run without its steps leads to the same world, its session apart.
-/

namespace Interleave

open Lts

variable {S : Sig} {E α W Q X : Type} {M : Machine S E α W Q X} {p : Pid} {hide : W → W} {I : W → Prop}
  {c c' : Config S E α W Q X} {a : Act S E Q X} {tr : List (Act S E Q X)}

/-- The steps of the other threads. -/
def without (p : Pid) (tr : List (Act S E Q X)) : List (Act S E Q X) := tr.filter fun a => a.pid ≠ some p

/-- The configuration without the thread. -/
def Config.leave (p : Pid) (hide : W → W) (c : Config S E α W Q X) : Config S E α W Q X :=
  ⟨hide c.world, Function.update c.thread p .fresh, without p c.past⟩

/-- What the other threads do in a world with `I`, they do in the world without the session of `p`. -/
structure Hides (M : Machine S E α W Q X) (p : Pid) (hide : W → W) (I : W → Prop) : Prop where
  exec : ∀ f q op w r w', q ≠ p → I w → M.exec f q op w r w' → M.exec f q op (hide w) r (hide w')
  abort : ∀ q w, q ≠ p → hide (M.abort q w) = M.abort q (hide w)
  outer : ∀ x w, hide (M.outer x w) = M.outer x (hide w)

theorem without_other (h : a.pid ≠ some p) : without p (tr ++ [a]) = without p tr ++ [a] := by
  simp [without, h]

theorem without_own (h : a.pid = some p) : without p (tr ++ [a]) = without p tr := by
  simp [without, h]

theorem without_append {tr' : List (Act S E Q X)} :
    without p (tr ++ tr') = without p tr ++ without p tr' := List.filter_append _ _

/-- A thread that took no step is left out at once. -/
theorem without_unlabelled (h : ∀ a ∈ tr, a.pid ≠ some p) : without p tr = tr :=
  List.filter_eq_self.mpr fun a ha => decide_eq_true (h a ha)

/-- A step of another thread. -/
theorem Hides.other (h : Hides M p hide I) (hs : Step M c a c') (hI : I c.world) (hp : a.pid ≠ some p) :
    Step M (c.leave p hide) a (c'.leave p hide) := by
  have hthread : ∀ {q : Pid} {x y : Thread S E α}, q ≠ p → c.thread q = x →
      Function.update c.thread p .fresh q = x ∧
        Function.update (Function.update c.thread q y) p .fresh =
          Function.update (Function.update c.thread p .fresh) q y := by
    intro q x y hq hx
    exact ⟨by rw [Function.update_of_ne hq, hx], Function.update_comm hq _ _ _⟩
  have hpast : without p (c.past ++ [a]) = without p c.past ++ [a] := without_other hp
  cases hs with
  | @spawn q y ht =>
    have hq : q ≠ p := fun heq => hp (heq ▸ rfl)
    obtain ⟨hfresh, hupdate⟩ := hthread (y := .live (M.prog y)) hq ht
    have hstep := Step.spawn (M := M) (c := c.leave p hide) (q := y) hfresh
    simpa only [Config.next, Config.leave, hupdate, hpast] using hstep
  | @run q f op k r w' ht hx =>
    have hq : q ≠ p := fun heq => hp (heq ▸ rfl)
    obtain ⟨hlive, hupdate⟩ := hthread (y := .live (k r)) hq ht
    have hstep := Step.run (M := M) (c := c.leave p hide) hlive (h.exec f q op _ r w' hq hI hx)
    simpa only [Config.next, Config.leave, hupdate, hpast] using hstep
  | @crash q op k ht =>
    have hq : q ≠ p := fun heq => hp (heq ▸ rfl)
    obtain ⟨hlive, hupdate⟩ := hthread (y := .crashed) hq ht
    have hstep := Step.crash (M := M) (c := c.leave p hide) hlive
    simpa only [Config.next, Config.leave, hupdate, hpast, h.abort q c.world hq] using hstep
  | @outer x =>
    have hstep := Step.outer (M := M) (c := c.leave p hide) (x := x)
    simpa only [Config.next, Config.leave, hpast, h.outer x c.world] using hstep

/-- A step of the thread that only touches its session. -/
theorem Config.leave_own (hs : Step M c a c') (hp : a.pid = some p)
    (hw : hide c'.world = hide c.world) : c'.leave p hide = c.leave p hide := by
  have hpast : c'.past = c.past ++ [a] := hs.wstep.2
  have hthread : Function.update c'.thread p .fresh = Function.update c.thread p .fresh := by
    cases hs with
    | spawn _ =>
      obtain rfl := Option.some.inj hp
      exact Function.update_idem _ _ _
    | run _ _ =>
      obtain rfl := Option.some.inj hp
      exact Function.update_idem _ _ _
    | crash _ =>
      obtain rfl := Option.some.inj hp
      exact Function.update_idem _ _ _
    | outer => exact absurd hp (by simp [Act.pid])
  rw [Config.leave, Config.leave, hw, hthread, hpast, without_own hp]

/-- **A thread that only touches its session can be left out.** -/
theorem Hides.run (h : Hides M p hide I)
    (hr : Run (restrict (Step M) fun c a c' =>
      I c.world ∧ (a.pid = some p → hide c'.world = hide c.world)) c tr c') :
    Run (Step M) (c.leave p hide) (without p tr) (c'.leave p hide) := by
  induction hr with
  | nil => exact .nil
  | @snoc tr c₁ c₂ a _ hs ih =>
    obtain ⟨hs, hI, hown⟩ := hs
    by_cases hp : a.pid = some p
    · rw [without_own hp, Config.leave_own hs hp (hown hp)]
      exact ih
    · rw [without_other hp]
      exact .snoc ih (h.other hs hI hp)

end Interleave
