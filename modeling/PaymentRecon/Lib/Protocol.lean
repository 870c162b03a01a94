import PaymentRecon.Lib.Prog

/-!
# Protocol — compositional invariants of interleaved programs

A protocol gives every thread a ghost state and ties the world, the past and all ghost states
together by one invariant.  `Meets x post g`: whenever thread `p` has ghost state `g` and runs `x`,
each of its operations keeps the invariant, if need be with a new ghost state for `p`, and `x` ends
in a ghost state with `post`.  The rules for `bind`, `tryCatch` and `forEach` build the proof of a
program from the proofs of its parts; `Protocol.sound` is the one induction over runs.
-/

namespace Interleave

variable {S : Sig} {E α β W Q X G : Type}

/-- The steps that `cond`, a condition on worlds, past and label, lets through. -/
def Allows (cond : W → List (Act S E Q X) → Act S E Q X → W → Prop)
    (c : Config S E α W Q X) (a : Act S E Q X) (c' : Config S E α W Q X) : Prop :=
  cond c.world c.past a c'.world

/-- The ghost states, what the steps are known to meet, the invariant, and how a thread starts and
ends. -/
structure Protocol (S : Sig) (E α W Q X G : Type) where
  cond : W → List (Act S E Q X) → Act S E Q X → W → Prop
  inv : W → List (Act S E Q X) → (Pid → G) → Prop
  idle : G
  final : Pid → Except E α → G → Prop

namespace Protocol

variable (P : Protocol S E α W Q X G) (M : Machine S E α W Q X)

/-- Thread `p` may run the program from the ghost state `g` and ends with `post`. -/
def Meets (p : Pid) : Prog S E β → (Except E β → G → Prop) → G → Prop
  | .ret a, post, g => post (.ok a) g
  | .raise e, post, g => post (.error e) g
  | .call op k, post, g => ∀ f w past gs r w', P.inv w past gs → gs p = g →
      M.exec f p op w r w' → P.cond w past (.run p f op r) w' →
      ∃ g', P.inv w' (past ++ [.run p f op r]) (Function.update gs p g') ∧
        Meets p (k r) post g'

variable {P M} {p : Pid} {g : G}

@[simp] theorem meets_ret {a : β} {post : Except E β → G → Prop} :
    P.Meets M p (.ret a) post g ↔ post (.ok a) g := Iff.rfl

@[simp] theorem meets_raise {e : E} {post : Except E β → G → Prop} :
    P.Meets M p (.raise e) post g ↔ post (.error e) g := Iff.rfl

theorem Meets.mono {x : Prog S E β} {post post' : Except E β → G → Prop}
    (h : P.Meets M p x post g) (himp : ∀ r g, post r g → post' r g) :
    P.Meets M p x post' g := by
  induction x generalizing g with
  | ret a => exact himp _ _ h
  | raise e => exact himp _ _ h
  | call op k ih =>
    intro f w past gs r w' hI hg hx hc
    obtain ⟨g', hI', hk⟩ := h f w past gs r w' hI hg hx hc
    exact ⟨g', hI', ih r hk⟩

/-- **Sequencing.** -/
theorem Meets.bind {γ : Type} {x : Prog S E β} {f : β → Prog S E γ}
    {m : Except E β → G → Prop} {post : Except E γ → G → Prop} (hx : P.Meets M p x m g)
    (hok : ∀ a g, m (.ok a) g → P.Meets M p (f a) post g)
    (herr : ∀ e g, m (.error e) g → post (.error e) g) :
    P.Meets M p (x >>= f) post g := by
  induction x generalizing g with
  | ret a => exact hok _ _ hx
  | raise e => exact herr _ _ hx
  | call op k ih =>
    intro f w past gs r w' hI hg hex hc
    obtain ⟨g', hI', hk⟩ := hx f w past gs r w' hI hg hex hc
    exact ⟨g', hI', ih r hk⟩

/-- **Exception handling.** -/
theorem Meets.tryCatch {x : Prog S E β} {h : E → Prog S E β}
    {m post : Except E β → G → Prop} (hx : P.Meets M p x m g)
    (hok : ∀ a g, m (.ok a) g → post (.ok a) g)
    (herr : ∀ e g, m (.error e) g → P.Meets M p (h e) post g) :
    P.Meets M p (x.tryCatch h) post g := by
  induction x generalizing g with
  | ret a => exact hok _ _ hx
  | raise e => exact herr _ _ hx
  | call op k ih =>
    intro f w past gs r w' hI hg hex hc
    obtain ⟨g', hI', hk⟩ := hx f w past gs r w' hI hg hex hc
    exact ⟨g', hI', ih r hk⟩

/-- **One operation**: the invariant is kept, and the answer fits the new ghost state. -/
theorem Meets.perform {op : S.Op} {post : Except E (S.Ret op) → G → Prop}
    (h : ∀ f w past gs r w', P.inv w past gs → gs p = g → M.exec f p op w r w' →
      P.cond w past (.run p f op r) w' →
      ∃ g', P.inv w' (past ++ [.run p f op r]) (Function.update gs p g') ∧ post r g') :
    P.Meets M p (Prog.perform op) post g := by
  intro f w past gs r w' hI hg hx hc
  obtain ⟨g', hI', hp⟩ := h f w past gs r w' hI hg hx hc
  refine ⟨g', hI', ?_⟩
  cases r with
  | ok a => exact hp
  | error e => exact hp

/-- A loop keeps a loop assertion; an exception ends it. -/
theorem Meets.forEach {f : β → Prog S E Unit} {loop : G → Prop} {post : E → G → Prop}
    {xs : List β}
    (hf : ∀ x ∈ xs, ∀ g, loop g →
      P.Meets M p (f x) (fun r g => match r with | .ok _ => loop g | .error e => post e g) g)
    (hg : loop g) :
    P.Meets M p (Prog.forEach f xs)
      (fun r g => match r with | .ok _ => loop g | .error e => post e g) g := by
  induction xs generalizing g with
  | nil => exact hg
  | cons x xs ih =>
    refine Meets.bind (hf x List.mem_cons_self g hg) ?_ ?_
    · intro _ g hg
      exact ih (fun y hy => hf y (List.mem_cons_of_mem _ hy)) hg
    · intro e g he
      exact he

variable (P M)

/-- The steps that are not operations keep the invariant, and every request may run. -/
structure Sound : Prop where
  spawn : ∀ w past gs p q, P.inv w past gs → gs p = P.idle →
    P.cond w past (.spawn p q) w →
    ∃ g, P.inv w (past ++ [.spawn p q]) (Function.update gs p g) ∧
      P.Meets M p (M.prog q) (P.final p) g
  crash : ∀ w past gs p, P.inv w past gs → P.cond w past (.crash p) (M.abort p w) →
    ∃ g, P.inv (M.abort p w) (past ++ [.crash p]) (Function.update gs p g)
  outer : ∀ w past gs x, P.inv w past gs → P.cond w past (.outer x) (M.outer x w) →
    P.inv (M.outer x w) (past ++ [.outer x]) gs

/-- What the ghost state of a thread says about it. -/
def Fits (p : Pid) : Thread S E α → G → Prop
  | .fresh, g => g = P.idle
  | .live x, g => P.Meets M p x (P.final p) g
  | .crashed, _ => True

/-- The invariant, with every thread in step with its ghost state. -/
def Holds (c : Config S E α W Q X) : Prop :=
  ∃ gs, P.inv c.world c.past gs ∧ ∀ p, P.Fits M p (c.thread p) (gs p)

variable {P M}

theorem Fits.update {t : Pid → Thread S E α} {gs : Pid → G} {x : Thread S E α}
    (h : ∀ q, P.Fits M q (t q) (gs q)) (hp : P.Fits M p x g) (q : Pid) :
    P.Fits M q (Function.update t p x q) (Function.update gs p g q) := by
  by_cases hq : q = p
  · subst hq; simpa using hp
  · simpa [Function.update_of_ne hq] using h q

/-- **Step lemma**: an allowed step keeps what the protocol says. -/
theorem Sound.step (hS : P.Sound M) {c c' : Config S E α W Q X} {a : Act S E Q X}
    (hs : Step M c a c') (hc : Allows P.cond c a c') (h : P.Holds M c) : P.Holds M c' := by
  obtain ⟨gs, hI, hF⟩ := h
  cases hs with
  | @spawn p q ht =>
    have hidle : gs p = P.idle := by
      have := hF p
      rw [ht] at this
      exact this
    obtain ⟨g, hI', hm⟩ := hS.spawn _ _ _ p q hI hidle hc
    exact ⟨_, hI', Fits.update hF hm⟩
  | @run p f op k r w' ht hx =>
    have hm : P.Meets M p (.call op k) (P.final p) (gs p) := by
      have := hF p
      rw [ht] at this
      exact this
    obtain ⟨g', hI', hk⟩ := hm f _ _ gs r w' hI rfl hx hc
    exact ⟨_, hI', Fits.update hF hk⟩
  | @crash p op k ht =>
    obtain ⟨g, hI'⟩ := hS.crash _ _ _ p hI hc
    exact ⟨_, hI', fun q => by
      by_cases hq : q = p
      · subst hq; simp [Config.next, Fits]
      · simpa [Config.next, Function.update_of_ne hq] using hF q⟩
  | outer => exact ⟨gs, hS.outer _ _ _ _ hI hc, hF⟩

/-- **Run lemma**: what the protocol says holds after every run of allowed steps. -/
theorem Sound.run (hS : P.Sound M) {c c' : Config S E α W Q X} {tr : List (Act S E Q X)}
    (hr : Lts.Run (Lts.restrict (Step M) (Allows P.cond)) c tr c') (h : P.Holds M c) :
    P.Holds M c' :=
  hr.inv (P.Holds M) h fun _ _ _ hH hs => hS.step hs.1 hs.2 hH

/-- A finished thread ended as `final` says. -/
theorem Fits.final_ok {x : α} (h : P.Fits M p (.live (.ret x)) g) : P.final p (.ok x) g := h

theorem Fits.final_error {e : E} (h : P.Fits M p (.live (.raise e)) g) : P.final p (.error e) g :=
  h

end Protocol

end Interleave
