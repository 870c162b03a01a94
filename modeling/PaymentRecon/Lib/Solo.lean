import PaymentRecon.Lib.Protocol

/-!
# Solo — one thread running by itself

`Wp M p x Q w` is the total weakest precondition of the program `x` when thread `p` runs it with no
other thread in between and no fault: it comes to an end, and every way to end meets `Q`.  `Wp.run`
carries it along the steps of the interleaving.  `May M cond p x Q w past` is its angelic
counterpart: some execution, of steps that meet `cond`, ends with `Q`; `May.spawn` turns it into a run.
-/

namespace Interleave

variable {S : Sig} {E α β W Q X : Type} {M : Machine S E α W Q X} {p : Pid}

/-! ## Weakest preconditions -/

/-- No operation blocks, and every answer to every operation leads on to the postcondition. -/
def Wp (M : Machine S E α W Q X) (p : Pid) :
    Prog S E β → (Except E β → W → Prop) → W → Prop
  | .ret a, post, w => post (.ok a) w
  | .raise e, post, w => post (.error e) w
  | .call op k, post, w => (∃ r w', M.exec .done p op w r w') ∧
      ∀ r w', M.exec .done p op w r w' → Wp M p (k r) post w'

variable {w : W}

@[simp] theorem wp_ret {a : β} {post : Except E β → W → Prop} :
    Wp M p (.ret a) post w ↔ post (.ok a) w := Iff.rfl

@[simp] theorem wp_raise {e : E} {post : Except E β → W → Prop} :
    Wp M p (.raise e) post w ↔ post (.error e) w := Iff.rfl

theorem Wp.mono {x : Prog S E β} {post post' : Except E β → W → Prop} (h : Wp M p x post w)
    (himp : ∀ r w, post r w → post' r w) : Wp M p x post' w := by
  induction x generalizing w with
  | ret a => exact himp _ _ h
  | raise e => exact himp _ _ h
  | call op k ih => exact ⟨h.1, fun r w' hx => ih r (h.2 r w' hx)⟩

theorem Wp.bind {γ : Type} {x : Prog S E β} {f : β → Prog S E γ}
    {m : Except E β → W → Prop} {post : Except E γ → W → Prop} (hx : Wp M p x m w)
    (hok : ∀ a w, m (.ok a) w → Wp M p (f a) post w)
    (herr : ∀ e w, m (.error e) w → post (.error e) w) : Wp M p (x >>= f) post w := by
  induction x generalizing w with
  | ret a => exact hok _ _ hx
  | raise e => exact herr _ _ hx
  | call op k ih => exact ⟨hx.1, fun r w' hex => ih r (hx.2 r w' hex)⟩

theorem Wp.tryCatch {x : Prog S E β} {h : E → Prog S E β} {m post : Except E β → W → Prop}
    (hx : Wp M p x m w) (hok : ∀ a w, m (.ok a) w → post (.ok a) w)
    (herr : ∀ e w, m (.error e) w → Wp M p (h e) post w) : Wp M p (x.tryCatch h) post w := by
  induction x generalizing w with
  | ret a => exact hok _ _ hx
  | raise e => exact herr _ _ hx
  | call op k ih => exact ⟨hx.1, fun r w' hex => ih r (hx.2 r w' hex)⟩

theorem Wp.perform {op : S.Op} {post : Except E (S.Ret op) → W → Prop}
    (hen : ∃ r w', M.exec .done p op w r w')
    (h : ∀ r w', M.exec .done p op w r w' → post r w') : Wp M p (Prog.perform op) post w := by
  refine ⟨hen, ?_⟩
  intro r w' hx
  cases r with
  | ok a => exact h _ _ hx
  | error e => exact h _ _ hx

/-- A loop over a list: the assertion `I` speaks about the elements that are left. -/
theorem Wp.forEach {f : β → Prog S E Unit} {I : List β → W → Prop} {post : E → W → Prop}
    {xs : List β}
    (hf : ∀ x rest w, I (x :: rest) w →
      Wp M p (f x) (fun r w => match r with | .ok _ => I rest w | .error e => post e w) w)
    (h : I xs w) :
    Wp M p (Prog.forEach f xs)
      (fun r w => match r with | .ok _ => I [] w | .error e => post e w) w := by
  induction xs generalizing w with
  | nil => exact h
  | cons x xs ih =>
    refine Wp.bind (hf x xs w h) ?_ ?_
    · intro _ w hI
      exact ih hI
    · intro e w he
      exact he

/-- Only thread `p` moves, and nothing fails. -/
def Alone (p : Pid) (_ : Config S E α W Q X) (a : Act S E Q X) (_ : Config S E α W Q X) : Prop :=
  a.Clean ∧ a.pid = some p

/-- **Adequacy**: a precondition holds on along the steps of the thread, and the other threads stay
as they are. -/
theorem Wp.run {c c' : Config S E α W Q X} {tr : List (Act S E Q X)} {x : Prog S E α}
    {post : Except E α → W → Prop} (hr : Lts.Run (Lts.restrict (Step M) (Alone p)) c tr c')
    (ht : c.thread p = .live x) (h : Wp M p x post c.world) :
    (∃ y, c'.thread p = .live y ∧ Wp M p y post c'.world) ∧
      ∀ q, q ≠ p → c'.thread q = c.thread q := by
  refine hr.inv (fun c' => (∃ y, c'.thread p = .live y ∧ Wp M p y post c'.world) ∧
    ∀ q, q ≠ p → c'.thread q = c.thread q) ⟨⟨x, ht, h⟩, fun _ _ => rfl⟩ ?_
  rintro c₁ a c₂ ⟨⟨y, hy, hwp⟩, hq⟩ ⟨hs, hclean, hpid⟩
  cases hs with
  | @spawn p' q hf =>
    obtain rfl : p' = p := by simpa [Act.pid] using hpid
    rw [hf] at hy
    exact absurd hy (by simp)
  | @run p' f op k r w' hlive hx =>
    obtain rfl : p' = p := by simpa [Act.pid] using hpid
    obtain rfl : f = .done := hclean
    rw [hlive] at hy
    obtain rfl := Thread.live.inj hy
    refine ⟨⟨k r, by simp [Config.next], hwp.2 r w' hx⟩, ?_⟩
    intro q hne
    simp [Config.next, hne, hq q hne]
  | crash _ => exact hclean.elim
  | outer => simp [Act.pid] at hpid

/-! ## Possible executions -/

/-- Some execution of the program ends with the postcondition. -/
def May (M : Machine S E α W Q X)
    (cond : W → List (Act S E Q X) → Act S E Q X → W → Prop) (p : Pid) :
    Prog S E β → (Except E β → W → List (Act S E Q X) → Prop) → W → List (Act S E Q X) → Prop
  | .ret a, post, w, past => post (.ok a) w past
  | .raise e, post, w, past => post (.error e) w past
  | .call op k, post, w, past => ∃ f r w', M.exec f p op w r w' ∧ cond w past (.run p f op r) w' ∧
      May M cond p (k r) post w' (past ++ [.run p f op r])

section May

variable {cond : W → List (Act S E Q X) → Act S E Q X → W → Prop} {past : List (Act S E Q X)}
  {x : Prog S E β} {post post' : Except E β → W → List (Act S E Q X) → Prop}

theorem May.mono (h : May M cond p x post w past)
    (himp : ∀ r w past, post r w past → post' r w past) : May M cond p x post' w past := by
  induction x generalizing w past with
  | ret a => exact himp _ _ _ h
  | raise e => exact himp _ _ _ h
  | call op k ih =>
    obtain ⟨f, r, w', hx, hc, hk⟩ := h
    exact ⟨f, r, w', hx, hc, ih r hk⟩

theorem May.bind {γ : Type} {f : β → Prog S E γ}
    {m : Except E β → W → List (Act S E Q X) → Prop}
    {post : Except E γ → W → List (Act S E Q X) → Prop} (hx : May M cond p x m w past)
    (hok : ∀ a w past, m (.ok a) w past → May M cond p (f a) post w past)
    (herr : ∀ e w past, m (.error e) w past → post (.error e) w past) :
    May M cond p (x >>= f) post w past := by
  induction x generalizing w past with
  | ret a => exact hok _ _ _ hx
  | raise e => exact herr _ _ _ hx
  | call op k ih =>
    obtain ⟨f, r, w', hex, hc, hk⟩ := hx
    exact ⟨f, r, w', hex, hc, ih r hk⟩

theorem May.tryCatch {h : E → Prog S E β}
    {m : Except E β → W → List (Act S E Q X) → Prop} (hx : May M cond p x m w past)
    (hok : ∀ a w past, m (.ok a) w past → post (.ok a) w past)
    (herr : ∀ e w past, m (.error e) w past → May M cond p (h e) post w past) :
    May M cond p (x.tryCatch h) post w past := by
  induction x generalizing w past with
  | ret a => exact hok _ _ _ hx
  | raise e => exact herr _ _ _ hx
  | call op k ih =>
    obtain ⟨f, r, w', hex, hc, hk⟩ := hx
    exact ⟨f, r, w', hex, hc, ih r hk⟩

/-- One step of an execution. -/
theorem May.step {op : S.Op} {k : Except E (S.Ret op) → Prog S E β} {f : Fault}
    {r : Except E (S.Ret op)} {w' : W} (hx : M.exec f p op w r w')
    (hc : cond w past (.run p f op r) w')
    (hk : May M cond p (k r) post w' (past ++ [.run p f op r])) :
    May M cond p (.call op k) post w past := ⟨f, r, w', hx, hc, hk⟩

theorem May.perform {op : S.Op} {f : Fault} {r : Except E (S.Ret op)} {w' : W}
    {post : Except E (S.Ret op) → W → List (Act S E Q X) → Prop} (hx : M.exec f p op w r w')
    (hc : cond w past (.run p f op r) w') (hpost : post r w' (past ++ [.run p f op r])) :
    May M cond p (Prog.perform op) post w past := by
  refine ⟨f, r, w', hx, hc, ?_⟩
  cases r with
  | ok a => exact hpost
  | error e => exact hpost

/-- A total program has an execution. -/
theorem Wp.may {post : Except E β → W → Prop} (h : Wp M p x post w)
    (hc : ∀ w past op r w', M.exec .done p op w r w' → cond w past (.run p .done op r) w') :
    May M cond p x (fun r w _ => post r w) w past := by
  induction x generalizing w past with
  | ret a => exact h
  | raise e => exact h
  | call op k ih =>
    obtain ⟨⟨r, w', hx⟩, hk⟩ := h
    exact ⟨.done, r, w', hx, hc w past op r w' hx, ih r (hk r w' hx)⟩

/-- The execution is a run of the thread. -/
theorem May.run {x : Prog S E α} {post : Except E α → W → List (Act S E Q X) → Prop}
    (h : May M cond p x post w past) (t : Pid → Thread S E α) :
    ∃ as r w', post r w' (past ++ as) ∧ (∀ a ∈ as, a.pid = some p) ∧
      Lts.Run (Lts.restrict (Step M) (Allows cond)) ⟨w, Function.update t p (.live x), past⟩ as
        ⟨w', Function.update t p (.live (.ofExcept r)), past ++ as⟩ := by
  induction x generalizing w past with
  | ret a =>
    refine ⟨[], .ok a, w, ?_, by simp, ?_⟩ <;> rw [List.append_nil]
    · exact h
    · exact .nil
  | raise e =>
    refine ⟨[], .error e, w, ?_, by simp, ?_⟩ <;> rw [List.append_nil]
    · exact h
    · exact .nil
  | call op k ih =>
    obtain ⟨f, r, w', hx, hc, hk⟩ := h
    obtain ⟨as, r', w'', hpost, hpid, hrun⟩ := ih r hk
    refine ⟨.run p f op r :: as, r', w'', ?_, ?_, ?_⟩
    · rw [List.append_cons]
      exact hpost
    · intro a ha
      rcases List.mem_cons.mp ha with rfl | ha
      · rfl
      · exact hpid a ha
    · refine Lts.Run.cons ⟨Step.run (k := k) (by simp) hx, hc⟩ ?_
      rw [List.append_cons]
      simpa [Config.next] using hrun

/-- A request runs from its start to its end. -/
theorem May.spawn {c : Config S E α W Q X} {q : Q}
    {post : Except E α → W → List (Act S E Q X) → Prop} (hf : c.thread p = .fresh)
    (hc : cond c.world c.past (.spawn p q) c.world)
    (h : May M cond p (M.prog q) post c.world (c.past ++ [.spawn p q])) :
    ∃ as r w', post r w' (c.past ++ as) ∧ (∀ a ∈ as, a.pid = some p) ∧
      Lts.Run (Lts.restrict (Step M) (Allows cond)) c as
        ⟨w', Function.update c.thread p (.live (.ofExcept r)), c.past ++ as⟩ := by
  obtain ⟨as, r, w', hpost, hpid, hrun⟩ := h.run c.thread
  rw [← List.append_cons] at hpost hrun
  refine ⟨.spawn p q :: as, r, w', hpost, ?_, Lts.Run.cons ⟨Step.spawn hf, hc⟩ hrun⟩
  intro a ha
  rcases List.mem_cons.mp ha with rfl | ha
  · rfl
  · exact hpid a ha

end May

end Interleave
