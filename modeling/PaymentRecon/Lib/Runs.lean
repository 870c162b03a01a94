import PaymentRecon.Lib.Solo

/-!
# Runs — whole executions of one program

`Runs M p x w cs r w'`: thread `p` executes the program `x` from the world `w` with no other thread in
between; it makes the calls `cs`, in order and with their faults, and ends with `r` in `w'`.  The
lemmas `runs_ret`, `runs_call`, `runs_bind` and so on invert an execution along its program;
`Runs.steps` makes an execution the steps of an interleaving in which only `p` moves.
-/

namespace Interleave

variable {S : Sig} {E α β γ W Q X : Type} {M : Machine S E α W Q X} {p : Pid}

/-- One call of an execution: the operation, how it fared and what it answered. -/
structure Call (S : Sig) (E : Type) where
  fault : Fault
  op : S.Op
  answer : Except E (S.Ret op)

/-- The execution `x` takes in the world `w`. -/
inductive Runs (M : Machine S E α W Q X) (p : Pid) :
    Prog S E β → W → List (Call S E) → Except E β → W → Prop
  | ret {a : β} {w : W} : Runs M p (.ret a) w [] (.ok a) w
  | raise {e : E} {w : W} : Runs M p (.raise e) w [] (.error e) w
  | call {op : S.Op} {k : Except E (S.Ret op) → Prog S E β} {w w₁ w' : W} {f : Fault}
      {a : Except E (S.Ret op)} {cs : List (Call S E)} {r : Except E β}
      (hx : M.exec f p op w a w₁) (h : Runs M p (k a) w₁ cs r w') :
      Runs M p (.call op k) w (⟨f, op, a⟩ :: cs) r w'

variable {w w' : W} {cs : List (Call S E)}

/-- A program whose operations always have an outcome comes to an end. -/
theorem Runs.total (hM : ∀ op w, ∃ f r w', M.exec f p op w r w') (x : Prog S E β) (w : W) :
    ∃ cs r w', Runs M p x w cs r w' := by
  induction x generalizing w with
  | ret a => exact ⟨_, _, _, .ret⟩
  | raise e => exact ⟨_, _, _, .raise⟩
  | call op k ih =>
    obtain ⟨f, a, w₁, hx⟩ := hM op w
    obtain ⟨cs, r, w', h⟩ := ih a w₁
    exact ⟨_, _, _, .call hx h⟩

/-! ## Inversion -/

@[simp] theorem runs_ret {a : β} {r : Except E β} :
    Runs M p (.ret a) w cs r w' ↔ cs = [] ∧ r = .ok a ∧ w' = w := by
  constructor
  · intro h
    cases h
    exact ⟨rfl, rfl, rfl⟩
  · rintro ⟨rfl, rfl, rfl⟩
    exact .ret

@[simp] theorem runs_raise {e : E} {r : Except E β} :
    Runs M p (.raise e) w cs r w' ↔ cs = [] ∧ r = .error e ∧ w' = w := by
  constructor
  · intro h
    cases h
    exact ⟨rfl, rfl, rfl⟩
  · rintro ⟨rfl, rfl, rfl⟩
    exact .raise

theorem runs_call {op : S.Op} {k : Except E (S.Ret op) → Prog S E β} {r : Except E β} :
    Runs M p (.call op k) w cs r w' ↔ ∃ f a w₁ cs₁, M.exec f p op w a w₁ ∧
      cs = ⟨f, op, a⟩ :: cs₁ ∧ Runs M p (k a) w₁ cs₁ r w' := by
  constructor
  · intro h
    cases h with
    | call hx h => exact ⟨_, _, _, _, hx, rfl, h⟩
  · rintro ⟨f, a, w₁, cs₁, hx, rfl, h⟩
    exact .call hx h

theorem runs_perform {op : S.Op} {r : Except E (S.Ret op)} :
    Runs M p (Prog.perform op) w cs r w' ↔ ∃ f, M.exec f p op w r w' ∧ cs = [⟨f, op, r⟩] := by
  constructor
  · intro h
    obtain ⟨f, a, w₁, cs₁, hx, rfl, hk⟩ := runs_call.mp h
    cases a with
    | ok a =>
      obtain ⟨rfl, rfl, rfl⟩ := runs_ret.mp hk
      exact ⟨f, hx, rfl⟩
    | error e =>
      obtain ⟨rfl, rfl, rfl⟩ := runs_raise.mp hk
      exact ⟨f, hx, rfl⟩
  · rintro ⟨f, hx, rfl⟩
    refine .call hx ?_
    cases r with
    | ok a => exact .ret
    | error e => exact .raise

/-- **Sequencing**: the first program ended with a value and the second went on, or it raised. -/
theorem runs_bind {x : Prog S E β} {g : β → Prog S E γ} {r : Except E γ} :
    Runs M p (x >>= g) w cs r w' ↔
      (∃ a w₁ cs₁ cs₂, Runs M p x w cs₁ (.ok a) w₁ ∧ Runs M p (g a) w₁ cs₂ r w' ∧ cs = cs₁ ++ cs₂) ∨
        ∃ e, Runs M p x w cs (.error e) w' ∧ r = .error e := by
  induction x generalizing w cs with
  | ret a =>
    constructor
    · intro h
      exact Or.inl ⟨a, w, [], cs, .ret, h, rfl⟩
    · rintro (⟨a', w₁, cs₁, cs₂, h₁, h₂, rfl⟩ | ⟨e, h, -⟩)
      · cases h₁
        exact h₂
      · cases h
  | raise e =>
    constructor
    · intro h
      obtain ⟨rfl, rfl, rfl⟩ := runs_raise.mp h
      exact Or.inr ⟨e, .raise, rfl⟩
    · rintro (⟨a', w₁, cs₁, cs₂, h₁, -, -⟩ | ⟨e', h, rfl⟩)
      · cases h₁
      · cases h
        exact .raise
  | call op k ih =>
    constructor
    · intro h
      obtain ⟨f, a, w₁, cs₁, hx, rfl, hk⟩ := runs_call.mp h
      rcases (ih a).mp hk with ⟨b, w₂, cs₂, cs₃, h₁, h₂, rfl⟩ | ⟨e, h₁, rfl⟩
      · exact Or.inl ⟨b, w₂, _, cs₃, .call hx h₁, h₂, rfl⟩
      · exact Or.inr ⟨e, .call hx h₁, rfl⟩
    · rintro (⟨b, w₂, cs₂, cs₃, h₁, h₂, rfl⟩ | ⟨e, h₁, rfl⟩)
      · cases h₁ with
        | call hx h₁ => exact .call hx ((ih _).mpr (Or.inl ⟨b, w₂, _, cs₃, h₁, h₂, rfl⟩))
      · cases h₁ with
        | call hx h₁ => exact .call hx ((ih _).mpr (Or.inr ⟨e, h₁, rfl⟩))

/-- **Exception handling**: the body ended with a value, or it raised and the handler went on. -/
theorem runs_tryCatch {x : Prog S E β} {g : E → Prog S E β} {r : Except E β} :
    Runs M p (x.tryCatch g) w cs r w' ↔
      (∃ a, Runs M p x w cs (.ok a) w' ∧ r = .ok a) ∨
        ∃ e w₁ cs₁ cs₂, Runs M p x w cs₁ (.error e) w₁ ∧ Runs M p (g e) w₁ cs₂ r w' ∧
          cs = cs₁ ++ cs₂ := by
  induction x generalizing w cs with
  | ret a =>
    constructor
    · intro h
      obtain ⟨rfl, rfl, rfl⟩ := runs_ret.mp h
      exact Or.inl ⟨a, .ret, rfl⟩
    · rintro (⟨a', h, rfl⟩ | ⟨e, w₁, cs₁, cs₂, h₁, -, -⟩)
      · cases h
        exact .ret
      · cases h₁
  | raise e =>
    constructor
    · intro h
      exact Or.inr ⟨e, w, [], cs, .raise, h, rfl⟩
    · rintro (⟨a', h, -⟩ | ⟨e', w₁, cs₁, cs₂, h₁, h₂, rfl⟩)
      · cases h
      · cases h₁
        exact h₂
  | call op k ih =>
    constructor
    · intro h
      obtain ⟨f, a, w₁, cs₁, hx, rfl, hk⟩ := runs_call.mp h
      rcases (ih a).mp hk with ⟨b, h₁, rfl⟩ | ⟨e, w₂, cs₂, cs₃, h₁, h₂, rfl⟩
      · exact Or.inl ⟨b, .call hx h₁, rfl⟩
      · exact Or.inr ⟨e, w₂, _, cs₃, .call hx h₁, h₂, rfl⟩
    · rintro (⟨b, h₁, rfl⟩ | ⟨e, w₂, cs₂, cs₃, h₁, h₂, rfl⟩)
      · cases h₁ with
        | call hx h₁ => exact .call hx ((ih _).mpr (Or.inl ⟨b, h₁, rfl⟩))
      · cases h₁ with
        | call hx h₁ => exact .call hx ((ih _).mpr (Or.inr ⟨e, w₂, _, cs₃, h₁, h₂, rfl⟩))

/-! ## Preconditions -/

/-- **Adequacy**: an execution without faults ends as the precondition says. -/
theorem Wp.runs {x : Prog S E β} {post : Except E β → W → Prop} {r : Except E β}
    (h : Wp M p x post w) (hr : Runs M p x w cs r w') (hs : ∀ c ∈ cs, c.fault = .done) : post r w' := by
  induction hr with
  | ret => exact h
  | raise => exact h
  | @call op k w w₁ w' f a cs r hx _ ih =>
    rw [List.forall_mem_cons] at hs
    obtain rfl : f = .done := hs.1
    exact ih (h.2 a w₁ hx) hs.2

/-- There is such an execution. -/
theorem Wp.exists_runs {x : Prog S E β} {post : Except E β → W → Prop} (h : Wp M p x post w) :
    ∃ cs r w', Runs M p x w cs r w' ∧ ∀ c ∈ cs, c.fault = .done := by
  induction x generalizing w with
  | ret a => exact ⟨[], _, w, .ret, by simp⟩
  | raise e => exact ⟨[], _, w, .raise, by simp⟩
  | call op k ih =>
    obtain ⟨⟨a, w₁, hx⟩, hk⟩ := h
    obtain ⟨cs, r, w', hr, hs⟩ := ih a (hk a w₁ hx)
    exact ⟨_, r, w', .call hx hr, List.forall_mem_cons.mpr ⟨rfl, hs⟩⟩

/-- The calls of a program are its operations. -/
theorem Runs.ops {A : S.Op → Prop} {R : Except E β → Prop} {x : Prog S E β} {r : Except E β}
    (hr : Runs M p x w cs r w') (hx : x.All A R) : ∀ c ∈ cs, A c.op := by
  induction hr with
  | ret => simp
  | raise => simp
  | @call op k w w₁ w' f a cs r _ _ ih =>
    exact List.forall_mem_cons.mpr ⟨hx.1, ih (hx.2 a)⟩

/-- What all operations of a program keep, its executions keep. -/
theorem Runs.keeps {I : W → Prop} {A : S.Op → Prop} {R : Except E β → Prop} {x : Prog S E β}
    {r : Except E β} (hr : Runs M p x w cs r w') (hx : x.All A R)
    (hI : ∀ f op a w w', A op → M.exec f p op w a w' → I w → I w') (hw : I w) : I w' := by
  induction hr with
  | ret => exact hw
  | raise => exact hw
  | @call op k w w₁ w' f a cs r hop _ ih => exact ih (hx.2 a) (hI f op a w w₁ hx.1 hop hw)

/-! ## Coming to an end -/

/-- From every world that meets `I` the program has an execution whose calls meet `P` and that ends in
`I`. -/
def Reaches (M : Machine S E α W Q X) (p : Pid) (I : W → Prop) (P : Call S E → Prop)
    (x : Prog S E β) : Prop :=
  ∀ w, I w → ∃ cs r w', Runs M p x w cs r w' ∧ (∀ c ∈ cs, P c) ∧ I w'

namespace Reaches

variable {I : W → Prop} {P : Call S E → Prop}

theorem ret (b : β) : Reaches M p I P (.ret b : Prog S E β) :=
  fun w hI => ⟨[], _, w, .ret, by simp, hI⟩

theorem raise (e : E) : Reaches M p I P (.raise e : Prog S E β) :=
  fun w hI => ⟨[], _, w, .raise, by simp, hI⟩

theorem ofExcept (r : Except E β) : Reaches M p I P (Prog.ofExcept r : Prog S E β) := by
  cases r with
  | ok b => exact ret b
  | error e => exact raise e

theorem perform {op : S.Op}
    (h : ∀ w, I w → ∃ f r w', M.exec f p op w r w' ∧ P ⟨f, op, r⟩ ∧ I w') :
    Reaches M p I P (Prog.perform op) := by
  intro w hI
  obtain ⟨f, r, w', hx, hP, hI'⟩ := h w hI
  exact ⟨[⟨f, op, r⟩], r, w', runs_perform.mpr ⟨f, hx, rfl⟩, by simpa using hP, hI'⟩

/-- A program of such operations. -/
theorem all {A : S.Op → Prop} {R : Except E β → Prop} {x : Prog S E β} (hx : x.All A R)
    (h : ∀ op, A op → ∀ w, I w → ∃ f r w', M.exec f p op w r w' ∧ P ⟨f, op, r⟩ ∧ I w') :
    Reaches M p I P x := by
  induction x with
  | ret b => exact ret b
  | raise e => exact raise e
  | call op k ih =>
    intro w hI
    obtain ⟨f, r, w₁, hex, hP, hI₁⟩ := h op hx.1 w hI
    obtain ⟨cs, r', w', hrun, hall, hI'⟩ := ih r (hx.2 r) w₁ hI₁
    exact ⟨⟨f, op, r⟩ :: cs, r', w', .call hex hrun, List.forall_mem_cons.mpr ⟨hP, hall⟩, hI'⟩

theorem bind {x : Prog S E β} {g : β → Prog S E γ} (hx : Reaches M p I P x)
    (hg : ∀ b, Reaches M p I P (g b)) : Reaches M p I P (x >>= g) := by
  intro w hI
  obtain ⟨cs, r, w₁, hrun, hP, hI₁⟩ := hx w hI
  cases r with
  | ok b =>
    obtain ⟨cs', r', w', hrun', hP', hI'⟩ := hg b w₁ hI₁
    exact ⟨cs ++ cs', r', w', runs_bind.mpr (Or.inl ⟨b, w₁, cs, cs', hrun, hrun', rfl⟩),
      List.forall_mem_append.mpr ⟨hP, hP'⟩, hI'⟩
  | error e => exact ⟨cs, .error e, w₁, runs_bind.mpr (Or.inr ⟨e, hrun, rfl⟩), hP, hI₁⟩

theorem tryCatch {x : Prog S E β} {g : E → Prog S E β} (hx : Reaches M p I P x)
    (hg : ∀ e, Reaches M p I P (g e)) : Reaches M p I P (x.tryCatch g) := by
  intro w hI
  obtain ⟨cs, r, w₁, hrun, hP, hI₁⟩ := hx w hI
  cases r with
  | ok b => exact ⟨cs, .ok b, w₁, runs_tryCatch.mpr (Or.inl ⟨b, hrun, rfl⟩), hP, hI₁⟩
  | error e =>
    obtain ⟨cs', r', w', hrun', hP', hI'⟩ := hg e w₁ hI₁
    exact ⟨cs ++ cs', r', w', runs_tryCatch.mpr (Or.inr ⟨e, w₁, cs, cs', hrun, hrun', rfl⟩),
      List.forall_mem_append.mpr ⟨hP, hP'⟩, hI'⟩

theorem forEach {g : β → Prog S E Unit} (hg : ∀ b, Reaches M p I P (g b)) (bs : List β) :
    Reaches M p I P (Prog.forEach g bs) := by
  induction bs with
  | nil => exact ret ()
  | cons b bs ih => exact bind (hg b) fun _ => ih

end Reaches

/-! ## Positions -/

/-- Every call of the list meets `P` together with the calls before it. -/
def AtEach {C : Type} (P : List C → C → Prop) (cs : List C) : Prop :=
  ∀ pre c post, cs = pre ++ c :: post → P pre c

section AtEach

variable {C : Type} {P P' : List C → C → Prop}

@[simp] theorem atEach_nil : AtEach P [] := fun pre _ _ h => by simp at h

@[simp] theorem atEach_cons {x : C} {xs : List C} :
    AtEach P (x :: xs) ↔ P [] x ∧ AtEach (fun pre c => P (x :: pre) c) xs := by
  constructor
  · intro h
    exact ⟨h [] x xs rfl, fun pre c post he => h (x :: pre) c post (by rw [he, List.cons_append])⟩
  · rintro ⟨h₁, h₂⟩ pre c post he
    cases pre with
    | nil =>
      cases he
      exact h₁
    | cons y pre =>
      cases he
      exact h₂ pre c post rfl

theorem atEach_concat {x : C} {xs : List C} :
    AtEach P (xs ++ [x]) ↔ AtEach P xs ∧ P xs x := by
  constructor
  · intro h
    refine ⟨fun pre c post he => h pre c (post ++ [x]) ?_, h xs x [] rfl⟩
    rw [he, List.append_assoc, List.cons_append]
  · rintro ⟨h₁, h₂⟩ pre c post he
    rcases List.eq_nil_or_concat post with rfl | ⟨post, y, rfl⟩
    · obtain ⟨rfl, hc⟩ := List.append_inj' he rfl
      obtain rfl := List.singleton_inj.mp hc
      exact h₂
    · rw [List.concat_eq_append, ← List.cons_append, ← List.append_assoc] at he
      exact h₁ pre c post (List.append_inj' he rfl).1

theorem AtEach.mono {xs : List C} (h : AtEach P xs)
    (himp : ∀ pre, ∀ c ∈ xs, P pre c → P' pre c) : AtEach P' xs :=
  fun pre c post he => himp pre c (by rw [he]; simp) (h pre c post he)

theorem atEach_of_forall {xs : List C} (h : ∀ pre, ∀ c ∈ xs, P pre c) : AtEach P xs :=
  fun pre c post he => h pre c (by rw [he]; simp)

end AtEach

/-! ## Executions that are cut off -/

/-- The program makes the calls `cs` and goes no further, although it need not be at its end. -/
inductive Begun (M : Machine S E α W Q X) (p : Pid) : Prog S E β → W → List (Call S E) → W → Prop
  | cut {x : Prog S E β} {w : W} : Begun M p x w [] w
  | call {op : S.Op} {k : Except E (S.Ret op) → Prog S E β} {w w₁ w' : W} {f : Fault}
      {a : Except E (S.Ret op)} {cs : List (Call S E)}
      (hx : M.exec f p op w a w₁) (h : Begun M p (k a) w₁ cs w') :
      Begun M p (.call op k) w (⟨f, op, a⟩ :: cs) w'

theorem begun_ret {a : β} : Begun M p (.ret a : Prog S E β) w cs w' ↔ cs = [] ∧ w' = w := by
  constructor
  · intro h
    cases h
    exact ⟨rfl, rfl⟩
  · rintro ⟨rfl, rfl⟩
    exact .cut

theorem begun_raise {e : E} : Begun M p (.raise e : Prog S E β) w cs w' ↔ cs = [] ∧ w' = w := by
  constructor
  · intro h
    cases h
    exact ⟨rfl, rfl⟩
  · rintro ⟨rfl, rfl⟩
    exact .cut

/-- A program is cut off before its first operation, or the operation went through and the rest is cut
off, or the operation raised. -/
theorem begun_perform {op : S.Op} {g : S.Ret op → Prog S E β} :
    Begun M p (Prog.perform op >>= g) w cs w' ↔ (cs = [] ∧ w' = w) ∨
      (∃ f a w₁ cs₁, M.exec f p op w (.ok a) w₁ ∧ Begun M p (g a) w₁ cs₁ w' ∧
        cs = ⟨f, op, .ok a⟩ :: cs₁) ∨
      ∃ f e, M.exec f p op w (.error e) w' ∧ cs = [⟨f, op, .error e⟩] := by
  rw [Prog.perform_bind]
  constructor
  · intro h
    cases h with
    | cut => exact Or.inl ⟨rfl, rfl⟩
    | @call _ _ _ w₁ _ f a cs₁ hx h =>
      cases a with
      | ok a => exact Or.inr (Or.inl ⟨f, a, w₁, cs₁, hx, h, rfl⟩)
      | error e =>
        obtain ⟨rfl, rfl⟩ := begun_raise.mp h
        exact Or.inr (Or.inr ⟨f, e, hx, rfl⟩)
  · rintro (⟨rfl, rfl⟩ | ⟨f, a, w₁, cs₁, hx, h, rfl⟩ | ⟨f, e, hx, rfl⟩)
    · exact .cut
    · exact .call hx h
    · exact .call hx .cut

/-! ## Executions and steps -/

/-- The call as a step of thread `p`. -/
def Call.act (p : Pid) (c : Call S E) : Act S E Q X := .run p c.fault c.op c.answer

/-- An execution is a run of the interleaving. -/
theorem Runs.steps {x : Prog S E α} {r : Except E α} (h : Runs M p x w cs r w')
    (t : Pid → Thread S E α) (past : List (Act S E Q X)) :
    Lts.Run (Step M) ⟨w, Function.update t p (.live x), past⟩ (cs.map (Call.act p))
      ⟨w', Function.update t p (.live (.ofExcept r)), past ++ cs.map (Call.act p)⟩ := by
  induction h generalizing past with
  | ret =>
    rw [List.map_nil, List.append_nil]
    exact .nil
  | raise =>
    rw [List.map_nil, List.append_nil]
    exact .nil
  | @call op k w w₁ w' f a cs r hx _ ih =>
    rw [List.map_cons]
    have hs : Step M ⟨w, Function.update t p (.live (.call op k)), past⟩ (.run p f op a)
        (Config.next _ (.run p f op a) w₁ _) := Step.run (k := k) (by simp) hx
    refine Lts.Run.cons hs ?_
    have hk := ih (past ++ [.run p f op a])
    rw [← List.append_cons] at hk
    simpa [Config.next, Call.act] using hk

/-! ## The environment in between -/

/-- The machine in which the environment makes one of the moves `A` before each operation. -/
def Machine.amid (M : Machine S E α W Q X) (A : X → Prop) : Machine S E α W Q X :=
  { M with exec := fun f p op w r w' => ∃ x, A x ∧ M.exec f p op (M.outer x w) r w' }

variable {A : X → Prop}

/-- What the environment and the program keep, an execution keeps. -/
theorem Runs.amid_keeps {I : W → Prop} {P : Call S E → Prop} {x : Prog S E β} {r : Except E β}
    (h : Runs (M.amid A) p x w cs r w') (hI : I w) (hA : ∀ y w, A y → I w → I (M.outer y w))
    (hM : ∀ c w w', P c → I w → M.exec c.fault p c.op w c.answer w' → I w') (hP : ∀ c ∈ cs, P c) :
    I w' := by
  induction h with
  | ret => exact hI
  | raise => exact hI
  | @call op k w w₁ w' f a cs r hx _ ih =>
    obtain ⟨y, hy, hx⟩ := hx
    rw [List.forall_mem_cons] at hP
    exact ih (hM ⟨f, op, a⟩ _ _ hP.1 (hA y w hy hI) hx) hP.2

/-! ## Executing a program -/

/-- One outcome of an operation, if it does not have to wait. -/
abbrev Attempt (S : Sig) (E W : Type) := (op : S.Op) → W → Option (Fault × Except E (S.Ret op) × W)

/-- The execution in which every operation has its attempted outcome. -/
def execute (attempt : Attempt S E W) : Prog S E β → W → Option (List (Call S E) × Except E β × W)
  | .ret a, w => some ([], .ok a, w)
  | .raise e, w => some ([], .error e, w)
  | .call op k, w => (attempt op w).bind fun x =>
    (execute attempt (k x.2.1) x.2.2).map fun y => (⟨x.1, op, x.2.1⟩ :: y.1, y.2)

theorem execute_runs {attempt : Attempt S E W} {x : Prog S E β} {r : Except E β}
    (hsound : ∀ op w f a w', attempt op w = some (f, a, w') → M.exec f p op w a w')
    (h : execute attempt x w = some (cs, r, w')) : Runs M p x w cs r w' := by
  induction x generalizing w cs with
  | ret a =>
    obtain ⟨rfl, rfl, rfl⟩ := by simpa [execute] using h
    exact .ret
  | raise e =>
    obtain ⟨rfl, rfl, rfl⟩ := by simpa [execute] using h
    exact .raise
  | call op k ih =>
    obtain ⟨⟨f, a, w₁⟩, hx, h⟩ := Option.bind_eq_some_iff.mp h
    obtain ⟨⟨cs₁, r₁, w₂⟩, hk, he⟩ := Option.map_eq_some_iff.mp h
    obtain ⟨rfl, rfl, rfl⟩ := by simpa using he
    exact .call (hsound _ _ _ _ _ hx) (ih a hk)

/-- An execution whose end passes a test. -/
theorem execute_test {x : Prog S E β} (attempt : Attempt S E W) (w : W)
    (test : List (Call S E) × Except E β × W → Bool)
    (hsound : ∀ op w f a w', attempt op w = some (f, a, w') → M.exec f p op w a w')
    (h : (execute attempt x w).any test = true) :
    ∃ cs r w', Runs M p x w cs r w' ∧ test (cs, r, w') = true := by
  obtain ⟨⟨cs, r, w'⟩, hrun, htest⟩ := (Option.any_eq_true _ _).mp h
  exact ⟨cs, r, w', execute_runs hsound hrun, htest⟩

end Interleave
