import PaymentRecon.Lib.Prog

/-!
# Reader — programs that read beside a run

A program that leaves the world as it is needs no thread: `Reads M R p c x r c'` says that beside a run of
the steps `R`, which leads from `c` to `c'`, the program `x` ends with `r`.  Each of its operations is
carried out in a configuration of the run, as an operation of `p` that changes nothing.
-/

namespace Interleave

variable {S : Sig} {E α β γ W Q X : Type}

/-- The program `x` reads beside a run from `c` to `c'`. -/
inductive Reads (M : Machine S E α W Q X)
    (R : Config S E α W Q X → Act S E Q X → Config S E α W Q X → Prop) (p : Pid) :
    Config S E α W Q X → Prog S E β → Except E β → Config S E α W Q X → Prop
  | ret {c : Config S E α W Q X} {b : β} : Reads M R p c (.ret b) (.ok b) c
  | raise {c : Config S E α W Q X} {e : E} : Reads M R p c (.raise e) (.error e) c
  | call {c c₁ c' : Config S E α W Q X} {tr : List (Act S E Q X)} {f : Fault} {op : S.Op}
      {k : Except E (S.Ret op) → Prog S E β} {a : Except E (S.Ret op)} {r : Except E β}
      (hr : Lts.Run R c tr c₁) (hx : M.exec f p op c₁.world a c₁.world)
      (hk : Reads M R p c₁ (k a) r c') : Reads M R p c (.call op k) r c'

variable {M : Machine S E α W Q X}
  {R : Config S E α W Q X → Act S E Q X → Config S E α W Q X → Prop} {p : Pid}
  {c c' : Config S E α W Q X} {x : Prog S E β} {r : Except E β}

/-- The run beside which a program reads. -/
theorem Reads.run (h : Reads M R p c x r c') : ∃ tr, Lts.Run R c tr c' := by
  induction h with
  | ret => exact ⟨[], .nil⟩
  | raise => exact ⟨[], .nil⟩
  | call hr _ _ ih =>
    obtain ⟨tr, htr⟩ := ih
    exact ⟨_, hr.append htr⟩

theorem reads_ret {b : β} : Reads M R p c (.ret b) r c' ↔ r = .ok b ∧ c' = c := by
  constructor
  · intro h
    cases h
    exact ⟨rfl, rfl⟩
  · rintro ⟨rfl, rfl⟩
    exact .ret

theorem reads_raise {e : E} : Reads M R p c (.raise e) r c' ↔ r = .error e ∧ c' = c := by
  constructor
  · intro h
    cases h
    exact ⟨rfl, rfl⟩
  · rintro ⟨rfl, rfl⟩
    exact .raise

/-- **Sequencing.** -/
theorem reads_bind {f : β → Prog S E γ} {r : Except E γ} : Reads M R p c (x >>= f) r c' ↔
    (∃ b c₁, Reads M R p c x (.ok b) c₁ ∧ Reads M R p c₁ (f b) r c') ∨
      ∃ e, Reads M R p c x (.error e) c' ∧ r = .error e := by
  induction x generalizing c with
  | ret b =>
    simp only [Prog.ret_bind, reads_ret]
    constructor
    · exact fun h => Or.inl ⟨b, c, ⟨rfl, rfl⟩, h⟩
    · rintro (⟨b', c₁, ⟨hb, rfl⟩, h⟩ | ⟨e, ⟨he, -⟩, -⟩)
      · cases hb
        exact h
      · cases he
  | raise e =>
    simp only [Prog.raise_bind, reads_raise]
    constructor
    · rintro ⟨rfl, rfl⟩
      exact Or.inr ⟨e, ⟨rfl, rfl⟩, rfl⟩
    · rintro (⟨b, c₁, ⟨hb, -⟩, -⟩ | ⟨e', ⟨he, rfl⟩, rfl⟩)
      · cases hb
      · cases he
        exact ⟨rfl, rfl⟩
  | call op k ih =>
    rw [Prog.call_bind]
    constructor
    · intro h
      cases h with
      | call hr hx hk =>
        rcases (ih _).mp hk with ⟨b, c₁, hx₁, hf⟩ | ⟨e, he, rfl⟩
        · exact Or.inl ⟨b, c₁, .call hr hx hx₁, hf⟩
        · exact Or.inr ⟨e, .call hr hx he, rfl⟩
    · rintro (⟨b, c₁, h, hf⟩ | ⟨e, h, rfl⟩)
      · cases h with
        | call hr hx hk => exact .call hr hx ((ih _).mpr (Or.inl ⟨b, c₁, hk, hf⟩))
      · cases h with
        | call hr hx hk => exact .call hr hx ((ih _).mpr (Or.inr ⟨e, hk, rfl⟩))

/-- **Exception handling.** -/
theorem reads_tryCatch {g : E → Prog S E β} : Reads M R p c (x.tryCatch g) r c' ↔
    (∃ b, Reads M R p c x (.ok b) c' ∧ r = .ok b) ∨
      ∃ e c₁, Reads M R p c x (.error e) c₁ ∧ Reads M R p c₁ (g e) r c' := by
  induction x generalizing c with
  | ret b =>
    simp only [Prog.ret_tryCatch, reads_ret]
    constructor
    · rintro ⟨rfl, rfl⟩
      exact Or.inl ⟨b, ⟨rfl, rfl⟩, rfl⟩
    · rintro (⟨b', ⟨hb, rfl⟩, rfl⟩ | ⟨e, c₁, ⟨he, -⟩, -⟩)
      · cases hb
        exact ⟨rfl, rfl⟩
      · cases he
  | raise e =>
    simp only [Prog.raise_tryCatch, reads_raise]
    constructor
    · exact fun h => Or.inr ⟨e, c, ⟨rfl, rfl⟩, h⟩
    · rintro (⟨b, ⟨hb, -⟩, -⟩ | ⟨e', c₁, ⟨he, rfl⟩, h⟩)
      · cases hb
      · cases he
        exact h
  | call op k ih =>
    rw [Prog.call_tryCatch]
    constructor
    · intro h
      cases h with
      | call hr hx hk =>
        rcases (ih _).mp hk with ⟨b, hb, rfl⟩ | ⟨e, c₁, he, hg⟩
        · exact Or.inl ⟨b, .call hr hx hb, rfl⟩
        · exact Or.inr ⟨e, c₁, .call hr hx he, hg⟩
    · rintro (⟨b, h, rfl⟩ | ⟨e, c₁, h, hg⟩)
      · cases h with
        | call hr hx hk => exact .call hr hx ((ih _).mpr (Or.inl ⟨b, hk, rfl⟩))
      · cases h with
        | call hr hx hk => exact .call hr hx ((ih _).mpr (Or.inr ⟨e, c₁, hk, hg⟩))

/-- **One operation.** -/
theorem reads_perform {op : S.Op} {a : Except E (S.Ret op)} : Reads M R p c (Prog.perform op) a c' ↔
    ∃ f tr, Lts.Run R c tr c' ∧ M.exec f p op c'.world a c'.world := by
  constructor
  · intro h
    cases h with
    | @call _ c₁ _ tr f _ _ a' _ hr hx hk =>
      cases a' with
      | ok b =>
        obtain ⟨rfl, rfl⟩ := reads_ret.mp hk
        exact ⟨f, tr, hr, hx⟩
      | error e =>
        obtain ⟨rfl, rfl⟩ := reads_raise.mp hk
        exact ⟨f, tr, hr, hx⟩
  · rintro ⟨f, tr, hr, hx⟩
    refine .call hr hx ?_
    cases a with
    | ok b => exact .ret
    | error e => exact .raise

end Interleave
