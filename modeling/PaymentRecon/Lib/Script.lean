import PaymentRecon.Lib.Prog

/-!
# Script — executing an interleaving

A `Player` computes one outcome of every operation that does not have to wait.  `Player.play` follows a
script, a list of moves of the scheduler, and computes the configuration it leads to;
`Player.play_run` turns that into a run of the interleaving in which nothing fails.
-/

namespace Interleave

variable {S : Sig} {E α W Q X : Type}

/-- A move of the scheduler: it starts a thread, lets it perform `n` operations, or lets the environment
act. -/
inductive Move (Q X : Type)
  | spawn (p : Pid) (q : Q)
  | go (p : Pid) (n : ℕ)
  | outer (x : X)

structure Player (M : Machine S E α W Q X) where
  attempt : Pid → (op : S.Op) → W → Option (Except E (S.Ret op) × W)
  sound : ∀ p op w r w', attempt p op w = some (r, w') → M.exec .done p op w r w'

namespace Player

variable {M : Machine S E α W Q X} (P : Player M)

/-- The next operation of the thread `p`. -/
def step (p : Pid) (c : Config S E α W Q X) : Option (Config S E α W Q X) :=
  match c.thread p with
  | .live (.call op k) => (P.attempt p op c.world).map fun x =>
      c.next (.run p .done op x.1) x.2 (Function.update c.thread p (.live (k x.1)))
  | _ => none

def steps (p : Pid) : ℕ → Config S E α W Q X → Option (Config S E α W Q X)
  | 0, c => some c
  | n + 1, c => (P.step p c).bind (steps p n)

def move : Move Q X → Config S E α W Q X → Option (Config S E α W Q X)
  | .spawn p q, c =>
    match c.thread p with
    | .fresh => some (c.next (.spawn p q) c.world (Function.update c.thread p (.live (M.prog q))))
    | _ => none
  | .go p n, c => P.steps p n c
  | .outer x, c => some (c.next (.outer x) (M.outer x c.world) c.thread)

def play : List (Move Q X) → Config S E α W Q X → Option (Config S E α W Q X)
  | [], c => some c
  | m :: ms, c => (P.move m c).bind (play ms)

/-- The steps in which nothing fails. -/
abbrev Faultless (M : Machine S E α W Q X) :
    Config S E α W Q X → Act S E Q X → Config S E α W Q X → Prop :=
  Lts.restrict (Step M) fun _ a _ => a.Clean

variable {P} {c c' : Config S E α W Q X}

theorem step_run {p : Pid} (h : P.step p c = some c') : ∃ a, Faultless M c a c' := by
  unfold step at h
  split at h
  · rename_i op k hlive
    obtain ⟨x, hx, rfl⟩ := Option.map_eq_some_iff.mp h
    exact ⟨_, Step.run hlive (P.sound _ _ _ _ _ hx), rfl⟩
  · exact absurd h (by simp)

theorem steps_run {p : Pid} {n : ℕ} (h : P.steps p n c = some c') :
    ∃ tr, Lts.Run (Faultless M) c tr c' := by
  induction n generalizing c with
  | zero =>
    obtain rfl := Option.some.inj h
    exact ⟨[], .nil⟩
  | succ n ih =>
    obtain ⟨c₁, h₁, h₂⟩ := Option.bind_eq_some_iff.mp h
    obtain ⟨a, hs⟩ := step_run h₁
    obtain ⟨tr, hr⟩ := ih h₂
    exact ⟨a :: tr, Lts.Run.cons hs hr⟩

theorem move_run {m : Move Q X} (h : P.move m c = some c') :
    ∃ tr, Lts.Run (Faultless M) c tr c' := by
  cases m with
  | spawn p q =>
    simp only [move] at h
    split at h
    · rename_i hfresh
      obtain rfl := Option.some.inj h
      exact ⟨_, Lts.Run.single ⟨Step.spawn hfresh, trivial⟩⟩
    · exact absurd h (by simp)
  | go p n => exact steps_run h
  | outer x =>
    obtain rfl := Option.some.inj h
    exact ⟨_, Lts.Run.single ⟨Step.outer, trivial⟩⟩

/-- **A script is a run.** -/
theorem play_run {ms : List (Move Q X)} (h : P.play ms c = some c') :
    ∃ tr, Lts.Run (Faultless M) c tr c' := by
  induction ms generalizing c with
  | nil =>
    obtain rfl := Option.some.inj h
    exact ⟨[], .nil⟩
  | cons m ms ih =>
    obtain ⟨c₁, h₁, h₂⟩ := Option.bind_eq_some_iff.mp h
    obtain ⟨tr, hr⟩ := move_run h₁
    obtain ⟨tr', hr'⟩ := ih h₂
    exact ⟨tr ++ tr', hr.append hr'⟩

/-- A script whose last configuration passes a test. -/
theorem play_test (P : Player M) (ms : List (Move Q X)) (c : Config S E α W Q X)
    (test : Config S E α W Q X → Bool) (h : (P.play ms c).any test = true) :
    ∃ tr c', Lts.Run (Faultless M) c tr c' ∧ test c' = true := by
  obtain ⟨c', hc, htest⟩ := (Option.any_eq_true _ _).mp h
  obtain ⟨tr, hr⟩ := play_run hc
  exact ⟨tr, c', hr, htest⟩

end Player

end Interleave
