import PaymentRecon.Lib.Script

/-!
# Sequential — requests that do not overlap

`OneByOne` lets a request start only when no other one is in flight.  Then at most one thread runs at any
time.  `Player.serve` executes such a schedule.
-/

namespace Interleave

variable {S : Sig} {E α W Q X : Type} {M : Machine S E α W Q X} {c c' : Config S E α W Q X}
  {tr : List (Act S E Q X)} {w : W} {p q : Pid}

/-- A request starts when no other one is in flight. -/
def OneByOne (c : Config S E α W Q X) (a : Act S E Q X) (_ : Config S E α W Q X) : Prop :=
  ∀ p q, a = .spawn p q → c.Quiet

theorem quiet_init : (Config.init w : Config S E α W Q X).Quiet := fun _ h => h

/-- A thread that runs was running, or is started by the step. -/
theorem Step.starts {a : Act S E Q X} (h : Step M c a c') (hp : (c'.thread p).Running) :
    (c.thread p).Running ∨ ∃ x, a = .spawn p x := by
  rcases h.running hp with hrun | hfresh
  · exact Or.inl hrun
  · cases h with
    | @spawn p' x hf =>
      by_cases heq : p = p'
      · exact Or.inr ⟨x, by rw [heq]⟩
      · have hp' : (c.thread p).Running := by simpa [Config.next, heq] using hp
        exact Or.inl hp'
    | @run p' f op k r w' hlive hx =>
      have heq : p ≠ p' := fun he => by simp [← he, hfresh] at hlive
      exact Or.inl (by simpa [Config.next, heq] using hp)
    | @crash p' op k hlive =>
      have heq : p ≠ p' := fun he => by simp [← he, hfresh] at hlive
      exact Or.inl (by simpa [Config.next, heq] using hp)
    | outer => exact Or.inl hp

/-- A thread that was not started has no label. -/
theorem fresh_unlabelled (hr : Lts.Run (Step M) (.init w) tr c) (hp : c.thread p = .fresh) :
    ∀ a ∈ c.past, a.pid ≠ some p := by
  refine hr.inv (fun c => c.thread p = .fresh → ∀ a ∈ c.past, a.pid ≠ some p) (fun _ _ h => ?_) ?_ hp
  · exact absurd h (by simp [Config.init])
  · intro c a c' ih hs hfresh b hb
    obtain ⟨hold, hpid⟩ := hs.fresh hfresh
    rw [hs.wstep.2] at hb
    rcases List.mem_append.mp hb with hb | hb
    · exact ih hold b hb
    · rw [List.mem_singleton.mp hb]
      exact hpid

/-- A thread that starts during a run was not started before. -/
theorem spawned_fresh (hr : Lts.Run (Step M) c tr c') {x : Q} (hx : .spawn p x ∈ tr) :
    c.thread p = .fresh := by
  induction hr with
  | nil => exact absurd hx (by simp)
  | @snoc tr c₁ c₂ a hr hs ih =>
    rcases List.mem_append.mp hx with hx | hx
    · exact ih hx
    · obtain rfl := List.mem_singleton.mp hx
      have hfresh : c₁.thread p = .fresh := by
        cases hs with
        | spawn hf => exact hf
      exact (hr.backward (fun c => c.thread p = .fresh) hfresh fun _ _ _ hs h => (hs.fresh h).1).1

/-- At most one thread runs. -/
theorem one_running (hr : Lts.Run (Lts.restrict (Step M) OneByOne) (.init w) tr c)
    (hp : (c.thread p).Running) (hq : (c.thread q).Running) : p = q := by
  have hinv := hr.inv (fun c => ∀ p q, (c.thread p).Running → (c.thread q).Running → p = q)
    (fun _ _ h => h.elim) ?_
  · exact hinv p q hp hq
  · rintro c a c' ih ⟨hs, hone⟩ p q hp hq
    rcases hs.starts hp with hp' | ⟨x, rfl⟩ <;> rcases hs.starts hq with hq' | ⟨y, hy⟩
    · exact ih p q hp' hq'
    · exact absurd hp' (hone q y hy p)
    · exact absurd hq' (hone p x rfl q)
    · cases hy
      rfl

/-- A turn of a schedule without overlap: a request with the number of its operations, or an event. -/
inductive Turn (Q X : Type)
  | request (p : Pid) (q : Q) (n : ℕ)
  | outer (x : X)

namespace Player

variable (P : Player M)

/-- The thread has come to its end. -/
def ended (c : Config S E α W Q X) (p : Pid) : Bool :=
  match c.thread p with
  | .live (.ret _) | .live (.raise _) => true
  | _ => false

def turn : Turn Q X → Config S E α W Q X → Option (Config S E α W Q X)
  | .request p q n, c => (P.play [.spawn p q, .go p n] c).filter fun c => ended c p
  | .outer x, c => P.play [.outer x] c

def serve : List (Turn Q X) → Config S E α W Q X → Option (Config S E α W Q X)
  | [], c => some c
  | t :: ts, c => (P.turn t c).bind (serve ts)

variable {P}

/-- The steps in which nothing fails and no requests overlap. -/
abbrev Orderly (M : Machine S E α W Q X) :
    Config S E α W Q X → Act S E Q X → Config S E α W Q X → Prop :=
  Lts.restrict (Step M) fun c a c' => a.Clean ∧ OneByOne c a c'

theorem Orderly.apart (hr : Lts.Run (Orderly M) c tr c') :
    Lts.Run (Lts.restrict (Step M) OneByOne) c tr c' := hr.mono fun _ _ _ h => ⟨h.1, h.2.2⟩

theorem step_orderly (h : P.step p c = some c') :
    (∃ a, Orderly M c a c') ∧ ∀ q, q ≠ p → c'.thread q = c.thread q := by
  unfold step at h
  split at h
  · rename_i op k hlive
    obtain ⟨x, hx, rfl⟩ := Option.map_eq_some_iff.mp h
    refine ⟨⟨_, Step.run hlive (P.sound _ _ _ _ _ hx), rfl, fun _ _ ha => ?_⟩, fun q hq => ?_⟩
    · exact absurd ha (by simp)
    · simp [Config.next, hq]
  · exact absurd h (by simp)

theorem steps_orderly {n : ℕ} (h : P.steps p n c = some c') :
    (∃ tr, Lts.Run (Orderly M) c tr c') ∧ ∀ q, q ≠ p → c'.thread q = c.thread q := by
  induction n generalizing c with
  | zero =>
    obtain rfl := Option.some.inj h
    exact ⟨⟨[], .nil⟩, fun _ _ => rfl⟩
  | succ n ih =>
    obtain ⟨c₁, h₁, h₂⟩ := Option.bind_eq_some_iff.mp h
    obtain ⟨⟨a, hs⟩, hq₁⟩ := step_orderly h₁
    obtain ⟨⟨tr, hr⟩, hq₂⟩ := ih h₂
    exact ⟨⟨a :: tr, Lts.Run.cons hs hr⟩, fun q hq => (hq₂ q hq).trans (hq₁ q hq)⟩

/-- A request that starts when nothing is in flight, up to its `n`-th operation. -/
theorem begin_orderly {x : Q} {n : ℕ} (hq : c.Quiet) (h : P.play [.spawn p x, .go p n] c = some c') :
    (∃ tr, Lts.Run (Orderly M) c (.spawn p x :: tr) c') ∧ ∀ q, q ≠ p → c'.thread q = c.thread q := by
  obtain ⟨c₁, h₁, hgo⟩ := Option.bind_eq_some_iff.mp h
  obtain ⟨c₂, h₂, h₃⟩ := Option.bind_eq_some_iff.mp hgo
  obtain rfl := Option.some.inj h₃
  simp only [move] at h₁
  split at h₁
  · rename_i hfresh
    obtain rfl := Option.some.inj h₁
    obtain ⟨⟨tr, hr⟩, hthread⟩ := steps_orderly h₂
    refine ⟨⟨_, Lts.Run.cons ⟨Step.spawn hfresh, trivial, fun _ _ _ => hq⟩ hr⟩, fun q hqp => ?_⟩
    rw [hthread q hqp]
    simp [Config.next, hqp]
  · exact absurd h₁ (by simp)

/-- Nothing is in flight after the only thread that moved has ended. -/
theorem quiet_ended (hq : c.Quiet) (hthread : ∀ q, q ≠ p → c'.thread q = c.thread q)
    (hend : ended c' p = true) : c'.Quiet := by
  intro q
  by_cases hqp : q = p
  · subst hqp
    simp only [ended] at hend
    split at hend
    · rename_i a hlive
      rw [hlive]
      exact fun h => h
    · rename_i e hlive
      rw [hlive]
      exact fun h => h
    · exact absurd hend (by simp)
  · rw [hthread q hqp]
    exact hq q

/-- **A schedule without overlap is a run**, after which nothing is in flight. -/
theorem serve_run {ts : List (Turn Q X)} (hq : c.Quiet) (h : P.serve ts c = some c') :
    c'.Quiet ∧ ∃ tr, Lts.Run (Orderly M) c tr c' := by
  induction ts generalizing c with
  | nil =>
    obtain rfl := Option.some.inj h
    exact ⟨hq, [], .nil⟩
  | cons t ts ih =>
    obtain ⟨c₁, h₁, h₂⟩ := Option.bind_eq_some_iff.mp h
    have hturn : c₁.Quiet ∧ ∃ tr, Lts.Run (Orderly M) c tr c₁ := by
      cases t with
      | request p x n =>
        obtain ⟨hplay, hend⟩ := Option.filter_eq_some_iff.mp h₁
        obtain ⟨⟨tr, hr⟩, hthread⟩ := begin_orderly hq hplay
        exact ⟨quiet_ended hq hthread hend, _, hr⟩
      | outer x =>
        have hplay : P.play [.outer x] c = some c₁ := h₁
        obtain ⟨c₂, hx, hend⟩ := Option.bind_eq_some_iff.mp hplay
        obtain rfl := Option.some.inj hend
        obtain rfl := Option.some.inj hx
        exact ⟨hq, _, Lts.Run.single ⟨Step.outer, trivial, fun _ _ ha => absurd ha (by simp)⟩⟩
    obtain ⟨hq₁, tr, hr⟩ := hturn
    obtain ⟨hq', tr', hr'⟩ := ih hq₁ h₂
    exact ⟨hq', tr ++ tr', hr.append hr'⟩

end Player

end Interleave
