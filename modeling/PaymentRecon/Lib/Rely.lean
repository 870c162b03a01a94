import PaymentRecon.Lib.Protocol

/-!
# Rely — assertions of one thread that no other thread breaks

A rely/guarantee logic.  The invariant `inv` speaks about the world and the past; `start p` is known
of a thread that was not started yet, `guard p w past op` is what the programs guarantee whenever
thread `p` performs `op`, and `final p r` is known when it ended with `r`.  `Ensures p K x post`: from a moment
at which the assertion `K` holds, `x` performs every operation within its guard and ends with `post`,
whatever the other threads do in between; the assertions it goes through are `Stable`, that is, kept
by the steps of all other threads.  The invariant itself is shown to survive guarded steps once, with
no program in sight (`Rely.Sound`), and `Sound.run` puts the two together.
-/

namespace Interleave

variable {S : Sig} {E α β W Q X : Type}

/-- An assertion about the world and the past. -/
abbrev Assertion (S : Sig) (E W Q X : Type) := W → List (Act S E Q X) → Prop

/-- The conditions a group of results shares. -/
structure Rely (S : Sig) (E α W Q X : Type) where
  machine : Machine S E α W Q X
  cond : W → List (Act S E Q X) → Act S E Q X → W → Prop
  inv : Assertion S E W Q X
  start : Pid → Assertion S E W Q X
  guard : Pid → W → List (Act S E Q X) → S.Op → Prop
  final : Pid → Except E α → Assertion S E W Q X

namespace Rely

variable {L : Rely S E α W Q X} {p : Pid} {K K' F : Assertion S E W Q X}

/-- The assertion survives every step of the other threads. -/
def Stable (L : Rely S E α W Q X) (p : Pid) (K : Assertion S E W Q X) : Prop :=
  ∀ w past a w', L.inv w past → L.machine.WStep w a w' → L.cond w past a w' →
    a.pid ≠ some p → K w past → K w' (past ++ [a])

/-- The assertion survives every step. -/
def Persistent (L : Rely S E α W Q X) (K : Assertion S E W Q X) : Prop :=
  ∀ w past a w', L.inv w past → L.machine.WStep w a w' → L.cond w past a w' →
    K w past → K w' (past ++ [a])

theorem Persistent.stable (h : L.Persistent K) : L.Stable p K :=
  fun w past a w' hI hw hc _ hK => h w past a w' hI hw hc hK

theorem Stable.and (h : L.Stable p K) (h' : L.Stable p K') :
    L.Stable p fun w past => K w past ∧ K' w past :=
  fun w past a w' hI hw hc hp hK =>
    ⟨h w past a w' hI hw hc hp hK.1, h' w past a w' hI hw hc hp hK.2⟩

theorem Persistent.and (h : L.Persistent K) (h' : L.Persistent K') :
    L.Persistent fun w past => K w past ∧ K' w past :=
  fun w past a w' hI hw hc hK => ⟨h w past a w' hI hw hc hK.1, h' w past a w' hI hw hc hK.2⟩

theorem Persistent.true : L.Persistent fun _ _ => True := fun _ _ _ _ _ _ _ _ => trivial

/-- Nothing is known. -/
def top : Assertion S E W Q X := fun _ _ => True

/-- Something is known when a value was returned. -/
def whenOk (J : β → Assertion S E W Q X) : Except E β → Assertion S E W Q X
  | .ok a => J a
  | .error _ => top

theorem stable_whenOk {J : β → Assertion S E W Q X} (h : ∀ a, L.Stable p (J a))
    (r : Except E β) : L.Stable p (whenOk J r) := by
  cases r with
  | ok a => exact h a
  | error e => exact Persistent.true.stable

/-- `x` keeps its guards and ends with `post`. -/
def Ensures (L : Rely S E α W Q X) (p : Pid) :
    Assertion S E W Q X → Prog S E β → (Except E β → Assertion S E W Q X) → Prop
  | K, .ret a, post => ∀ w past, K w past → post (.ok a) w past
  | K, .raise e, post => ∀ w past, K w past → post (.error e) w past
  | K, .call op k, post => ∃ K' : Except E (S.Ret op) → Assertion S E W Q X,
      (∀ r, L.Stable p (K' r)) ∧
      (∀ w past, L.inv w past → K w past → L.guard p w past op) ∧
      (∀ f w past r w', L.inv w past → K w past → L.machine.exec f p op w r w' →
        L.cond w past (.run p f op r) w' → K' r w' (past ++ [.run p f op r])) ∧
      ∀ r, Ensures L p (K' r) (k r) post

variable {x : Prog S E β} {post post' : Except E β → Assertion S E W Q X}

theorem Ensures.pre (h : L.Ensures p K x post) (hK : ∀ w past, K' w past → K w past) :
    L.Ensures p K' x post := by
  cases x with
  | ret a => exact fun w past hk => h w past (hK w past hk)
  | raise e => exact fun w past hk => h w past (hK w past hk)
  | call op k =>
    obtain ⟨J, hst, hg, hx, hk⟩ := h
    exact ⟨J, hst, fun w past hI hk => hg w past hI (hK w past hk),
      fun f w past r w' hI hk => hx f w past r w' hI (hK w past hk), hk⟩

theorem Ensures.mono (h : L.Ensures p K x post)
    (himp : ∀ r w past, post r w past → post' r w past) : L.Ensures p K x post' := by
  induction x generalizing K with
  | ret a => exact fun w past hk => himp _ _ _ (h w past hk)
  | raise e => exact fun w past hk => himp _ _ _ (h w past hk)
  | call op k ih =>
    obtain ⟨J, hst, hg, hx, hk⟩ := h
    exact ⟨J, hst, hg, hx, fun r => ih r (hk r)⟩

/-- **Sequencing.** -/
theorem Ensures.bind {γ : Type} {f : β → Prog S E γ}
    {m : Except E β → Assertion S E W Q X} {post : Except E γ → Assertion S E W Q X}
    (hx : L.Ensures p K x m) (hok : ∀ a, L.Ensures p (m (.ok a)) (f a) post)
    (herr : ∀ e w past, m (.error e) w past → post (.error e) w past) :
    L.Ensures p K (x >>= f) post := by
  induction x generalizing K with
  | ret a => exact (hok a).pre hx
  | raise e => exact fun w past hk => herr _ _ _ (hx w past hk)
  | call op k ih =>
    obtain ⟨J, hst, hg, hex, hk⟩ := hx
    exact ⟨J, hst, hg, hex, fun r => ih r (hk r)⟩

/-- **Exception handling.** -/
theorem Ensures.tryCatch {h : E → Prog S E β} {m : Except E β → Assertion S E W Q X}
    (hx : L.Ensures p K x m) (hok : ∀ a w past, m (.ok a) w past → post (.ok a) w past)
    (herr : ∀ e, L.Ensures p (m (.error e)) (h e) post) :
    L.Ensures p K (x.tryCatch h) post := by
  induction x generalizing K with
  | ret a => exact fun w past hk => hok _ _ _ (hx w past hk)
  | raise e => exact (herr e).pre hx
  | call op k ih =>
    obtain ⟨J, hst, hg, hex, hk⟩ := hx
    exact ⟨J, hst, hg, hex, fun r => ih r (hk r)⟩

/-- **One operation.** -/
theorem Ensures.perform {op : S.Op} {post : Except E (S.Ret op) → Assertion S E W Q X}
    (hst : ∀ r, L.Stable p (post r))
    (hg : ∀ w past, L.inv w past → K w past → L.guard p w past op)
    (hx : ∀ f w past r w', L.inv w past → K w past → L.machine.exec f p op w r w' →
      L.cond w past (.run p f op r) w' → post r w' (past ++ [.run p f op r])) :
    L.Ensures p K (Prog.perform op) post := by
  refine ⟨post, hst, hg, hx, ?_⟩
  intro r
  cases r with
  | ok a => exact fun _ _ h => h
  | error e => exact fun _ _ h => h

/-- An operation whose answer tells nothing new. -/
theorem Ensures.skip {op : S.Op} (hK : L.Persistent K)
    (hg : ∀ w past, L.inv w past → K w past → L.guard p w past op) :
    L.Ensures p K (Prog.perform op) fun _ => K :=
  Ensures.perform (fun _ => hK.stable) hg fun f w past r w' hI hk hx hc =>
    hK w past (.run p f op r) w' hI hx hc hk

/-- **Framing**: what every step keeps stays known. -/
theorem Ensures.frame (h : L.Ensures p K x post) (hF : L.Persistent F) :
    L.Ensures p (fun w past => K w past ∧ F w past) x
      fun r w past => post r w past ∧ F w past := by
  induction x generalizing K with
  | ret a => exact fun w past hk => ⟨h w past hk.1, hk.2⟩
  | raise e => exact fun w past hk => ⟨h w past hk.1, hk.2⟩
  | call op k ih =>
    obtain ⟨J, hst, hg, hx, hk⟩ := h
    refine ⟨fun r w past => J r w past ∧ F w past, fun r => (hst r).and hF.stable, ?_, ?_, ?_⟩
    · exact fun w past hI hk => hg w past hI hk.1
    · exact fun f w past r w' hI hk hex hc =>
        ⟨hx f w past r w' hI hk.1 hex hc, hF w past (.run p f op r) w' hI hex hc hk.2⟩
    · exact fun r => ih r (hk r)

/-- **Conjunction**: two specifications of one program. -/
theorem Ensures.both (h : L.Ensures p K x post) (h' : L.Ensures p K' x post') :
    L.Ensures p (fun w past => K w past ∧ K' w past) x
      fun r w past => post r w past ∧ post' r w past := by
  induction x generalizing K K' with
  | ret a => exact fun w past hk => ⟨h w past hk.1, h' w past hk.2⟩
  | raise e => exact fun w past hk => ⟨h w past hk.1, h' w past hk.2⟩
  | call op k ih =>
    obtain ⟨J, hst, hg, hx, hk⟩ := h
    obtain ⟨J', hst', -, hx', hk'⟩ := h'
    refine ⟨fun r w past => J r w past ∧ J' r w past, fun r => (hst r).and (hst' r), ?_, ?_, ?_⟩
    · exact fun w past hI hK => hg w past hI hK.1
    · exact fun f w past r w' hI hK hex hc =>
        ⟨hx f w past r w' hI hK.1 hex hc, hx' f w past r w' hI hK.2 hex hc⟩
    · exact fun r => ih r (hk r) (hk' r)

theorem Stable.false : L.Stable p fun _ _ => False := fun _ _ _ _ _ _ _ _ h => h

theorem Stable.exists {ι : Type} {J : ι → Assertion S E W Q X} (h : ∀ i, L.Stable p (J i)) :
    L.Stable p fun w past => ∃ i, J i w past :=
  fun w past a w' hI hw hc hp ⟨i, hJ⟩ => ⟨i, h i w past a w' hI hw hc hp hJ⟩

/-- An assertion that never holds ensures anything. -/
theorem Ensures.absurd (h : ∀ w past, ¬ K w past) : L.Ensures p K x post := by
  induction x generalizing K with
  | ret a => exact fun w past hk => (h w past hk).elim
  | raise e => exact fun w past hk => (h w past hk).elim
  | call op k ih =>
    exact ⟨fun _ _ _ => False, fun _ => Stable.false, fun w past _ hk => (h w past hk).elim,
      fun _ w past _ _ _ hk => (h w past hk).elim, fun r => ih r fun _ _ hf => hf⟩

/-- A fact that is no assertion about the world may be used to prove the rest. -/
theorem Ensures.pure {φ : Prop} (h : φ → L.Ensures p K x post) :
    L.Ensures p (fun w past => φ ∧ K w past) x post := by
  by_cases hφ : φ
  · exact (h hφ).pre fun _ _ hk => hk.2
  · exact Ensures.absurd fun _ _ hk => hφ hk.1

theorem Ensures.exists {ι : Type} {J : ι → Assertion S E W Q X}
    (h : ∀ i, L.Ensures p (J i) x post) :
    L.Ensures p (fun w past => ∃ i, J i w past) x post := by
  induction x generalizing J with
  | ret a => exact fun w past ⟨i, hJ⟩ => h i w past hJ
  | raise e => exact fun w past ⟨i, hJ⟩ => h i w past hJ
  | call op k ih =>
    choose J' hst hg hx hk using h
    refine ⟨fun r w past => ∃ i, J' i r w past, fun r => Stable.exists fun i => hst i r, ?_, ?_, ?_⟩
    · exact fun w past hI ⟨i, hJ⟩ => hg i w past hI hJ
    · exact fun f w past r w' hI ⟨i, hJ⟩ hex hc => ⟨i, hx i f w past r w' hI hJ hex hc⟩
    · exact fun r => ih r fun i => hk i r

/-- A program all of whose operations are always within their guards. -/
theorem Ensures.ofAll {A : S.Op → Prop} {R : Except E β → Prop} (hx : x.All A R)
    (hA : ∀ op w past, A op → L.inv w past → L.guard p w past op) :
    L.Ensures p K x fun r _ _ => R r := by
  induction x generalizing K with
  | ret a => exact fun _ _ _ => hx
  | raise e => exact fun _ _ _ => hx
  | call op k ih =>
    exact ⟨fun _ => top, fun _ => Persistent.true.stable, fun w past hI _ => hA op w past hx.1 hI,
      fun _ _ _ _ _ _ _ _ _ => trivial, fun r => ih r (hx.2 r)⟩

/-- What a thread did since the program began leads the program to where it is, and in the end to its
end; the guards of the operations may use it. -/
theorem Ensures.traces {calls : List (Σ op : S.Op, Except E (S.Ret op))}
    (hg : ∀ run op k w past, x.Reaches run (.call op k) → callsOf p past = calls ++ run →
      L.inv w past → L.guard p w past op) :
    L.Ensures p (fun _ past => callsOf p past = calls) x
      fun r _ past => ∃ run, callsOf p past = calls ++ run ∧ x.Ends run r := by
  induction x generalizing calls with
  | ret a => exact fun w past h => ⟨[], by simpa using h, .ret⟩
  | raise e => exact fun w past h => ⟨[], by simpa using h, .raise⟩
  | call op k ih =>
    refine ⟨fun r _ past => callsOf p past = calls ++ [⟨op, r⟩], fun r => ?_, ?_, ?_, fun r => ?_⟩
    · intro w past a w' _ _ _ hp h
      show callsOf p (past ++ [a]) = _
      rw [callsOf_other hp]
      exact h
    · exact fun w past hI h => hg [] op k w past .here (by simpa using h) hI
    · intro f w past r w' _ h _ _
      show callsOf p (past ++ [.run p f op r]) = _
      rw [callsOf_own, show callsOf p past = calls from h]
    · have hrest : ∀ run op' k' w past, (k r).Reaches run (.call op' k') →
          callsOf p past = (calls ++ [⟨op, r⟩]) ++ run → L.inv w past → L.guard p w past op' := by
        intro run op' k' w past hreach hc hI
        exact hg (⟨op, r⟩ :: run) op' k' w past (.call hreach) (by simpa using hc) hI
      refine (ih r hrest).mono ?_
      rintro res w past ⟨run, hc, hend⟩
      exact ⟨⟨op, r⟩ :: run, by simpa using hc, .call hend⟩

theorem Ensures.ends {A : S.Op → Prop} {R : Except E β → Prop}
    {calls : List (Σ op : S.Op, Except E (S.Ret op))} (hx : x.All A R)
    (hA : ∀ op w past, A op → L.inv w past → L.guard p w past op) :
    L.Ensures p (fun _ past => callsOf p past = calls) x
      fun r _ past => ∃ run, callsOf p past = calls ++ run ∧ x.Ends run r :=
  Ensures.traces fun _ op _ w past hreach _ hI => hA op w past (hreach.all hx).2.1 hI

/-- A program keeps an assertion that each of its operations keeps, and its result is one of its
results. -/
theorem Ensures.allOf {A : S.Op → Prop} {R : Except E β → Prop}
    (h : ∀ op, A op → L.Ensures p K (Prog.perform op) fun _ => K) (hx : x.All A R) :
    L.Ensures p K x fun r w past => K w past ∧ R r := by
  induction x with
  | ret b => exact fun _ _ hk => ⟨hk, hx⟩
  | raise e => exact fun _ _ hk => ⟨hk, hx⟩
  | call op k ih =>
    obtain ⟨J, hst, hg, hex, hend⟩ := h op hx.1
    refine ⟨J, hst, hg, hex, fun r => (ih r (hx.2 r)).pre ?_⟩
    cases r with
    | ok a => exact hend (.ok a)
    | error e => exact hend (.error e)

theorem Ensures.all {A : S.Op → Prop} {R : Except E β → Prop}
    (h : ∀ op, A op → L.Ensures p K (Prog.perform op) fun _ => K) (hx : x.All A R) :
    L.Ensures p K x fun _ => K :=
  (Ensures.allOf h hx).mono fun _ _ _ hk => hk.1

/-- A loop over a list keeps an assertion that every step keeps. -/
theorem Ensures.forEach {γ : Type} {f : γ → Prog S E Unit} {xs : List γ} (hK : L.Persistent K)
    (hf : ∀ y ∈ xs, L.Ensures p K (f y) fun _ => top) :
    L.Ensures p K (Prog.forEach f xs) fun _ => top := by
  induction xs with
  | nil => exact fun _ _ _ => trivial
  | cons y ys ih =>
    have h1 : L.Ensures p K (f y) fun _ w past => top w past ∧ K w past :=
      ((hf y List.mem_cons_self).frame hK).pre fun _ _ h => ⟨h, h⟩
    refine Ensures.bind h1 ?_ fun _ _ _ _ => trivial
    intro _
    exact (ih fun z hz => hf z (List.mem_cons_of_mem _ hz)).pre fun _ _ h => h.2

/-- A loop over a list whose body leads from `K` back to `K`. -/
theorem Ensures.forEachInv {γ : Type} {f : γ → Prog S E Unit} {xs : List γ}
    (hf : ∀ y ∈ xs, L.Ensures p K (f y) fun _ => K) :
    L.Ensures p K (Prog.forEach f xs) fun _ => K := by
  induction xs with
  | nil => exact fun _ _ h => h
  | cons y ys ih =>
    refine Ensures.bind (hf y List.mem_cons_self) ?_ fun _ _ _ h => h
    exact fun _ => ih fun z hz => hf z (List.mem_cons_of_mem _ hz)

variable (L)

/-- Every request keeps its guards, and guarded steps keep the invariant. -/
structure Sound : Prop where
  prog : ∀ p q w past w', L.inv w past → L.cond w past (.spawn p q) w' →
    L.Ensures p (fun w past => L.start p w past ∧ .spawn p q ∈ past) (L.machine.prog q) (L.final p)
  start : ∀ p, L.Stable p (L.start p)
  begin : ∀ w past p q, L.start p w past → L.start p w (past ++ [.spawn p q])
  spawn : ∀ w past p q, L.inv w past → L.cond w past (.spawn p q) w →
    L.inv w (past ++ [.spawn p q])
  run : ∀ f w past p op r w', L.inv w past → L.guard p w past op →
    L.machine.exec f p op w r w' → L.cond w past (.run p f op r) w' →
    L.inv w' (past ++ [.run p f op r])
  crash : ∀ w past p, L.inv w past → L.cond w past (.crash p) (L.machine.abort p w) →
    L.inv (L.machine.abort p w) (past ++ [.crash p])
  outer : ∀ w past x, L.inv w past → L.cond w past (.outer x) (L.machine.outer x w) →
    L.inv (L.machine.outer x w) (past ++ [.outer x])

/-- A step that is allowed and, when it is an operation, within its guard. -/
def Guarded (w : W) (past : List (Act S E Q X)) (a : Act S E Q X) (w' : W) : Prop :=
  L.cond w past a w' ∧ ∀ p f op r, a = .run p f op r → L.guard p w past op

/-- The invariant, and what every thread is known to do. -/
structure Holds (c : Config S E α W Q X) : Prop where
  inv : L.inv c.world c.past
  fresh : ∀ p, c.thread p = .fresh → L.start p c.world c.past
  live : ∀ p x, c.thread p = .live x →
    ∃ K, K c.world c.past ∧ L.Stable p K ∧ L.Ensures p K x (L.final p)

variable {L}

/-- A thread that did not move is still known to do what it was known to do. -/
theorem Holds.other {c : Config S E α W Q X} {a : Act S E Q X} {w' : W} (h : L.Holds c)
    (hw : L.machine.WStep c.world a w') (hc : L.cond c.world c.past a w') {q : Pid}
    (hq : a.pid ≠ some q) {x : Prog S E α} (hx : c.thread q = .live x) :
    ∃ K, K w' (c.past ++ [a]) ∧ L.Stable q K ∧ L.Ensures q K x (L.final q) := by
  obtain ⟨K, hK, hst, hen⟩ := h.live q x hx
  exact ⟨K, hst _ _ _ _ h.inv hw hc hq hK, hst, hen⟩

/-- After a step the threads are known to do the same as before, and the thread that moved is known to
do what the step left it with. -/
theorem Sound.threads (hS : L.Sound) {c : Config S E α W Q X} {a : Act S E Q X} {w' : W} {p : Pid}
    {y : Thread S E α} (h : L.Holds c) (hw : L.machine.WStep c.world a w')
    (hc : L.cond c.world c.past a w') (hp : a.pid = some p) (hinv : L.inv w' (c.past ++ [a]))
    (hy : y ≠ .fresh) (hlive : ∀ x, y = .live x →
      ∃ K, K w' (c.past ++ [a]) ∧ L.Stable p K ∧ L.Ensures p K x (L.final p)) :
    L.Holds (c.next a w' (Function.update c.thread p y)) := by
  have hne : ∀ q, q ≠ p → a.pid ≠ some q := by
    intro q hq heq
    rw [hp] at heq
    exact hq (Option.some.inj heq).symm
  refine ⟨hinv, ?_, ?_⟩
  · intro q hq
    by_cases hqp : q = p
    · subst hqp
      exact absurd (by simpa [Config.next] using hq) hy
    · have hq' : c.thread q = .fresh := by simpa [Config.next, hqp] using hq
      exact hS.start q _ _ _ _ h.inv hw hc (hne q hqp) (h.fresh q hq')
  · intro q x hx
    by_cases hqp : q = p
    · subst hqp
      exact hlive x (by simpa [Config.next] using hx)
    · exact h.other hw hc (hne q hqp) (by simpa [Config.next, hqp] using hx)

/-- **Step lemma**: an allowed step is guarded and keeps what is known. -/
theorem Sound.step (hS : L.Sound) {c c' : Config S E α W Q X} {a : Act S E Q X}
    (hs : Step L.machine c a c') (hc : Allows L.cond c a c') (h : L.Holds c) :
    Allows L.Guarded c a c' ∧ L.Holds c' := by
  have hw : L.machine.WStep c.world a c'.world := hs.wstep.1
  cases hs with
  | @spawn p q ht =>
    refine ⟨⟨hc, by simp⟩, ?_⟩
    refine hS.threads h hw hc rfl (hS.spawn _ _ p q h.inv hc) (by simp) ?_
    rintro x hx
    obtain rfl : L.machine.prog q = x := by simpa using hx
    have hstart := hS.begin _ _ p q (h.fresh p ht)
    have hlive : L.Ensures p (fun w past => (L.start p w past ∧ .spawn p q ∈ past) ∧ True)
        (L.machine.prog q) (L.final p) :=
      (hS.prog p q _ _ _ h.inv hc).pre fun _ _ hk => hk.1
    refine ⟨_, ⟨⟨hstart, by simp⟩, trivial⟩, ?_, hlive⟩
    intro w past a w' hI hws hcs hpa hk
    exact ⟨⟨hS.start p w past a w' hI hws hcs hpa hk.1.1, List.mem_append_left _ hk.1.2⟩, trivial⟩
  | @run p f op k r w' ht hx =>
    obtain ⟨K, hK, -, J, hst, hg, hex, hk⟩ := h.live p _ ht
    have hguard : L.guard p c.world c.past op := hg _ _ h.inv hK
    refine ⟨⟨hc, ?_⟩, ?_⟩
    · rintro p' f' op' r' heq
      cases heq
      exact hguard
    · refine hS.threads h hw hc rfl (hS.run f _ _ p op r w' h.inv hguard hx hc) (by simp) ?_
      rintro x hx'
      obtain rfl : k r = x := by simpa using hx'
      exact ⟨J r, hex f _ _ r w' h.inv hK hx hc, hst r, hk r⟩
  | @crash p op k ht =>
    refine ⟨⟨hc, by simp⟩, ?_⟩
    exact hS.threads h hw hc rfl (hS.crash _ _ p h.inv hc) (by simp) (by simp)
  | @outer x =>
    refine ⟨⟨hc, by simp⟩, hS.outer _ _ x h.inv hc, ?_, ?_⟩
    · intro q hq
      exact hS.start q _ _ _ _ h.inv hw hc (by simp [Act.pid]) (h.fresh q hq)
    · intro q y hy
      exact h.other hw hc (by simp [Act.pid]) hy

/-- A finished thread ended as `final` says. -/
theorem Holds.final {c : Config S E α W Q X} (h : L.Holds c) {a : α}
    (hx : c.thread p = .live (.ret a)) : L.final p (.ok a) c.world c.past := by
  obtain ⟨K, hK, -, hen⟩ := h.live p _ hx
  exact hen _ _ hK

theorem Holds.final_error {c : Config S E α W Q X} (h : L.Holds c) {e : E}
    (hx : c.thread p = .live (.raise e)) : L.final p (.error e) c.world c.past := by
  obtain ⟨K, hK, -, hen⟩ := h.live p _ hx
  exact hen _ _ hK

/-- A thread that neither runs nor crashed is known as before its start or at its end. -/
theorem Holds.resting {c : Config S E α W Q X} (h : L.Holds c) (hq : ¬ (c.thread p).Running)
    (hc : c.thread p ≠ .crashed) : L.start p c.world c.past ∨ ∃ r, L.final p r c.world c.past := by
  cases ht : c.thread p with
  | fresh => exact Or.inl (h.fresh p ht)
  | live x =>
    cases x with
    | ret a => exact Or.inr ⟨_, h.final ht⟩
    | raise e => exact Or.inr ⟨_, h.final_error ht⟩
    | call op k =>
      refine absurd ?_ hq
      rw [ht]
      trivial
  | crashed => exact absurd ht hc

theorem Holds.quiet {c : Config S E α W Q X} (h : L.Holds c) (hq : c.Quiet)
    (hc : ∀ p, c.thread p ≠ .crashed) (p : Pid) :
    L.start p c.world c.past ∨ ∃ r, L.final p r c.world c.past := h.resting (hq p) (hc p)

theorem Holds.init {w : W} (h : L.inv w []) (hs : ∀ p, L.start p w []) : L.Holds (.init w) :=
  ⟨h, fun p _ => hs p, fun _ _ hx => by simp [Config.init] at hx⟩

/-- **Derived invariants**: what guarded steps keep, given the invariant, holds after every run of
allowed steps.  `P` is a further condition on the steps of the run. -/
theorem Sound.derive (hS : L.Sound) {P : Config S E α W Q X → Act S E Q X → Config S E α W Q X → Prop}
    {J : Config S E α W Q X → Prop} {c c' : Config S E α W Q X} {tr : List (Act S E Q X)}
    (hr : Lts.Run (Lts.restrict (Step L.machine) fun c a c' => Allows L.cond c a c' ∧ P c a c') c tr c')
    (h : L.Holds c) (h0 : J c)
    (hstep : ∀ c a c', L.inv c.world c.past → J c → Step L.machine c a c' →
      Allows L.Guarded c a c' → P c a c' → J c') : L.Holds c' ∧ J c' := by
  refine hr.inv (fun c => L.Holds c ∧ J c) ⟨h, h0⟩ ?_
  rintro c a c' ⟨hH, hJ⟩ ⟨hs, hc, hP⟩
  obtain ⟨hg, hH'⟩ := hS.step hs hc hH
  exact ⟨hH', hstep c a c' hH.inv hJ hs hg hP⟩

end Rely

end Interleave
