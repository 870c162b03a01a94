import Mathlib.Logic.Function.Basic
import PaymentRecon.Lib.Lts

/-!
# Prog — programs over atomic operations and their interleavings

A program (`Prog`) is a tree: it returns, raises, or calls one atomic operation and goes on with its
answer.  Programs form a monad with exceptions, so they are written in `do` notation.  A `Machine`
says what the operations do to a shared world, and `Step` interleaves any number of threads, one
operation at a time: a thread may be started, may crash between two operations, and an operation may
fail without effect or lose its answer (`Fault`).

A configuration also keeps the steps taken so far.  No step reads them: `past` is a history variable,
which conditions and invariants may speak about.
-/

namespace Interleave

/-- A signature: the atomic operations and what each one answers. -/
structure Sig where
  Op : Type
  Ret : Op → Type

/-- Programs over a signature, with exceptions in `E`. -/
inductive Prog (S : Sig) (E α : Type) : Type
  | ret (a : α)
  | raise (e : E)
  | call (op : S.Op) (k : Except E (S.Ret op) → Prog S E α)

namespace Prog

variable {S : Sig} {E α β : Type}

def bind : Prog S E α → (α → Prog S E β) → Prog S E β
  | ret a, f => f a
  | raise e, _ => raise e
  | call op k, f => call op fun r => (k r).bind f

def tryCatch : Prog S E α → (E → Prog S E α) → Prog S E α
  | ret a, _ => ret a
  | raise e, h => h e
  | call op k, h => call op fun r => (k r).tryCatch h

/-- Call one operation; its exception propagates. -/
def perform (op : S.Op) : Prog S E (S.Ret op) :=
  call op fun
    | .ok r => ret r
    | .error e => raise e

/-- Run `f` on every element in turn. -/
def forEach {β : Type} (f : β → Prog S E Unit) : List β → Prog S E Unit
  | [] => ret ()
  | x :: xs => (f x).bind fun _ => forEach f xs

/-- Whatever the answers are, every operation the program comes to meets `A` and its result
meets `R`. -/
def All (A : S.Op → Prop) (R : Except E α → Prop) : Prog S E α → Prop
  | ret a => R (.ok a)
  | raise e => R (.error e)
  | call op k => A op ∧ ∀ r, (k r).All A R

/-- The value, or the exception, of a computation that touches no store. -/
def ofExcept : Except E α → Prog S E α
  | .ok a => ret a
  | .error e => raise e

instance : Monad (Prog S E) where
  pure := ret
  bind := bind

instance : MonadExceptOf E (Prog S E) where
  throw := raise
  tryCatch := tryCatch

@[simp] theorem pure_eq (a : α) : (pure a : Prog S E α) = ret a := rfl

@[simp] theorem throw_eq (e : E) : (throw e : Prog S E α) = raise e := rfl

@[simp] theorem ret_bind (a : α) (f : α → Prog S E β) : (ret a >>= f) = f a := rfl

@[simp] theorem raise_bind (e : E) (f : α → Prog S E β) : (raise e >>= f) = raise e := rfl

@[simp] theorem call_bind (op : S.Op) (k : Except E (S.Ret op) → Prog S E α)
    (f : α → Prog S E β) : (call op k >>= f) = call op fun r => k r >>= f := rfl

@[simp] theorem perform_bind (op : S.Op) (f : S.Ret op → Prog S E β) :
    (perform op >>= f) = call op fun r => match r with
      | .ok a => f a
      | .error e => raise e := by
  show call op _ = call op _
  congr 1
  funext r
  cases r <;> rfl

@[simp] theorem ret_tryCatch (a : α) (h : E → Prog S E α) : (ret a).tryCatch h = ret a := rfl

@[simp] theorem raise_tryCatch (e : E) (h : E → Prog S E α) : (raise e).tryCatch h = h e := rfl

@[simp] theorem call_tryCatch (op : S.Op) (k : Except E (S.Ret op) → Prog S E α)
    (h : E → Prog S E α) : (call op k).tryCatch h = call op fun r => (k r).tryCatch h := rfl

@[simp] theorem ofExcept_ok (a : α) : (ofExcept (.ok a) : Prog S E α) = ret a := rfl

@[simp] theorem ofExcept_error (e : E) : (ofExcept (.error e) : Prog S E α) = raise e := rfl

section All

variable {A : S.Op → Prop}

@[simp] theorem all_ret {R : Except E α → Prop} (a : α) :
    (ret a : Prog S E α).All A R ↔ R (.ok a) := Iff.rfl

@[simp] theorem all_raise {R : Except E α → Prop} (e : E) :
    (raise e : Prog S E α).All A R ↔ R (.error e) := Iff.rfl

/-- Nothing is asked of the operations of a program. -/
theorem all_true (x : Prog S E β) : x.All (fun _ => True) fun _ => True := by
  induction x with
  | ret _ => trivial
  | raise _ => trivial
  | call op k ih => exact ⟨trivial, ih⟩

theorem All.bind {x : Prog S E α} {f : α → Prog S E β} {m : Except E α → Prop}
    {R : Except E β → Prop} (hx : x.All A m) (hok : ∀ a, m (.ok a) → (f a).All A R)
    (herr : ∀ e, m (.error e) → R (.error e)) : (x >>= f).All A R := by
  induction x with
  | ret a => exact hok a hx
  | raise e => exact herr e hx
  | call op k ih => exact ⟨hx.1, fun r => ih r (hx.2 r)⟩

theorem All.tryCatch {x : Prog S E α} {h : E → Prog S E α} {m R : Except E α → Prop}
    (hx : x.All A m) (hok : ∀ a, m (.ok a) → R (.ok a))
    (herr : ∀ e, m (.error e) → (h e).All A R) : (x.tryCatch h).All A R := by
  induction x with
  | ret a => exact hok a hx
  | raise e => exact herr e hx
  | call op k ih => exact ⟨hx.1, fun r => ih r (hx.2 r)⟩

theorem All.perform {op : S.Op} {R : Except E (S.Ret op) → Prop} (h : A op) (hR : ∀ r, R r) :
    (perform op : Prog S E (S.Ret op)).All A R :=
  ⟨h, fun r => by cases r <;> exact hR _⟩

theorem All.mono {A' : S.Op → Prop} {x : Prog S E α} {R R' : Except E α → Prop} (hx : x.All A R)
    (hA : ∀ op, A op → A' op) (hR : ∀ r, R r → R' r) : x.All A' R' := by
  induction x with
  | ret a => exact hR _ hx
  | raise e => exact hR _ hx
  | call op k ih => exact ⟨hA op hx.1, fun r => ih r (hx.2 r)⟩

theorem All.forEach {f : β → Prog S E Unit} {xs : List β} {R : Except E Unit → Prop}
    (h : ∀ x ∈ xs, (f x).All A R) (hR : R (.ok ())) : (Prog.forEach f xs).All A R := by
  induction xs with
  | nil => exact hR
  | cons x xs ih =>
    exact All.bind (h x List.mem_cons_self)
      (fun _ _ => ih fun y hy => h y (List.mem_cons_of_mem _ hy)) fun _ he => he

end All

/-- With these operations and answers, one after the other, the program ends with `r`. -/
inductive Ends : Prog S E α → List (Σ op : S.Op, Except E (S.Ret op)) → Except E α → Prop
  | ret {a : α} : Ends (ret a) [] (.ok a)
  | raise {e : E} : Ends (raise e) [] (.error e)
  | call {op : S.Op} {k : Except E (S.Ret op) → Prog S E α} {r : Except E (S.Ret op)}
      {calls : List (Σ op : S.Op, Except E (S.Ret op))} {res : Except E α}
      (h : Ends (k r) calls res) : Ends (call op k) (⟨op, r⟩ :: calls) res

/-- With these operations and answers, one after the other, the program has come to `y`. -/
inductive Reaches : Prog S E α → List (Σ op : S.Op, Except E (S.Ret op)) → Prog S E α → Prop
  | here {x : Prog S E α} : Reaches x [] x
  | call {op : S.Op} {k : Except E (S.Ret op) → Prog S E α} {r : Except E (S.Ret op)}
      {calls : List (Σ op : S.Op, Except E (S.Ret op))} {y : Prog S E α}
      (h : Reaches (k r) calls y) : Reaches (call op k) (⟨op, r⟩ :: calls) y

theorem Reaches.snoc {x : Prog S E α} {calls : List (Σ op : S.Op, Except E (S.Ret op))} {op : S.Op}
    {k : Except E (S.Ret op) → Prog S E α} (h : x.Reaches calls (.call op k))
    (r : Except E (S.Ret op)) : x.Reaches (calls ++ [⟨op, r⟩]) (k r) := by
  generalize hy : Prog.call op k = y at h
  induction h with
  | here => exact hy ▸ .call .here
  | call _ ih => exact .call (ih hy)

theorem Reaches.all {A : S.Op → Prop} {R : Except E α → Prop} {x y : Prog S E α}
    {calls : List (Σ op : S.Op, Except E (S.Ret op))} (h : x.Reaches calls y) (hx : x.All A R) :
    (∀ c ∈ calls, A c.1) ∧ y.All A R := by
  induction h with
  | here => exact ⟨by simp, hx⟩
  | call _ ih =>
    obtain ⟨hcalls, hy⟩ := ih (hx.2 _)
    exact ⟨List.forall_mem_cons.mpr ⟨hx.1, hcalls⟩, hy⟩

theorem Ends.all {A : S.Op → Prop} {R : Except E α → Prop} {x : Prog S E α} {r : Except E α}
    {calls : List (Σ op : S.Op, Except E (S.Ret op))} (h : x.Ends calls r) (hx : x.All A R) :
    ∀ c ∈ calls, A c.1 := by
  induction h with
  | ret => simp
  | raise => simp
  | call _ ih => exact List.forall_mem_cons.mpr ⟨hx.1, ih (hx.2 _)⟩

/-- What a sequence did splits into what its two parts did, or the first part failed. -/
theorem ends_bind {x : Prog S E α} {f : α → Prog S E β} {r : Except E β}
    {calls : List (Σ op : S.Op, Except E (S.Ret op))} (h : (x >>= f).Ends calls r) :
    (∃ a us vs, calls = us ++ vs ∧ x.Ends us (.ok a) ∧ (f a).Ends vs r) ∨
      ∃ e, r = .error e ∧ x.Ends calls (.error e) := by
  induction x generalizing calls with
  | ret a => exact Or.inl ⟨a, [], calls, rfl, .ret, h⟩
  | raise e =>
    cases h
    exact Or.inr ⟨e, rfl, .raise⟩
  | call op k ih =>
    cases h with
    | call h =>
      rcases ih _ h with ⟨a, us, vs, rfl, hx, hf⟩ | ⟨e, rfl, hx⟩
      · exact Or.inl ⟨a, _ :: us, vs, rfl, .call hx, hf⟩
      · exact Or.inr ⟨e, rfl, .call hx⟩

/-- What a program with a handler did is what it did alone, or what it did until it failed and then what
the handler did. -/
theorem ends_tryCatch {x : Prog S E α} {g : E → Prog S E α} {r : Except E α}
    {calls : List (Σ op : S.Op, Except E (S.Ret op))} (h : (x.tryCatch g).Ends calls r) :
    (∃ a, r = .ok a ∧ x.Ends calls (.ok a)) ∨
      ∃ e us vs, calls = us ++ vs ∧ x.Ends us (.error e) ∧ (g e).Ends vs r := by
  induction x generalizing calls with
  | ret a =>
    cases h
    exact Or.inl ⟨a, rfl, .ret⟩
  | raise e => exact Or.inr ⟨e, [], calls, rfl, .raise, h⟩
  | call op k ih =>
    cases h with
    | call h =>
      rcases ih _ h with ⟨a, rfl, hx⟩ | ⟨e, us, vs, rfl, hx, hg⟩
      · exact Or.inl ⟨a, rfl, .call hx⟩
      · exact Or.inr ⟨e, _ :: us, vs, rfl, .call hx, hg⟩

theorem ends_perform {op : S.Op} {r : Except E (S.Ret op)}
    {calls : List (Σ op : S.Op, Except E (S.Ret op))} (h : (perform op : Prog S E _).Ends calls r) :
    calls = [⟨op, r⟩] := by
  cases h with
  | @call op k r' calls res h =>
    cases r' with
    | ok a =>
      cases h
      rfl
    | error e =>
      cases h
      rfl

end Prog

/-! ## Machines and interleavings -/

abbrev Pid := ℕ

/-- How an operation fares: it is done, fails without effect, or is done and its answer lost. -/
inductive Fault
  | done
  | failed
  | lost
  deriving DecidableEq

/-- What runs: the program of each request, the effect of each operation on the world `W`, what a
crash of a thread does to the world, and the events of the environment. -/
structure Machine (S : Sig) (E α W Q X : Type) where
  prog : Q → Prog S E α
  exec : Fault → Pid → (op : S.Op) → W → Except E (S.Ret op) → W → Prop
  abort : Pid → W → W
  outer : X → W → W

/-- A thread was not started yet, has this program left, or crashed. -/
inductive Thread (S : Sig) (E α : Type)
  | fresh
  | live (x : Prog S E α)
  | crashed

/-- Labels of steps. -/
inductive Act (S : Sig) (E Q X : Type)
  | spawn (p : Pid) (q : Q)
  | run (p : Pid) (f : Fault) (op : S.Op) (r : Except E (S.Ret op))
  | crash (p : Pid)
  | outer (x : X)

/-- The world, the threads and the steps taken so far. -/
structure Config (S : Sig) (E α W Q X : Type) where
  world : W
  thread : Pid → Thread S E α
  past : List (Act S E Q X)

variable {S : Sig} {E α W Q X : Type}

/-- Neither a crash nor a faulty operation. -/
def Act.Clean : Act S E Q X → Prop
  | .run _ f _ _ => f = .done
  | .crash _ => False
  | _ => True

instance (a : Act S E Q X) : Decidable a.Clean :=
  match a with
  | .run _ f _ _ => inferInstanceAs (Decidable (f = .done))
  | .crash _ => inferInstanceAs (Decidable False)
  | .spawn _ _ | .outer _ => inferInstanceAs (Decidable True)

/-- The thread whose turn the step is. -/
def Act.pid : Act S E Q X → Option Pid
  | .spawn p _ => some p
  | .run p _ _ _ => some p
  | .crash p => some p
  | .outer _ => none

/-- The thread has operations left. -/
def Thread.Running : Thread S E α → Prop
  | .live (.call _ _) => True
  | _ => False

/-- No request is in flight. -/
def Config.Quiet (c : Config S E α W Q X) : Prop := ∀ p, ¬ (c.thread p).Running

/-- The configuration after a step labelled `a` that left the world `w`. -/
def Config.next (c : Config S E α W Q X) (a : Act S E Q X) (w : W)
    (t : Pid → Thread S E α) : Config S E α W Q X := ⟨w, t, c.past ++ [a]⟩

/-- One step of the interleaving. -/
inductive Step (M : Machine S E α W Q X) :
    Config S E α W Q X → Act S E Q X → Config S E α W Q X → Prop
  | spawn {c : Config S E α W Q X} {p : Pid} {q : Q} (h : c.thread p = .fresh) :
      Step M c (.spawn p q)
        (c.next (.spawn p q) c.world (Function.update c.thread p (.live (M.prog q))))
  | run {c : Config S E α W Q X} {p : Pid} {f : Fault} {op : S.Op}
      {k : Except E (S.Ret op) → Prog S E α} {r : Except E (S.Ret op)} {w' : W}
      (h : c.thread p = .live (.call op k)) (hx : M.exec f p op c.world r w') :
      Step M c (.run p f op r)
        (c.next (.run p f op r) w' (Function.update c.thread p (.live (k r))))
  | crash {c : Config S E α W Q X} {p : Pid} {op : S.Op}
      {k : Except E (S.Ret op) → Prog S E α} (h : c.thread p = .live (.call op k)) :
      Step M c (.crash p)
        (c.next (.crash p) (M.abort p c.world) (Function.update c.thread p .crashed))
  | outer {c : Config S E α W Q X} {x : X} :
      Step M c (.outer x) (c.next (.outer x) (M.outer x c.world) c.thread)

/-- What a step labelled `a` does to the world. -/
def Machine.WStep (M : Machine S E α W Q X) (w : W) : Act S E Q X → W → Prop
  | .spawn _ _, w' => w' = w
  | .run p f op r, w' => M.exec f p op w r w'
  | .crash p, w' => w' = M.abort p w
  | .outer x, w' => w' = M.outer x w

theorem Step.wstep {M : Machine S E α W Q X} {c c' : Config S E α W Q X} {a : Act S E Q X}
    (h : Step M c a c') : M.WStep c.world a c'.world ∧ c'.past = c.past ++ [a] := by
  cases h with
  | spawn _ => exact ⟨rfl, rfl⟩
  | run _ hx => exact ⟨hx, rfl⟩
  | crash _ => exact ⟨rfl, rfl⟩
  | outer => exact ⟨rfl, rfl⟩

/-- The past of a configuration that a run reaches. -/
theorem run_past {M : Machine S E α W Q X} {c c' : Config S E α W Q X} {tr : List (Act S E Q X)}
    (h : Lts.Run (Step M) c tr c') : c'.past = c.past ++ tr := by
  induction h with
  | nil => simp
  | snoc _ hs ih => rw [hs.wstep.2, ih, List.append_assoc]

/-- A thread that was not started yet did not move. -/
theorem Step.fresh {M : Machine S E α W Q X} {c c' : Config S E α W Q X} {a : Act S E Q X}
    (h : Step M c a c') {p : Pid} (hp : c'.thread p = .fresh) :
    c.thread p = .fresh ∧ a.pid ≠ some p := by
  cases h with
  | @spawn q _ hq =>
    by_cases heq : p = q
    · subst heq
      simp [Config.next] at hp
    · exact ⟨by simpa [Config.next, heq] using hp, by simpa [Act.pid] using Ne.symm heq⟩
  | @run q f op k r w' hq hx =>
    by_cases heq : p = q
    · subst heq
      simp [Config.next] at hp
    · exact ⟨by simpa [Config.next, heq] using hp, by simpa [Act.pid] using Ne.symm heq⟩
  | @crash q op k hq =>
    by_cases heq : p = q
    · subst heq
      simp [Config.next] at hp
    · exact ⟨by simpa [Config.next, heq] using hp, by simpa [Act.pid] using Ne.symm heq⟩
  | outer => exact ⟨hp, by simp [Act.pid]⟩

/-- A thread is started once. -/
theorem spawn_unique {M : Machine S E α W Q X} {w : W} {tr : List (Act S E Q X)}
    {c : Config S E α W Q X} (h : Lts.Run (Step M) ⟨w, fun _ => .fresh, []⟩ tr c) {p : Pid} {q q' : Q}
    (hq : .spawn p q ∈ tr) (hq' : .spawn p q' ∈ tr) : q = q' := by
  have hinv := h.invariant (fun c tr => ∀ p q, .spawn p q ∈ tr →
    c.thread p ≠ .fresh ∧ ∀ q', .spawn p q' ∈ tr → q' = q) (fun _ _ h => absurd h (by simp)) ?_
  · exact ((hinv p q hq).2 q' hq').symm
  · intro tr c a c' _ ih hs p q hq
    have hold : ∀ q, .spawn p q ∈ tr → c'.thread p ≠ .fresh ∧
        ∀ q', .spawn p q' ∈ tr ++ [a] → q' = q := by
      intro q hold
      obtain ⟨hstarted, honly⟩ := ih p q hold
      refine ⟨fun hf => hstarted (hs.fresh hf).1, fun q' hq' => ?_⟩
      rcases List.mem_append.mp hq' with hq' | hq'
      · exact honly q' hq'
      · obtain rfl := List.mem_singleton.mp hq'
        cases hs with
        | spawn hf => exact absurd hf hstarted
    rcases List.mem_append.mp hq with hq | hnew
    · exact hold q hq
    · obtain rfl := List.mem_singleton.mp hnew
      refine ⟨fun hf => (hs.fresh hf).2 rfl, fun q' hq' => ?_⟩
      rcases List.mem_append.mp hq' with hq' | hq'
      · exact ((hold q' hq').2 q (List.mem_append_right _ hnew)).symm
      · cases List.mem_singleton.mp hq'
        rfl

/-- A thread runs after a step when it ran before, or was started by the step. -/
theorem Step.running {M : Machine S E α W Q X} {c c' : Config S E α W Q X} {a : Act S E Q X}
    (h : Step M c a c') {p : Pid} (hp : (c'.thread p).Running) :
    (c.thread p).Running ∨ c.thread p = .fresh := by
  cases h with
  | @spawn q _ hq =>
    by_cases heq : p = q
    · exact Or.inr (heq ▸ hq)
    · exact Or.inl (by simpa [Config.next, heq] using hp)
  | @run q f op k r w' hq hx =>
    by_cases heq : p = q
    · rw [heq, hq]
      exact Or.inl trivial
    · exact Or.inl (by simpa [Config.next, heq] using hp)
  | @crash q op k hq =>
    by_cases heq : p = q
    · rw [heq, hq]
      exact Or.inl trivial
    · exact Or.inl (by simpa [Config.next, heq] using hp)
  | outer => exact Or.inl hp

/-- A thread crashes only by a crash. -/
theorem Step.crashed {M : Machine S E α W Q X} {c c' : Config S E α W Q X} {a : Act S E Q X}
    (h : Step M c a c') {p : Pid} (hp : c'.thread p = .crashed) :
    c.thread p = .crashed ∨ a = .crash p := by
  cases h with
  | @spawn q _ hq =>
    by_cases heq : p = q
    · subst heq
      simp [Config.next] at hp
    · exact Or.inl (by simpa [Config.next, heq] using hp)
  | @run q f op k r w' hq hx =>
    by_cases heq : p = q
    · subst heq
      simp [Config.next] at hp
    · exact Or.inl (by simpa [Config.next, heq] using hp)
  | @crash q op k hq =>
    by_cases heq : p = q
    · exact Or.inr (by rw [heq])
    · exact Or.inl (by simpa [Config.next, heq] using hp)
  | outer => exact Or.inl hp

/-- The thread that performs an operation runs. -/
theorem Step.mover {M : Machine S E α W Q X} {c c' : Config S E α W Q X} {p : Pid} {f : Fault}
    {op : S.Op} {r : Except E (S.Ret op)} (h : Step M c (.run p f op r) c') :
    (c.thread p).Running := by
  cases h with
  | run hq _ =>
    rw [hq]
    trivial

/-- The last step of thread `p`. -/
def lastOf (p : Pid) (past : List (Act S E Q X)) : Option (Act S E Q X) :=
  (past.filter fun a => a.pid = some p).getLast?

theorem lastOf_own {p : Pid} {past : List (Act S E Q X)} {a : Act S E Q X}
    (h : a.pid = some p) : lastOf p (past ++ [a]) = some a := by
  simp [lastOf, List.filter_append, h]

theorem lastOf_other {p : Pid} {past : List (Act S E Q X)} {a : Act S E Q X}
    (h : a.pid ≠ some p) : lastOf p (past ++ [a]) = lastOf p past := by
  simp [lastOf, List.filter_append, h]

/-- The start: no thread, no past. -/
def Config.init (w : W) : Config S E α W Q X := ⟨w, fun _ => .fresh, []⟩

/-! ## What one thread did -/

section Track

variable {σ : Type} {next : σ → (op : S.Op) → Except E (S.Ret op) → σ} {s₀ : σ} {p q : Pid}
  {past : List (Act S E Q X)} {a : Act S E Q X}

/-- A state of the thread `p` that is read off its operations and their answers. -/
def track (next : σ → (op : S.Op) → Except E (S.Ret op) → σ) (s₀ : σ) (p : Pid)
    (past : List (Act S E Q X)) : σ :=
  past.foldl (fun s a =>
    match a with
    | .run q _ op r => if q = p then next s op r else s
    | _ => s) s₀

@[simp] theorem track_nil : track next s₀ p ([] : List (Act S E Q X)) = s₀ := rfl

theorem track_own {f : Fault} {op : S.Op} {r : Except E (S.Ret op)} :
    track next s₀ p (past ++ [.run p f op r]) = next (track next s₀ p past) op r := by
  simp [track, List.foldl_append]

theorem track_other (h : a.pid ≠ some p) :
    track next s₀ p (past ++ [a]) = track next s₀ p past := by
  cases a with
  | run q f op r =>
    have hq : q ≠ p := by simpa [Act.pid] using h
    simp [track, List.foldl_append, hq]
  | _ => simp [track, List.foldl_append]

theorem track_spawn {x : Q} : track next s₀ p (past ++ [.spawn q x]) = track next s₀ p past := by
  simp [track, List.foldl_append]

/-- The operations of the thread `p` with their answers, in order. -/
def callsOf (p : Pid) (past : List (Act S E Q X)) : List (Σ op : S.Op, Except E (S.Ret op)) :=
  past.filterMap fun a =>
    match a with
    | .run q _ op r => if q = p then some ⟨op, r⟩ else none
    | _ => none

/-- Only its own operations count. -/
theorem track_eq_calls : track next s₀ p past =
    (callsOf p past).foldl (fun s c => next s c.1 c.2) s₀ := by
  unfold track callsOf
  rw [List.foldl_filterMap]
  congr 1
  funext s a
  cases a with
  | run q f op r =>
    by_cases hq : q = p <;> simp [hq]
  | _ => rfl

theorem track_append {past' : List (Act S E Q X)} :
    track next s₀ p (past ++ past') = track next (track next s₀ p past) p past' :=
  List.foldl_append

theorem callsOf_own {f : Fault} {op : S.Op} {r : Except E (S.Ret op)} :
    callsOf p (past ++ [.run p f op r]) = callsOf p past ++ [⟨op, r⟩] := by
  simp [callsOf]

theorem callsOf_other (h : a.pid ≠ some p) : callsOf p (past ++ [a]) = callsOf p past := by
  cases a with
  | run q f op r =>
    have hq : q ≠ p := by simpa [Act.pid] using h
    simp [callsOf, hq]
  | _ => simp [callsOf]

theorem callsOf_spawn {q : Pid} {y : Q} :
    callsOf p (past ++ [.spawn q y] : List (Act S E Q X)) = callsOf p past := by
  simp [callsOf]

theorem callsOf_crash {q : Pid} : callsOf p (past ++ [.crash q] : List (Act S E Q X)) = callsOf p past := by
  simp [callsOf]

theorem callsOf_outer {x : X} : callsOf p (past ++ [.outer x] : List (Act S E Q X)) = callsOf p past := by
  simp [callsOf]

end Track

end Interleave
