import PaymentRecon.Pool.Linked

/-!
# Moves — what a promised operation does to the sets

One inversion lemma: the stage before and the stage after an operation tell what it did to the three
sets.  The invariants of the pool are derived from it by cases, and never from the operations.
-/

namespace PaymentRecon

open Interleave Rely SetStore

namespace Pool

/-- A command that only a startup performs. -/
def Boots : Label → Prop
  | .run _ _ (.sadd .amounts _) _ | .run _ _ (.sadd .pendingOrders _) _ | .run _ _ (.del _) _
  | .run _ _ (.sdiffstore _ _ _) _ => True
  | _ => False

/-- The amount is moved from `pending_orders` to `free_amounts`. -/
def Releases (a : Amount) : Label → Prop
  | .run _ _ (.smove .pendingOrders .freeAmounts b) _ => b = a
  | _ => False

/-- What one promised operation of `p`, labelled `x`, does to the sets while it takes the request from one
stage to another. -/
inductive Moves (boot : Prop) (p : Pid) (w : World) (past : List Label) (x : Label) (w' : World) :
    Stage → Stage → Prop
  | aside {s : Stage} (sets : w'.sets = w.sets) : Moves boot p w past x w' s s
  | pop {a : Amount} (mem : a ∈ w.free) (sets : w'.sets = spop w.sets .freeAmounts a) :
      Moves boot p w past x w' .idle (.popped a)
  | reserve {a : Amount} (sets : w'.sets = smove w.sets .amounts .pendingOrders a) :
      Moves boot p w past x w' (.popped a) (.reserved a)
  | lose {a : Amount} (sets : w'.sets = w.sets) (fault : ¬ x.Clean) :
      Moves boot p w past x w' (.popped a) .idle
  | giveBack {a : Amount} (sets : w'.sets = smove w.sets .pendingOrders .amounts a) :
      Moves boot p w past x w' (.reserved a) (.returning a)
  | refund {a : Amount} (sets : w'.sets = sadd w.sets .freeAmounts [a]) :
      Moves boot p w past x w' (.returning a) .idle
  | release {a : Amount} (releases : Releases a x)
      (sets : w'.sets = smove w.sets .pendingOrders .freeAmounts a) :
      Moves boot p w past x w' (.paid a) .idle
  | move {i : PaymentIntent} (confirms : Confirms p past)
      (sets : w'.sets = smove w.sets .pendingOrders .freeAmounts i.exactAmount) :
      Moves boot p w past x w' (.matched i) (.moved i)
  | store {s : Stage} {a : Amount} (sets : w'.sets = w.sets) (inserts : Inserts a x)
      (source : s = .reserved a ∨ s = .idle ∧ Faulted p past) : Moves boot p w past x w' s (.stored a)
  | settle {i : PaymentIntent} (sets : w'.sets = w.sets) : Moves boot p w past x w' .idle (.matched i)
  | pay {i : PaymentIntent} (commit : w' = w.commit p) :
      Moves boot p w past x w' (.matched i) (.paid i.exactAmount)
  | close {s : Stage} (bound : s.Bound) (commit : w' = w.commit p) : Moves boot p w past x w' s .idle
  | rollback {s : Stage} (undone : w' = w.rollback p) (may : MayRollBack p past) :
      Moves boot p w past x w' s .idle
  | seed {s : Stage} {as : List Amount} (hboot : boot) (boots : Boots x)
      (range : ∀ a ∈ as, a ∈ seeded) (sets : w'.sets = sadd w.sets .amounts as) : Moves boot p w past x w' s s
  | reread {s : Stage} {as : List Amount} (hboot : boot) (boots : Boots x)
      (rows : ∀ a ∈ as, ∃ i ∈ w.db.intents, i.exactAmount = a)
      (sets : w'.sets = sadd w.sets .pendingOrders as) : Moves boot p w past x w' s s
  | clear {s : Stage} (hboot : boot) (boots : Boots x) (sets : w'.sets = del w.sets .pendingOrders) :
      Moves boot p w past x w' s s
  | rebuild {s : Stage} (hboot : boot) (boots : Boots x)
      (sets : w'.sets = sdiffstore w.sets .freeAmounts .amounts .pendingOrders) :
      Moves boot p w past x w' s s

variable {boot : Prop} {p q : Pid} {w w' : World} {past : List Label} {a : Amount}

/-- A step without effect. -/
theorem Moves.still {x : Label} {s : Stage} (h : w' = w) : Moves boot p w past x w' s s :=
  .aside (by rw [h])

/-- **Inversion** of the promised operations, for the sets. -/
theorem run_moves {f : Fault} {op : Op} {r : Except Exc op.Ret} (hx : exec f p op w r w')
    (hc : (logic boot).cond w past (.run p f op r) w') (hg : Lawful boot p w past op) :
    Moves boot p w past (.run p f op r) w' (stageOf p past) ((stageOf p past).next op r) := by
  rcases outage_cases hx hc with ⟨-, hrun⟩ | ⟨rfl, hop, hw, rfl⟩
  · have hsets := (run_effect hrun).sets
    cases op with
    | spop k =>
      obtain ⟨rfl, hs⟩ := hg
      rw [hs]
      rcases hrun with ⟨b, hb, rfl, -⟩ | ⟨-, rfl, -⟩
      · exact .pop hb hsets
      · exact .aside hsets
    | smove src dst b =>
      obtain ⟨rfl, -⟩ := hrun
      cases src <;> cases dst <;> first
        | exact hg.elim
        | skip
      · have hs : stageOf p past = .popped b := hg
        rw [hs]
        exact .reserve hsets
      · have hs : stageOf p past = .reserved b := hg
        rw [hs]
        exact .giveBack hsets
      · rcases hg with hs | ⟨hconf, j, hs, rfl⟩
        · rw [hs]
          exact .release rfl hsets
        · rw [hs]
          exact .move hconf hsets
    | sadd k as =>
      obtain ⟨rfl, -⟩ := hrun
      cases k with
      | freeAmounts =>
        obtain ⟨b, rfl, hs⟩ := hg
        rw [hs]
        exact .refund hsets
      | amounts => exact .seed hg.1 trivial hg.2 hsets
      | pendingOrders => exact .reread hg.1 trivial hg.2 hsets
    | del k =>
      obtain ⟨hb, rfl⟩ := hg
      exact .clear hb trivial hsets
    | sdiffstore dst x y =>
      obtain ⟨hb, rfl, rfl, rfl⟩ := hg
      exact .rebuild hb trivial hsets
    | insertOrder u m b =>
      cases r with
      | ok o => exact .store hsets rfl hg
      | error e => exact .aside hsets
    | flushPaid j t =>
      obtain ⟨hs, -⟩ := hg
      rw [hs]
      cases r with
      | ok u => exact .settle hsets
      | error e => exact .aside hsets
    | commit =>
      obtain ⟨rfl, hw⟩ := hrun
      cases hs : stageOf p past with
      | matched j => exact .pay hw
      | moved j => exact .close (Or.inr ⟨j, rfl⟩) hw
      | stored b => exact .close (Or.inl ⟨b, rfl⟩) hw
      | _ => exact .aside hsets
    | rollback => exact .rollback hrun.2 hg
    | _ => exact .aside hsets
  · have hclean : ¬ (Act.run p .failed op (.error RedisError) : Label).Clean := by simp [Act.Clean]
    cases op with
    | spop k =>
      cases k <;> exact .still hw
    | smove src dst b =>
      cases src <;> cases dst <;> first
        | exact hg.elim
        | exact .still hw
        | skip
      have hs : stageOf p past = .popped b := hg
      rw [hs]
      exact .lose (by rw [hw]) hclean
    | sadd k as => cases k <;> exact .still hw
    | _ => first
      | exact hop.elim
      | exact .still hw

/-- The same for any step: only the thread that moves changes its stage. -/
theorem step_moves {x : Label} (hw : system.WStep w x w') (hg : (logic boot).Guarded w past x w') :
    (w'.sets = w.sets ∧ ∀ q, stageOf q (past ++ [x]) = stageOf q past) ∨
      ∃ p, x.pid = some p ∧ (∀ q, q ≠ p → stageOf q (past ++ [x]) = stageOf q past) ∧
        Moves boot p w past x w' (stageOf p past) (stageOf p (past ++ [x])) := by
  cases x with
  | spawn q y =>
    obtain rfl : w' = w := hw
    exact Or.inl ⟨rfl, fun _ => stageOf_spawn⟩
  | run p f op r =>
    refine Or.inr ⟨p, rfl, fun q hq => stageOf_other (by simpa [Act.pid] using Ne.symm hq), ?_⟩
    rw [stageOf_own]
    exact run_moves hw hg.1 (hg.2 p f op r rfl)
  | crash q => exact hg.1.elim
  | outer y =>
    obtain rfl : w' = w.tick y := hw
    cases y
    exact Or.inl ⟨rfl, fun _ => stageOf_other (by simp [Act.pid])⟩

/-! ## The turn of one request -/

/-- An insertion leads to the stage of a stored order, and to no other. -/
theorem inserts_stage {x : Label} (hg : (logic boot).Guarded w past x w') (hp : x.pid = some p)
    (hins : Inserts a x) : stageOf p (past ++ [x]) = .stored a ∧ stageOf p past ≠ .stored a := by
  obtain ⟨q, f, u, m, o, rfl⟩ := hins.inv
  obtain rfl : q = p := by simpa [Act.pid] using hp
  refine ⟨stageOf_own, ?_⟩
  have hlaw : Lawful boot q w past (.insertOrder u m a) := hg.2 q f _ _ rfl
  rcases hlaw with hs | ⟨hs, -⟩ <;> rw [hs] <;> simp

/-- The step `x` takes request `p` from stage `s` to stage `s'`, and no other request anywhere. -/
structure Turn (boot : Prop) (p : Pid) (w : World) (past : List Label) (x : Label) (w' : World)
    (s s' : Stage) : Prop where
  wstep : system.WStep w x w'
  guarded : (logic boot).Guarded w past x w'
  pid : x.pid = some p
  others : ∀ q, q ≠ p → stageOf q (past ++ [x]) = stageOf q past
  before : stageOf p past = s
  after : stageOf p (past ++ [x]) = s'

/-- A step leaves the sets and the stages as they are, or it is the turn of one request. -/
theorem step_turn {x : Label} (hw : system.WStep w x w') (hg : (logic boot).Guarded w past x w') :
    (w'.sets = w.sets ∧ ∀ q, stageOf q (past ++ [x]) = stageOf q past) ∨
      ∃ p s s', Turn boot p w past x w' s s' ∧ Moves boot p w past x w' s s' := by
  rcases step_moves hw hg with hstill | ⟨p, hp, hst, hm⟩
  · exact Or.inl hstill
  · exact Or.inr ⟨p, _, _, ⟨hw, hg, hp, hst, rfl, rfl⟩, hm⟩

section Turn

variable {x : Label} {s s' : Stage}

/-- What holds of a stage afterwards held before, if it did for the request whose turn it was. -/
theorem Turn.own (h : Turn boot p w past x w' s s') {P : Stage → Prop} (hP : P s' → P s)
    (hq : P (stageOf q (past ++ [x]))) : P (stageOf q past) := by
  by_cases hqp : q = p
  · subst hqp
    rw [h.before]
    exact hP (h.after ▸ hq)
  · rwa [h.others q hqp] at hq

/-- A request that had the amount to itself still has it to itself. -/
theorem Turn.only (h : Turn boot p w past x w' s s')
    (honly : ∀ q, (stageOf q past).Owns a → q = p) (q : Pid)
    (ho : (stageOf q (past ++ [x])).Owns a) : q = p := by
  by_contra hq
  rw [h.others q hq] at ho
  exact hq (honly q ho)

/-- A request that had the amount to itself gave it up. -/
theorem Turn.nobody (h : Turn boot p w past x w' s s')
    (honly : ∀ q, (stageOf q past).Owns a → q = p) (hno : ¬ s'.Owns a) (q : Pid) :
    ¬ (stageOf q (past ++ [x])).Owns a := by
  intro ho
  obtain rfl := h.only honly q ho
  exact hno (h.after ▸ ho)

theorem Turn.inserts (h : Turn boot p w past x w' s s') (hins : Inserts a x) :
    s' = .stored a ∧ s ≠ .stored a := by
  obtain ⟨hs', hs⟩ := inserts_stage h.guarded h.pid hins
  exact ⟨h.after.symm.trans hs', fun he => hs (h.before.trans he)⟩

/-- Unless an order is stored, no amount becomes live. -/
theorem Turn.live (h : Turn boot p w past x w' s s') (hL : Linked w past) (hC : Consistent w)
    (hstored : s' = .stored a → s = .stored a) (hl : Live w' (past ++ [x]) a) : Live w past a := by
  rcases live_step hL hC h.wstep h.guarded hl with hl | hins
  · exact hl
  · obtain ⟨hs', hs⟩ := h.inserts hins
    exact absurd (hstored hs') hs

end Turn

end Pool

end PaymentRecon
