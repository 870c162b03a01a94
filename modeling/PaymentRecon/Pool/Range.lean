import PaymentRecon.Pool.Restart

/-!
# Range — which amounts the pool hands out

`amounts` and `free_amounts` gain amounts from the seeding, from the compensation of an order that could
not be stored, and from the release of a settled amount.  Only the last can come from outside the
seeded range: a startup loads into `pending_orders` whatever amounts PENDING intents carry, also those
that PostgreSQL allocated above the range.
-/

namespace PaymentRecon

open Interleave Rely SetStore

namespace Pool.Range

variable {p : Pid} {w w' : World} {past : List Label} {x : Label} {a : Amount}

/-! ## What startups loaded -/

/-- The amounts that startups put into `pending_orders` and that are still there, as far as the commands
on this set tell. -/
def loaded (past : List Label) : Finset Amount :=
  past.foldl (fun s x =>
    match x with
    | .run _ .failed _ _ => s
    | .run _ _ (.sadd .pendingOrders ms) _ => s ∪ ms.toFinset
    | .run _ _ (.del .pendingOrders) _ => ∅
    | .run _ _ (.smove .pendingOrders _ m) _ => s.erase m
    | _ => s) ∅

/-- The step releases an amount outside the range that a startup loaded. -/
def Leaks (past : List Label) : Label → Prop
  | .run _ f (.smove .pendingOrders .freeAmounts m) _ =>
    f ≠ .failed ∧ m ∈ loaded past ∧ m ∉ seeded
  | _ => False

structure InRange (w : World) (past : List Label) : Prop where
  amounts : ∀ a ∈ w.amounts, a ∈ seeded
  free : ∀ a ∈ w.free, a ∈ seeded
  pending : ∀ a ∈ w.pending, a ∈ seeded ∨ a ∈ loaded past

/-- What the programs do with the sets. -/
def Lawful : Op → Prop
  | .smove .amounts .pendingOrders _ => True
  | .smove .pendingOrders .amounts m => m ∈ seeded
  | .smove .pendingOrders .freeAmounts _ => True
  | .smove _ _ _ => False
  | .sadd .pendingOrders _ => True
  | .sadd _ ms => ∀ m ∈ ms, m ∈ seeded
  | .sdiffstore dst a _ => dst = .freeAmounts ∧ a = .amounts
  | .spop k => k = .freeAmounts
  | .del k => k = .pendingOrders
  | _ => True

def logic : Rely sig Exc Response World Request Tick where
  machine := system
  cond := fun _ past x _ => ¬ Leaks past x
  inv := InRange
  start := fun _ => top
  guard := fun _ _ _ op => Lawful op
  final := fun _ _ => top

/-! ## The invariant -/

variable (past x) in
theorem loaded_append : loaded (past ++ [x]) =
    match x with
    | .run _ .failed _ _ => loaded past
    | .run _ _ (.sadd .pendingOrders ms) _ => loaded past ∪ ms.toFinset
    | .run _ _ (.del .pendingOrders) _ => ∅
    | .run _ _ (.smove .pendingOrders _ m) _ => (loaded past).erase m
    | _ => loaded past := by
  simp [loaded, List.foldl_append]

/-- Nothing happens to the sets. -/
theorem InRange.same (h : InRange w past) (hs : w'.sets = w.sets)
    (hl : loaded (past ++ [x]) = loaded past) : InRange w' (past ++ [x]) := by
  refine ⟨?_, ?_, ?_⟩
  · rw [World.amounts, hs]
    exact h.amounts
  · rw [World.free, hs]
    exact h.free
  · rw [World.pending, hs, hl]
    exact h.pending

/-- A command that takes effect. -/
theorem InRange.taken {f : Fault} {op : Op} {r r₀ : Except Exc op.Ret} (h : InRange w past)
    (hg : Lawful op) (hc : ¬ Leaks past (.run p f op r)) (hf : f ≠ .failed)
    (hx : Effect p op w r₀ w') : InRange w' (past ++ [.run p f op r]) := by
  have hsets := hx.sets
  have hl := loaded_append past (.run p f op r)
  cases op with
  | spop k =>
    obtain rfl : k = .freeAmounts := hg
    have hsame : loaded (past ++ [.run p f (.spop .freeAmounts) r]) = loaded past := by
      rw [hl]
      cases f <;> rfl
    rcases r₀ with e | ⟨_ | b⟩
    · exact h.same hsets hsame
    · exact h.same hsets hsame
    · have hsets : w'.sets = spop w.sets .freeAmounts b := hsets
      refine ⟨?_, ?_, ?_⟩
      · rw [World.amounts, hsets, spop_other (by decide)]
        exact h.amounts
      · intro a ha
        rw [World.free, hsets, mem_spop] at ha
        exact h.free a ha.2
      · rw [World.pending, hsets, spop_other (by decide), hsame]
        exact h.pending
  | smove src dst m =>
    have hsets : w'.sets = smove w.sets src dst m := hsets
    cases src with
    | amounts => cases dst with
      | pendingOrders =>
        have hsame : loaded (past ++ [.run p f (.smove .amounts .pendingOrders m) r]) = loaded past := by
          rw [hl]
          cases f <;> rfl
        refine ⟨?_, ?_, ?_⟩
        · intro a ha
          rw [World.amounts, hsets, mem_smove_src (by decide)] at ha
          exact h.amounts a ha.1
        · rw [World.free, hsets, smove_other (by decide) (by decide)]
          exact h.free
        · intro a ha
          rw [World.pending, hsets, mem_smove_dst (by decide)] at ha
          rw [hsame]
          rcases ha with ha | ⟨rfl, ha⟩
          · exact h.pending a ha
          · exact Or.inl (h.amounts _ ha)
      | _ => exact hg.elim
    | freeAmounts => exact hg.elim
    | pendingOrders =>
      -- the member that leaves `pending_orders` is no longer loaded
      have hleft : dst ≠ .pendingOrders → ∀ a ∈ w'.pending,
          a ∈ seeded ∨ a ∈ loaded (past ++ [.run p f (.smove .pendingOrders dst m) r]) := by
        intro hdst a ha
        rw [World.pending, hsets, mem_smove_src hdst.symm] at ha
        have herase : loaded (past ++ [.run p f (.smove .pendingOrders dst m) r]) =
            (loaded past).erase m := by
          rw [hl]
          cases f <;> first | rfl | exact absurd rfl hf
        rw [herase]
        exact (h.pending a ha.1).imp_right fun hm => Finset.mem_erase.mpr ⟨ha.2, hm⟩
      cases dst with
      | amounts =>
        refine ⟨?_, ?_, hleft (by decide)⟩
        · intro a ha
          rw [World.amounts, hsets, mem_smove_dst (by decide)] at ha
          rcases ha with ha | ⟨rfl, -⟩
          · exact h.amounts a ha
          · exact hg
        · rw [World.free, hsets, smove_other (by decide) (by decide)]
          exact h.free
      | freeAmounts =>
        refine ⟨?_, ?_, hleft (by decide)⟩
        · rw [World.amounts, hsets, smove_other (by decide) (by decide)]
          exact h.amounts
        · intro a ha
          rw [World.free, hsets, mem_smove_dst (by decide)] at ha
          rcases ha with ha | ⟨rfl, ha⟩
          · exact h.free a ha
          · by_contra hout
            exact hc ⟨hf, (h.pending _ ha).resolve_left hout, hout⟩
      | pendingOrders => exact hg.elim
  | sadd k ms =>
    have hsets : w'.sets = sadd w.sets k ms := hsets
    cases k with
    | pendingOrders =>
      have hmore : loaded (past ++ [.run p f (.sadd .pendingOrders ms) r]) =
          loaded past ∪ ms.toFinset := by
        rw [hl]
        cases f <;> first | rfl | exact absurd rfl hf
      refine ⟨?_, ?_, ?_⟩
      · rw [World.amounts, hsets, sadd_other (by decide)]
        exact h.amounts
      · rw [World.free, hsets, sadd_other (by decide)]
        exact h.free
      · intro a ha
        rw [World.pending, hsets, mem_sadd] at ha
        rw [hmore]
        rcases ha with ha | ha
        · exact (h.pending a ha).imp_right fun hl => Finset.mem_union_left _ hl
        · exact Or.inr (Finset.mem_union_right _ (List.mem_toFinset.mpr ha))
    | amounts =>
      have hsame : loaded (past ++ [.run p f (.sadd .amounts ms) r]) = loaded past := by
        rw [hl]
        cases f <;> rfl
      refine ⟨?_, ?_, ?_⟩
      · intro a ha
        rw [World.amounts, hsets, mem_sadd] at ha
        exact ha.elim (h.amounts a) (hg a)
      · rw [World.free, hsets, sadd_other (by decide)]
        exact h.free
      · rw [World.pending, hsets, sadd_other (by decide), hsame]
        exact h.pending
    | freeAmounts =>
      have hsame : loaded (past ++ [.run p f (.sadd .freeAmounts ms) r]) = loaded past := by
        rw [hl]
        cases f <;> rfl
      refine ⟨?_, ?_, ?_⟩
      · rw [World.amounts, hsets, sadd_other (by decide)]
        exact h.amounts
      · intro a ha
        rw [World.free, hsets, mem_sadd] at ha
        exact ha.elim (h.free a) (hg a)
      · rw [World.pending, hsets, sadd_other (by decide), hsame]
        exact h.pending
  | del k =>
    obtain rfl : k = .pendingOrders := hg
    have hsets : w'.sets = del w.sets .pendingOrders := hsets
    refine ⟨?_, ?_, ?_⟩
    · rw [World.amounts, hsets, del, Function.update_of_ne (by decide)]
      exact h.amounts
    · rw [World.free, hsets, del, Function.update_of_ne (by decide)]
      exact h.free
    · rw [World.pending, hsets, del, Function.update_self]
      simp
  | sdiffstore dst k b =>
    obtain ⟨rfl, rfl⟩ := hg
    have hsets : w'.sets = sdiffstore w.sets .freeAmounts .amounts b := hsets
    refine ⟨?_, ?_, ?_⟩
    · rw [World.amounts, hsets, sdiffstore, Function.update_of_ne (by decide)]
      exact h.amounts
    · intro a ha
      rw [World.free, hsets, sdiffstore, Function.update_self] at ha
      exact h.amounts a (Finset.mem_sdiff.mp ha).1
    · rw [World.pending, hsets, sdiffstore, Function.update_of_ne (by decide), hl]
      cases f <;> exact h.pending
  | _ =>
    refine h.same hsets (hl.trans ?_)
    cases f <;> rfl

/-- **Step lemma.** -/
theorem InRange.run {f : Fault} {op : Op} {r : Except Exc op.Ret} (h : InRange w past)
    (hg : Lawful op) (hc : ¬ Leaks past (.run p f op r)) (hx : exec f p op w r w') :
    InRange w' (past ++ [.run p f op r]) := by
  by_cases hf : f = .failed
  · subst hf
    obtain ⟨rfl, -⟩ := hx
    exact h.same rfl (loaded_append _ _)
  · obtain ⟨r₀, heff⟩ := exec_taken hx hf
    exact h.taken hg hc hf heff

/-! ## The programs -/

abbrev Facts := Assertion sig Exc World Request Tick

abbrev Keeps {β : Type} (p : Pid) (x : App β) (post : Except Exc β → Prop) : Prop :=
  logic.Ensures p top x fun r _ _ => post r

theorem keeps_all {β : Type} {x : App β} {R : Except Exc β → Prop} (hx : x.All Lawful R) : Keeps p x R :=
  Ensures.ofAll hx fun _ _ _ h _ => h

/-- Sequencing, when only values are known. -/
theorem Keeps.bind {β γ : Type} {x : App β} {f : β → App γ} {m : Except Exc β → Prop}
    {post : Except Exc γ → Prop} (hx : Keeps p x m) (hok : ∀ b, m (.ok b) → Keeps p (f b) post)
    (herr : ∀ e, m (.error e) → post (.error e)) : Keeps p (x >>= f) post :=
  Ensures.bind hx (fun b => (Ensures.pure (hok b)).pre fun _ _ h => ⟨h, trivial⟩)
    fun e _ _ h => herr e h

theorem Keeps.tryCatch {β : Type} {x : App β} {h : Exc → App β} {m post : Except Exc β → Prop}
    (hx : Keeps p x m) (hok : ∀ b, m (.ok b) → post (.ok b))
    (herr : ∀ e, m (.error e) → Keeps p (h e) post) : Keeps p (x.tryCatch h) post :=
  Ensures.tryCatch hx (fun b _ _ h => hok b h)
    fun e => (Ensures.pure (herr e)).pre fun _ _ h => ⟨h, trivial⟩

/-- SPOP answers a member. -/
theorem mem_of_spop {f : Fault} {k : SetKey}
    (hx : exec f p (.spop k) w (.ok (some a)) w') : a ∈ w.sets k := by
  cases f with
  | done =>
    rcases hx with ⟨b, hb, hr, -⟩ | ⟨-, hr, -⟩
    · obtain rfl : a = b := by simpa using hr
      exact hb
    · simp at hr
  | failed =>
    obtain ⟨-, e, -, hr⟩ := hx
    simp at hr
  | lost =>
    obtain ⟨-, -, e, -, hr⟩ := hx
    simp at hr

/-- What SPOP answers is in the range. -/
theorem keeps_spop : Keeps p (await (.spop .freeAmounts)) fun r => ∀ a, r = .ok (some a) → a ∈ seeded := by
  refine Ensures.perform (fun r => Persistent.stable fun _ _ _ _ _ _ _ h => h) (fun _ _ _ _ => rfl) ?_
  rintro f w past r w' hI - hx - a rfl
  exact hI.free a (mem_of_spop hx)

theorem keeps_trivial {β : Type} {x : App β} (hx : x.All Lawful fun _ => True) :
    Keeps p x fun _ => True := keeps_all hx

/-- What Redis allocates is in the range. -/
theorem keeps_getUniqueAmount (base : Option Amount) :
    Keeps p (getUniqueAmount base) fun r => ∀ u, r = .ok (some u) → u.source = .redis →
      u.value ∈ seeded := by
  unfold getUniqueAmount
  refine Keeps.tryCatch (m := fun r => ∀ u, r = .ok (some u) → u.source = .redis → u.value ∈ seeded)
    ?_ (fun _ h => h) ?_
  · refine Keeps.bind keeps_spop ?_ fun _ _ _ h => by simp at h
    intro given hgiven
    cases given with
    | none => exact keeps_all fun u h => by simp at h
    | some a =>
      refine Keeps.bind (keeps_trivial (all_await trivial)) ?_ fun _ _ _ h => by simp at h
      rintro _ - w past - u hu -
      obtain rfl : ⟨a, .redis⟩ = u := by simpa using hu
      exact hgiven a rfl
  · intro e _
    split_ifs
    · refine Keeps.bind (keeps_trivial (all_await trivial)) ?_ fun _ _ _ h => by simp at h
      rintro fallback - w past - u hu hs
      cases fallback with
      | none => simp at hu
      | some a =>
        obtain rfl : ⟨a, .postgres⟩ = u := by simpa using hu
        simp at hs
    · exact keeps_all fun u h => by simp at h

theorem keeps_compensate_throw {β : Type} {a : Amount} (ha : a ∈ seeded) (e : Exc) :
    Keeps p (do compensate a; throw e : App β) fun _ => True := by
  have hall : (compensate a).All Lawful fun _ => True := by
    unfold compensate
    refine all_try (all_then ha (fun _ => all_await ?_) fun _ => trivial) fun _ => trivial
    intro b hb
    obtain rfl := List.mem_singleton.mp hb
    exact ha
  exact Keeps.bind (keeps_trivial hall) (fun _ _ => fun _ _ _ => trivial) fun _ _ => trivial

theorem keeps_createOrderLoop (userId : Id) (amount : Amount) (n : ℕ) :
    Keeps p (createOrderLoop userId amount n) fun _ => True := by
  induction n with
  | zero => exact fun _ _ _ => trivial
  | succ n ih =>
    unfold createOrderLoop
    refine Keeps.bind (keeps_getUniqueAmount _) ?_ fun _ _ => trivial
    intro unique hunique
    split
    · refine keeps_trivial (all_seq ?_ fun _ => trivial)
      unfold logStatistics
      refine all_try ?_ fun _ => trivial
      exact all_then trivial (fun _ => all_then trivial (fun _ => trivial) fun _ => trivial)
        fun _ => trivial
    · rename_i u hu
      have hredis : u.source = .redis → u.value ∈ seeded :=
        hunique u (congrArg Except.ok (Option.filter_eq_some_iff.mp hu).1)
      refine Keeps.tryCatch (m := fun _ => True) ?_ (fun _ _ => trivial) ?_
      · exact keeps_trivial (all_then trivial (fun _ => trivial) fun _ => trivial)
      · intro e _
        split_ifs with _ hs _ hs
        · exact keeps_compensate_throw (hredis hs) _
        · exact ih
        · exact fun _ _ _ => trivial
        · exact keeps_compensate_throw (hredis hs) _
        · exact fun _ _ _ => trivial

theorem keeps_createOrder (userId : Id) (amount : Amount) :
    Keeps p (createOrder userId amount) fun _ => True := by
  have hthrow : ∀ e e' : Exc, (do await .rollback; throw e : App Response).All Lawful fun _ => True :=
    fun e _ => all_rollback_throw trivial e
  unfold createOrder withDb
  refine Keeps.tryCatch (m := fun _ => True) ?_ (fun _ _ => trivial) fun e _ =>
    keeps_trivial (hthrow e e)
  refine Keeps.tryCatch (m := fun _ => True) ?_ (fun _ _ => trivial) ?_
  · refine Keeps.bind (keeps_createOrderLoop userId amount 3) ?_ fun _ _ => trivial
    intro order _
    cases order with
    | none => exact fun _ _ _ => trivial
    | some o => exact keeps_trivial (all_then trivial
        (fun _ => all_then trivial (fun _ => trivial) fun _ => trivial) fun _ => trivial)
  · intro e _
    split
    · exact fun _ _ _ => trivial
    · exact keeps_trivial (hthrow _ e)
    · exact keeps_trivial (hthrow _ e)

theorem lawful_isExistRangeAmount {start stop : Amount} {batch : ℕ} (hbatch : 0 < batch)
    (h : ∀ a, start ≤ a ∧ a ≤ stop → a ∈ seeded) :
    (isExistRangeAmount start stop batch).All Lawful fun _ => True := by
  unfold isExistRangeAmount
  refine all_then trivial (fun existing => ?_) fun _ => trivial
  split_ifs
  · trivial
  · refine Prog.All.forEach (fun slice hs => all_await fun a ha => ?_) trivial
    exact h a (mem_amountRange.mp ((mem_batches hbatch).mp ⟨slice, hs, ha⟩))

/-- The rebuild draws the free amounts from the seeded ones. -/
theorem lawful_refills {op : Op} (h : Refills op) : Lawful op := by
  cases op with
  | sadd k as => cases k <;> first | exact h.elim | trivial
  | del k => cases k <;> first | exact h.elim | rfl
  | sdiffstore dst b c => cases dst <;> cases b <;> cases c <;> first | exact h.elim | exact ⟨rfl, rfl⟩
  | _ => first | exact h.elim | trivial

theorem lawful_rebuildPool (limit redisBuffer fuel : ℕ) :
    (rebuildPool limit redisBuffer fuel).All Lawful fun _ => True :=
  (all_rebuildPool limit redisBuffer fuel).mono (fun _ => lawful_refills) fun _ h => h

theorem lawful_lifespan (fuel : ℕ) : (lifespan fuel).All Lawful fun _ => True := by
  unfold lifespan
  refine Prog.All.bind (lawful_isExistRangeAmount (by decide) fun a ha => Finset.mem_Icc.mpr ha)
    ?_ fun _ _ => trivial
  exact fun _ _ => Prog.All.bind (lawful_rebuildPool _ _ _) (fun _ _ => trivial) fun _ _ => trivial

theorem keeps_prog (q : Request) : Keeps p q.prog fun _ => True := by
  have collects : ∀ op, Collects op → Lawful op := by
    intro op h
    cases op with
    | smove src dst m => cases src <;> cases dst <;> first | exact h.elim | trivial
    | _ => first | exact h.elim | trivial
  have hhandle : ∀ m, (handlePayment m).All Lawful fun _ => True :=
    fun m => (all_handlePayment m).mono collects fun _ h => h
  cases q with
  | createOrder userId amount => exact keeps_createOrder userId amount
  | confirmPayment orderId paymentId =>
    exact keeps_trivial ((all_confirmPayment orderId paymentId).mono collects fun _ h => h)
  | handlePayment m => exact keeps_trivial (all_seq (hhandle m) fun _ => trivial)
  | receiveTransaction s =>
    exact keeps_trivial ((all_receiveTransaction s).mono (fun op h => by cases op <;> trivial)
      fun _ h => h)
  | processOutboxEvent =>
    exact keeps_trivial (all_processOutboxEvent.mono (fun op h => by cases op <;> trivial) fun _ h => h)
  | work workerId =>
    refine (ensures_turn (K := top) (fun op h => ?_) (fun m => ?_) workerId).mono fun _ _ _ _ => trivial
    · exact (keeps_trivial (all_await (by cases op <;> trivial))).mono fun _ _ _ _ => trivial
    · exact (keeps_trivial (hhandle m)).mono fun _ _ _ _ => trivial
  | replayDlq y =>
    exact keeps_trivial ((all_replayDlqDashboard y).mono (fun op h => by cases op <;> trivial)
      fun _ h => h)
  | lifespan fuel => exact keeps_trivial (lawful_lifespan fuel)

theorem sound : logic.Sound where
  prog _ q _ _ _ _ _ := ((keeps_prog q).pre fun _ _ _ => trivial).mono fun _ _ _ _ => trivial
  start _ := Persistent.true.stable
  begin _ _ _ _ h := h
  spawn _ _ _ _ h _ := h.same rfl (loaded_append _ _)
  run _ _ _ _ _ _ _ h hg hx hc := h.run hg hc hx
  crash _ _ _ h _ := h.same rfl (loaded_append _ _)
  outer _ _ x h _ := h.same (by cases x; rfl) (loaded_append _ _)

theorem in_range {w₀ : World} {tr : List Label} {c : State}
    (h₀ : ∀ k, ∀ a ∈ w₀.sets k, a ∈ seeded)
    (hr : Lts.Run (StepsIf fun _ past x _ => ¬ Leaks past x) (.init w₀) tr c) :
    InRange c.world c.past :=
  (sound.derive (P := fun _ _ _ => True) (J := fun _ => True)
    (hr.mono fun _ _ _ h => ⟨h.1, h.2, trivial⟩)
    (Holds.init ⟨h₀ _, h₀ _, fun a ha => Or.inl (h₀ _ a ha)⟩ fun _ => trivial) trivial
    fun _ _ _ _ _ _ _ _ => trivial).1.inv

/-- **The pool stays inside the seeded range** as long as no amount outside of it that a startup loaded
into `pending_orders` is released, whatever crashes or fails; Redis then hands out no other amount. -/
theorem free_in_range {w₀ : World} {tr : List Label} {c : State}
    (h₀ : ∀ k, ∀ a ∈ w₀.sets k, 1500000 ≤ a ∧ a ≤ 1550000)
    (hr : Lts.Run (StepsIf fun _ past x _ => ¬ Leaks past x) (.init w₀) tr c) :
    (∀ a ∈ c.world.free, 1500000 ≤ a ∧ a ≤ 1550000) ∧
      ∀ before after p f a, tr = before ++ .run p f (.spop .freeAmounts) (.ok (some a)) :: after →
        1500000 ≤ a ∧ a ≤ 1550000 := by
  have hseeded : ∀ k, ∀ a ∈ w₀.sets k, a ∈ seeded := fun k a ha => Finset.mem_Icc.mpr (h₀ k a ha)
  refine ⟨fun a ha => Finset.mem_Icc.mp ((in_range hseeded hr).free a ha), ?_⟩
  rintro before after p f a rfl
  obtain ⟨c₁, h₁, h₂⟩ := hr.split
  obtain ⟨c₂, ⟨hs, -⟩, -⟩ := h₂.uncons
  have hx : exec f p (.spop .freeAmounts) c₁.world (.ok (some a)) c₂.world := hs.wstep.1
  exact Finset.mem_Icc.mp ((in_range hseeded h₁).free a (mem_of_spop hx))

/-- Releases are of amounts in the range. -/
def keepsIn : Check := .label fun x =>
  match x with
  | .run _ _ (.smove .pendingOrders .freeAmounts m) _ => decide (1500000 ≤ m ∧ m ≤ 1550000)
  | _ => true

theorem keepsIn_steps {c c' : State} (h : keepsIn.Steps c x c') :
    StepsIf (fun _ past x _ => ¬ Leaks past x) c x c' := by
  refine ⟨h.1, ?_⟩
  rintro hleaks
  have htest := h.2
  cases x with
  | run p f op r =>
    cases op with
    | smove src dst m =>
      cases src <;> cases dst <;> try exact hleaks.elim
      exact hleaks.2.2 (Finset.mem_Icc.mpr (of_decide_eq_true htest))
    | _ => exact hleaks.elim
  | _ => exact hleaks.elim

/-- In `firstStarted` the one of these amounts that is in the range is in two sets. -/
theorem firstStarted_edge : Holders [1500001, 1550001]
    (fun a k => decide (a = 1500001 ∧ k ≠ .pendingOrders)) firstStarted.sets := by
  intro a ha k
  rw [firstStarted_sets]
  rcases List.mem_pair.mp ha with rfl | rfl <;> split_ifs with hk <;> simp [hk, seeded]

/-- An order of 1550000 during an outage, a restart that loads its amount, and a paid order. -/
theorem free_in_range_sample : ∃ (tr : List Label) (c : State),
    Lts.Run (StepsIf fun _ past x _ => ¬ Leaks past x) (.init firstStarted) tr c ∧
      1500001 ∈ c.world.free ∧ 1550001 ∈ c.world.pending ∧
      (∃ i ∈ c.world.db.intents, i.exactAmount = 1500001) ∧
      ∀ a ∈ c.world.free, 1500000 ≤ a ∧ a ≤ 1550000 := by
  obtain ⟨c, tr, s, m, htest, hm, -, hr⟩ := tracks_run 4 keepsIn
    ([.spawn 0 (.createOrder 1 1550000), .fail 0 RedisError, .go 0 (some 1550001)] ++ Move.goes 0 3 ++
      [.spawn 1 (.lifespan 2), .go 1 (some 1500001)] ++ Move.goes 1 5 ++
      Script.create 2 1500001 ++ Script.confirm 3 2 2)
    (.init World.empty) [1500001, 1550001] (fun a k => a = 1500001 ∧ k ≠ .pendingOrders)
    (fun c m => m 1500001 .freeAmounts && m 1550001 .pendingOrders &&
      c.world.db.intents.any fun i => i.exactAmount = 1500001)
    (by decide +kernel) (Within.init 4 World.empty_closed) firstStarted_edge [] (Or.inl rfl)
  simp only [Bool.and_eq_true] at htest
  obtain ⟨⟨hback, hloaded⟩, hpaid⟩ := htest
  have hr' := hr.mono fun _ _ _ => keepsIn_steps
  have h₀ : ∀ k, ∀ a ∈ firstStarted.sets k, 1500000 ≤ a ∧ a ≤ 1550000 := by
    intro k a ha
    rw [firstStarted_sets] at ha
    split_ifs at ha
    · simp at ha
    · exact Finset.mem_Icc.mp ha
  exact ⟨_, _, hr', (hm _ (by simp) .freeAmounts).mp hback, (hm _ (by simp) .pendingOrders).mp hloaded,
    by simpa using hpaid, (free_in_range h₀ hr').1⟩

/-- The amounts that `OrderSchema` admits. -/
def Admitted : Check := .label fun x =>
  match x with
  | .spawn _ (.createOrder _ m) => decide (1500000 ≤ m ∧ m ≤ 1550000)
  | _ => true

/-- An order of 1550000 during an outage, a restart, and the confirmation of its payment. -/
theorem free_leaves_range : ∃ (tr₀ tr : List Label) (c₀ c : State),
    Lts.Run (Lts.restrict Steps (Alone 0)) (.init World.empty) (.spawn 0 (.lifespan 1) :: tr₀) c₀ ∧
      Lts.Run Admitted.Steps c₀ tr c ∧ 1550001 ∈ c.world.free := by
  obtain ⟨tr₀, h₀⟩ := started_run
  obtain ⟨c, tr, s, m, htest, hm, -, hr⟩ := tracks_run 4 Admitted
    ([.spawn 1 (.createOrder 1 1550000), .fail 1 RedisError, .go 1 (some 1550001)] ++ Move.goes 1 3 ++
      [.spawn 2 (.lifespan 2), .go 2 (some 1500001)] ++ Move.goes 2 5 ++ Script.confirm 3 1 1)
    started [1500001, 1550001] (fun a k => a = 1500001 ∧ k ≠ .pendingOrders)
    (fun _ m => m 1550001 .freeAmounts)
    (by decide +kernel) (started_within (by decide)) firstStarted_edge
    (.spawn 0 (.lifespan 1) :: tr₀) (Or.inr fun _ _ _ => rfl)
  exact ⟨tr₀, tr, _, _, h₀, hr, (hm _ (by simp) .freeAmounts).mp htest⟩

end Pool.Range

end PaymentRecon
