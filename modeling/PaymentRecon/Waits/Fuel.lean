import PaymentRecon.Model.Ordinary
import PaymentRecon.Tables.Growth

/-!
# Fuel — the startup comes to the end of its pages

The loop over the pages of PENDING intents has no bound in the source.  Every page takes its cursor past an
intent more, so a startup that ran out of fuel had no more fuel than there are intents: with more it ends.
-/

namespace PaymentRecon

open Interleave Rely

namespace Fuel

variable {p : Pid} {w w' : World} {past : List Label} {x : Label} {k n : ℕ} {last : Id}

/-- So many intents are behind the cursor. -/
def Behind (k : ℕ) (last : Id) (w : World) : Prop :=
  k ≤ (w.db.intents.map (·.id)).countP fun id => id ≤ last

/-- The intents of a state stay there. -/
theorem Behind.step (h : Behind k last w) (hw : system.WStep w x w') : Behind k last w' := by
  obtain ⟨q, hstep, -⟩ := wstep_tableStep (p := 0) hw
  refine Nat.le_trans h ?_
  rcases hstep.intents with heq | heq
  · rw [heq]
  · rw [heq, Db.commit_ids, List.countP_append]
    exact Nat.le_add_right _ _

theorem Behind.le_length (h : Behind k last w) : k ≤ w.db.intents.length := by
  have hcount := Nat.le_trans h List.countP_le_length
  rwa [List.length_map] at hcount

/-- A page takes the cursor past one intent more. -/
theorem Behind.page {limit : ℕ} {i : PaymentIntent} (h : Behind k last w)
    (hlast : (w.db.pendingPage last limit).getLast? = some i) : Behind (k + 1) i.id w := by
  have hmem : i ∈ w.db.intents.filter fun i => i.status = .PENDING ∧ last < i.id :=
    List.mem_mergeSort.mp (List.mem_of_mem_take (List.mem_of_getLast? hlast))
  obtain ⟨hi, hcond⟩ := List.mem_filter.mp hmem
  have hlt : last < i.id := (of_decide_eq_true hcond).2
  have hbehind : (w.db.intents.map (·.id)).countP (fun id => id ≤ last) <
      (w.db.intents.map (·.id)).countP fun id => id ≤ i.id := by
    have hsub : (w.db.intents.map (·.id)).filter (fun id => id ≤ last) =
        ((w.db.intents.map (·.id)).filter fun id => id ≤ i.id).filter fun id => id ≤ last := by
      rw [List.filter_filter]
      refine List.filter_congr fun id _ => ?_
      simp only [← Bool.decide_and, decide_eq_decide]
      exact ⟨fun hid => ⟨hid, le_trans hid hlt.le⟩, fun hid => hid.1⟩
    rw [List.countP_eq_length_filter, List.countP_eq_length_filter, hsub,
      List.length_filter_lt_length_iff_exists]
    exact ⟨i.id, List.mem_filter.mpr ⟨List.mem_map_of_mem hi, by simp⟩, by simpa using hlt⟩
  exact Nat.succ_le_of_lt (Nat.lt_of_le_of_lt h hbehind)

/-- A thread that is out of fuel is a startup with no more of it than there are intents. -/
def Spent (p : Pid) (w : World) (past : List Label) : Prop :=
  ∃ fuel, .spawn p (.lifespan fuel) ∈ past ∧ fuel ≤ w.db.intents.length

def logic : Rely sig Exc Response World Request Tick where
  machine := system
  cond := fun _ _ _ _ => True
  inv := top
  start := fun _ => top
  guard := fun p w past op => op = .outOfFuel → Spent p w past
  final := fun _ _ => top

abbrev Facts := Assertion sig Exc World Request Tick

abbrev Keeps {β : Type} (p : Pid) (K : Facts) (y : App β) (post : Except Exc β → Facts) : Prop :=
  logic.Ensures p K y post

/-- The thread is a startup with this fuel. -/
def Started (p : Pid) (n : ℕ) : Facts := fun _ past => .spawn p (.lifespan n) ∈ past

theorem persistent_started : logic.Persistent (Started p n) :=
  fun _ _ _ _ _ _ _ h => List.mem_append_left _ h

/-- The startup has this fuel, and so many intents are behind its cursor. -/
def Reading (p : Pid) (n k : ℕ) (last : Id) : Facts := fun w past => Started p n w past ∧ Behind k last w

theorem persistent_reading : logic.Persistent (Reading p n k last) :=
  fun _ _ _ _ _ hw _ h => ⟨List.mem_append_left _ h.1, h.2.step hw⟩

theorem keeps_op {K : Facts} (hK : logic.Persistent K) (op : Op) (h : op ≠ .outOfFuel) :
    Keeps p K (await op) fun _ => K :=
  Ensures.skip hK fun _ _ _ _ heq => absurd heq h

theorem keeps_pendingPage (limit : ℕ) : Keeps p (Reading p n k last) (await (.pendingPage last limit))
    (whenOk fun page w past => Started p n w past ∧
      ∀ i, page.getLast? = some i → Behind (k + 1) i.id w) := by
  refine Ensures.perform (stable_whenOk fun page => Persistent.stable ?_)
    (fun _ _ _ _ heq => absurd heq (by simp)) ?_
  · rintro w past x w' - hw - ⟨hs, hb⟩
    exact ⟨List.mem_append_left _ hs, fun i hi => (hb i hi).step hw⟩
  · rintro f w past r w' - ⟨hs, hb⟩ hx -
    cases r with
    | error e => trivial
    | ok page =>
      rcases exec_cases hx with ⟨hpage, rfl⟩ | ⟨-, e, -, he⟩ | ⟨-, r₀, -, e, -, he⟩
      · obtain rfl := Except.ok.inj hpage
        exact ⟨List.mem_append_left _ hs, fun i hi => hb.page hi⟩
      · cases he
      · cases he

/-- **The loop over the pages** uses one unit of fuel for an intent that it leaves behind. -/
theorem keeps_addPendingOrders (limit redisBuffer fuel : ℕ) (buffer : List Amount) (hn : n = k + fuel) :
    Keeps p (Reading p n k last) (addPendingOrders limit redisBuffer fuel last buffer)
      fun _ => top := by
  induction fuel generalizing k last buffer with
  | zero =>
    refine Ensures.bind (m := fun _ => top) ?_ (fun _ _ _ _ => trivial) fun _ _ _ _ => trivial
    refine Ensures.perform (fun _ _ _ _ _ _ _ _ _ _ => trivial) ?_ fun _ _ _ _ _ _ _ _ _ => trivial
    rintro w past - ⟨hs, hb⟩ -
    exact ⟨n, hs, hn ▸ hb.le_length⟩
  | succ fuel ih =>
    unfold addPendingOrders
    refine Ensures.bind (keeps_pendingPage limit) (fun page => ?_) fun _ _ _ _ => trivial
    cases hlast : page.getLast? with
    | none => exact fun _ _ _ => trivial
    | some i =>
      have hrest : ∀ buffer, Keeps p (Reading p n (k + 1) i.id)
          (addPendingOrders limit redisBuffer fuel i.id buffer) fun _ => top :=
        fun buffer => ih buffer (by omega)
      refine Ensures.pre (K := Reading p n (k + 1) i.id) ?_ fun w past h => ⟨h.1, h.2 i hlast⟩
      simp only
      split_ifs
      · exact Ensures.bind (keeps_op persistent_reading _ (by simp)) (fun _ => hrest []) fun _ _ _ _ => trivial
      · exact hrest _

/-- A request none of whose operations runs out of fuel. -/
theorem keeps_all {β : Type} {K : Facts} {y : App β} {A : Op → Prop} {R : Except Exc β → Prop}
    (hy : y.All A R) (hA : ∀ op, A op → op ≠ .outOfFuel) : Keeps p K y fun _ => top :=
  (Ensures.ofAll hy fun _ _ _ hop _ heq => absurd heq (hA _ hop)).mono fun _ _ _ _ => trivial

theorem keeps_lifespan (fuel : ℕ) : Keeps p (Started p fuel) (lifespan fuel) fun _ => top := by
  have hseeded : Keeps p (Started p fuel) (isExistRangeAmount 1500000 1550000 10000)
      fun _ => Started p fuel := by
    refine Ensures.all (fun op h => keeps_op persistent_started op ?_) (all_isExistRangeAmount _ _ _)
    rintro rfl
    exact h
  have hread : Keeps p (Started p fuel) (addPendingOrders 100 1000 fuel 0 []) fun _ => top :=
    (keeps_addPendingOrders (k := 0) 100 1000 fuel [] (by omega)).pre fun w _ h => ⟨h, Nat.zero_le _⟩
  have hrest : ∀ buffer : List Amount, Keeps p top (do
      if buffer ≠ [] then await (.sadd .pendingOrders buffer)
      await (.sdiffstore .freeAmounts .amounts .pendingOrders)) fun _ => top := by
    intro buffer
    split_ifs
    · exact Ensures.bind (keeps_op Persistent.true _ (by simp))
        (fun _ => keeps_op Persistent.true _ (by simp)) fun _ _ _ _ => trivial
    · exact keeps_op Persistent.true _ (by simp)
  refine Ensures.bind hseeded (fun _ => ?_) fun _ _ _ _ => trivial
  refine Ensures.bind (m := fun _ => top) ?_ (fun _ _ _ _ => trivial) fun _ _ _ _ => trivial
  unfold rebuildPool
  refine Ensures.bind (keeps_op persistent_started _ (by simp)) (fun _ => ?_) fun _ _ _ _ => trivial
  exact Ensures.bind hread hrest fun _ _ _ _ => trivial

theorem keeps_prog (y : Request) : Keeps p (fun _ past => .spawn p y ∈ past) y.prog fun _ => top := by
  have keeps : ∀ {β : Type} {K : Facts} {z : App β} {A : Op → Prop} {R : Except Exc β → Prop}, z.All A R →
      ¬ A .outOfFuel → Keeps p K z fun _ => top := by
    rintro β K z A R hz hA
    refine keeps_all hz ?_
    rintro op hop rfl
    exact hA hop
  cases y with
  | createOrder userId amount => exact keeps (creates_createOrder userId amount) fun h => h
  | confirmPayment orderId paymentId => exact keeps (all_confirmPayment orderId paymentId) fun h => h
  | handlePayment m => exact keeps (all_seq (all_handlePayment m) fun _ => trivial) fun h => h
  | receiveTransaction s => exact keeps (all_receiveTransaction s) fun h => h
  | processOutboxEvent => exact keeps all_processOutboxEvent fun h => h
  | work workerId =>
    refine (ensures_turn (K := top) (fun op h => ?_) (fun m => ?_) workerId).pre fun _ _ _ => trivial
    · exact keeps (all_await h) fun h => h
    · exact keeps (all_handlePayment m) fun h => h
  | replayDlq z => exact keeps (all_replayDlqDashboard z) fun h => h
  | lifespan fuel => exact keeps_lifespan fuel

theorem sound : logic.Sound where
  prog _ y _ _ _ _ _ := (keeps_prog y).pre fun _ _ h => h.2
  start _ := Persistent.true.stable
  begin _ _ _ _ _ := trivial
  spawn _ _ _ _ _ _ := trivial
  run _ _ _ _ _ _ _ _ _ _ _ := trivial
  crash _ _ _ _ _ := trivial
  outer _ _ _ _ _ := trivial

end Fuel

/-- **Only a startup runs out of fuel**, and it had no more of it than there are intents. -/
theorem spent_of_outOfFuel {w₀ : World} {tr : List Label} {c : State} {p : Pid}
    {k : Except Exc Unit → App Response} (hr : Lts.Run Steps (.init w₀) tr c)
    (hp : c.thread p = .live (.call .outOfFuel k)) :
    ∃ fuel, .spawn p (.lifespan fuel) ∈ tr ∧ fuel ≤ c.world.db.intents.length := by
  have hH : Fuel.logic.Holds c := by
    refine hr.inv (fun c => Fuel.logic.Holds c) (Holds.init trivial fun _ => trivial) ?_
    rintro c x c' hH hs
    exact (Fuel.sound.step hs trivial hH).2
  obtain ⟨K, hK, -, J, -, hguard, -⟩ := hH.live p _ hp
  obtain ⟨fuel, hspawn, hle⟩ := hguard _ _ hH.inv hK rfl
  rw [run_past hr] at hspawn
  exact ⟨fuel, hspawn, hle⟩

end PaymentRecon
