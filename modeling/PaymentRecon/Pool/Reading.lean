import PaymentRecon.Pool.Startup
import PaymentRecon.Requests.Allocate

/-!
# Reading — a startup reads every reservation

`get_all_pending_orders` goes from page to page with the id of the last intent it saw, and the rebuild
writes what it yields in portions of another size.  Whatever the two sizes are, every PENDING intent is
yielded once, in the order of the ids, and its amount ends up in `pending_orders`.
-/

namespace PaymentRecon

open Interleave Requests

namespace Pool

variable {p : Pid} {w w' : World} {cs : Calls}

/-! ## What is yielded -/

/-- The intents of a page. -/
def pageOf : Call sig Exc → List PaymentIntent
  | ⟨_, .pendingPage _ _, .ok orders⟩ => orders
  | _ => []

/-- What `get_all_pending_orders` yields, page after page. -/
def yielded (cs : Calls) : List PaymentIntent := cs.flatMap pageOf

theorem yielded_append (cs cs' : Calls) : yielded (cs ++ cs') = yielded cs ++ yielded cs' :=
  List.flatMap_append

/-- An operation that reads no page. -/
def Unpaged : Op → Prop
  | .pendingPage _ _ => False
  | _ => True

theorem yielded_unpaged (h : ∀ c ∈ cs, Unpaged c.op) : yielded cs = [] := by
  refine List.flatMap_eq_nil_iff.mpr fun c hc => ?_
  obtain ⟨f, op, r⟩ := c
  have hop : Unpaged op := h _ hc
  cases op <;> first
    | exact hop.elim
    | rfl

theorem above_strict {db : Db} (hnd : (db.intents.map (·.id)).Nodup) (cursor : Id) :
    (Above db cursor).Pairwise fun i j => i.id < j.id := by
  have hids : ((Above db cursor).map (·.id)).Nodup := by
    have hfilter : ((db.intents.filter fun i => i.status = .PENDING ∧ cursor < i.id).map (·.id)).Nodup :=
      hnd.sublist (List.filter_sublist.map _)
    exact ((List.mergeSort_perm _ _).map _).nodup_iff.mpr hfilter
  have hne := List.pairwise_map.mp hids
  exact (above_sorted db cursor).imp₂ (fun _ _ hle hne => lt_of_le_of_ne hle hne) hne

/-- **One page and the rest.** -/
theorem above_split {db : Db} (hnd : (db.intents.map (·.id)).Nodup) {cursor : Id} {limit : ℕ}
    {last : PaymentIntent} (hlast : (db.pendingPage cursor limit).getLast? = some last) :
    Above db cursor = db.pendingPage cursor limit ++ Above db last.id := by
  have hpage : db.pendingPage cursor limit = (Above db cursor).take limit := rfl
  obtain ⟨-, hcover⟩ := page_covers hnd hlast
  have hstrict := above_strict hnd cursor
  have hlow : ∀ i ∈ db.pendingPage cursor limit, i.id ≤ last.id := by
    intro i hi
    obtain ⟨init, hinit⟩ := List.getLast?_eq_some_iff.mp hlast
    have hsorted : (init ++ [last]).Pairwise fun i j : PaymentIntent => i.id < j.id := by
      rw [← hinit, hpage]
      exact hstrict.sublist (List.take_sublist _ _)
    rw [hinit] at hi
    rcases List.mem_append.mp hi with hi | hi
    · exact ((List.pairwise_append.mp hsorted).2.2 i hi last (List.mem_singleton_self _)).le
    · exact (congrArg _ (List.mem_singleton.mp hi)).le
  have hright : (db.pendingPage cursor limit ++ Above db last.id).Pairwise
      fun i j => i.id < j.id := by
    refine List.pairwise_append.mpr ⟨?_, above_strict hnd last.id, fun i hi j hj => ?_⟩
    · rw [hpage]
      exact hstrict.sublist (List.take_sublist _ _)
    · exact (hlow i hi).trans_lt (mem_above.mp hj).2.2
  have hnodup : ∀ {l : List PaymentIntent}, (l.Pairwise fun i j => i.id < j.id) → l.Nodup :=
    fun h => h.imp fun hlt heq => absurd (congrArg PaymentIntent.id heq) hlt.ne
  refine List.Perm.eq_of_pairwise (fun i j _ _ hij hji => absurd hij (lt_asymm hji)) hstrict hright ?_
  rw [List.perm_ext_iff_of_nodup (hnodup hstrict) (hnodup hright)]
  intro i
  rw [hcover, List.mem_append]

/-- The pages that the loop reads. -/
theorem yielded_addPendingOrders {limit : ℕ} (hlimit : 0 < limit) (redisBuffer fuel : ℕ) {cursor : Id}
    {buffer : List Amount} {r : Except Exc (List Amount)} {db : Db}
    (hnd : (db.intents.map (·.id)).Nodup) (hfuel : (Above db cursor).length < fuel)
    (h : Executes p (addPendingOrders limit redisBuffer fuel cursor buffer) w cs r w')
    (hdb : w.db = db) (hs : ∀ c ∈ cs, c.fault = .done) : yielded cs = Above db cursor := by
  induction fuel generalizing cursor buffer w cs with
  | zero => omega
  | succ fuel ih =>
    unfold addPendingOrders at h
    rcases runs_await.mp h with ⟨page, w₁, cs₁, ⟨hpage, rfl⟩, hrest, rfl⟩ | ⟨f, e, hx, rfl, -⟩
    · obtain rfl := Except.ok.inj hpage
      rw [List.forall_mem_cons] at hs
      show w₁.db.pendingPage cursor limit ++ yielded cs₁ = _
      rw [hdb] at hrest ⊢
      cases hlast : (db.pendingPage cursor limit).getLast? with
      | none =>
        rw [hlast] at hrest
        obtain ⟨rfl, -, -⟩ := runs_ret.mp hrest
        have hnil : db.pendingPage cursor limit = [] := List.getLast?_eq_none_iff.mp hlast
        rw [hnil, page_nil hlimit hlast]
        rfl
      | some last =>
        have hless := lt_of_lt_of_le (above_length hlast) (Nat.lt_succ_iff.mp hfuel)
        rw [above_split hnd hlast]
        rw [hlast] at hrest
        simp only at hrest
        split_ifs at hrest
        · rcases runs_await.mp hrest with ⟨_, w₂, cs₂, ⟨-, rfl⟩, hmore, rfl⟩ | ⟨f, e, hx, rfl, -⟩
          · have htail : yielded cs₂ = Above db last.id :=
              ih hless hmore hdb (List.forall_mem_cons.mp hs.2).2
            rw [← htail]
            rfl
          · obtain rfl : f = .done := hs.2 _ (List.mem_singleton_self _)
            exact absurd hx.1 (by simp)
        · exact congrArg _ (ih hless hrest hdb hs.2)
    · obtain rfl : f = .done := hs _ (List.mem_singleton_self _)
      exact absurd hx.1 (by simp)

/-! ## The startup -/

theorem unpaged_await {op : Op} (h : Unpaged op) : (await op).All Unpaged fun _ => True :=
  Prog.All.perform h fun _ => trivial

theorem unpaged_isExistRangeAmount (start stop : Amount) (batch : ℕ) :
    (isExistRangeAmount start stop batch).All Unpaged fun _ => True := by
  unfold isExistRangeAmount
  refine .bind (m := fun _ => True) (unpaged_await trivial) ?_ fun _ _ => trivial
  intro existing _
  split_ifs
  · exact trivial
  · exact .forEach (fun _ _ => unpaged_await trivial) trivial

/-- What a rebuild yields. -/
theorem yielded_rebuildPool {limit : ℕ} (hlimit : 0 < limit) (redisBuffer : ℕ) {fuel : ℕ}
    {r : Except Exc Unit} {db : Db} (hnd : (db.intents.map (·.id)).Nodup)
    (hfuel : db.intents.length < fuel)
    (h : Executes p (rebuildPool limit redisBuffer fuel) w cs r w') (hdb : w.db = db)
    (hs : ∀ c ∈ cs, c.fault = .done) : yielded cs = Above db 0 := by
  have hlen : (Above db 0).length < fuel := by
    refine lt_of_le_of_lt ?_ hfuel
    rw [Above, List.length_mergeSort]
    exact List.length_filter_le _ _
  unfold rebuildPool at h
  rcases runs_await.mp h with ⟨_, w₁, cs₁, ⟨-, rfl⟩, hrest, rfl⟩ | ⟨f, e, hx, rfl, -⟩
  · rw [List.forall_mem_cons] at hs
    rcases runs_bind.mp hrest with ⟨buffer, w₂, cs₂, cs₃, hpages, hlast, rfl⟩ | ⟨e, hpages, -⟩
    · rw [List.forall_mem_append] at hs
      have hyield : yielded cs₂ = Above db 0 :=
        yielded_addPendingOrders hlimit redisBuffer fuel hnd hlen hpages hdb hs.2.1
      have hnone : yielded cs₃ = [] := by
        refine yielded_unpaged (hlast.ops (R := fun _ => True) ?_)
        split_ifs
        · exact .bind (m := fun _ => True) (unpaged_await trivial) (fun _ _ => unpaged_await trivial)
            fun _ _ => trivial
        · exact unpaged_await trivial
      show yielded (cs₂ ++ cs₃) = _
      rw [yielded_append, hyield, hnone, List.append_nil]
    · have hyield : yielded cs₁ = Above db 0 :=
        yielded_addPendingOrders hlimit redisBuffer fuel hnd hlen hpages hdb hs.2
      exact hyield
  · obtain rfl : f = .done := hs _ (List.mem_singleton_self _)
    exact absurd hx.1 (by simp)

/-- What a startup does whose calls go through. -/
structure Reads (w : World) (cs : Calls) (r : Except Exc Response) (w' : World) : Prop where
  started : r = .ok .started
  db : w'.db = w.db
  ascending : (yielded cs).Pairwise fun i j => i.id < j.id
  every : ∀ i, i ∈ yielded cs ↔ i ∈ w.db.intents ∧ i.status = .PENDING
  pending : ∀ a, a ∈ w'.pending ↔ ∃ i ∈ w.db.intents, i.status = .PENDING ∧ i.exactAmount = a
  free : w'.free = w'.amounts \ w'.pending

section

variable {limit fuel : ℕ} (hlimit : 1 ≤ limit) (redisBuffer : ℕ)
  (hnd : (w.db.intents.map (·.id)).Nodup) (hpos : ∀ i ∈ w.db.intents, 1 ≤ i.id)
  (hfuel : w.db.intents.length < fuel)
include hlimit hnd hpos hfuel

omit hpos in
/-- What a startup yields. -/
theorem yielded_lifespanWith {r : Except Exc Response}
    (h : Executes p (lifespanWith limit redisBuffer fuel) w cs r w')
    (hs : ∀ c ∈ cs, c.fault = .done) : yielded cs = Above w.db 0 := by
  unfold lifespanWith at h
  rcases runs_bind.mp h with ⟨_, w₁, cs₁, cs₂, hseed, hrest, rfl⟩ | ⟨e, hseed, rfl⟩
  · rw [List.forall_mem_append] at hs
    obtain ⟨-, rfl⟩ := (wp_isExistRangeAmount (by decide)).runs hseed hs.1
    have hnone : yielded cs₁ = [] :=
      yielded_unpaged (hseed.ops (unpaged_isExistRangeAmount _ _ _))
    rw [yielded_append, hnone, List.nil_append]
    rcases runs_bind.mp hrest with ⟨_, w₂, cs₃, cs₄, hbuild, hend, rfl⟩ | ⟨e, hbuild, -⟩
    · obtain ⟨rfl, -, -⟩ := runs_ret.mp hend
      rw [List.append_nil] at hs ⊢
      exact yielded_rebuildPool hlimit redisBuffer hnd hfuel hbuild rfl hs.2
    · exact yielded_rebuildPool hlimit redisBuffer hnd hfuel hbuild rfl hs.2
  · exact absurd ((wp_isExistRangeAmount (by decide)).runs hseed hs).1 (by simp)

/-- **A startup reads every reservation.**  Over any table of intents and from any sets, for every
limit of a page and every size of the buffer: the startup comes to its end, and when none of its calls
fails it has read every PENDING intent once, in the order of the ids, and leaves the PENDING amounts in
`pending_orders` and the others of `amounts` in `free_amounts`. -/
theorem startup_reads :
    (∃ cs r w', Executes p (lifespanWith limit redisBuffer fuel) w cs r w' ∧
      ∀ c ∈ cs, c.fault = .done) ∧
    ∀ cs r w', Executes p (lifespanWith limit redisBuffer fuel) w cs r w' →
      (∀ c ∈ cs, c.fault = .done) → Reads w cs r w' := by
  have hwp := wp_lifespanWith (p := p) hlimit redisBuffer hnd hpos hfuel
  refine ⟨hwp.exists_runs, fun cs r w' hrun hs => ?_⟩
  obtain ⟨rfl, rfl⟩ := hwp.runs hrun hs
  have hyield := yielded_lifespanWith hlimit redisBuffer hnd hfuel hrun hs
  refine ⟨rfl, rfl, ?_, fun i => ?_, fun a => ?_, rfl⟩
  · rw [hyield]
    exact above_strict hnd 0
  · rw [hyield, mem_above]
    constructor
    · rintro ⟨hi, hst, -⟩
      exact ⟨hi, hst⟩
    · rintro ⟨hi, hst⟩
      exact ⟨hi, hst, Int.lt_iff_add_one_le.mpr (hpos i hi)⟩
  · exact mem_reserved

end

/-- Two PENDING intents around a PAID one, after a loss of the sets. -/
def threeIntents : World :=
  { World.empty with
    db := { Db.empty with
      intents := [⟨4, 4, .PENDING, 1500000, 1500002, none⟩, ⟨2, 2, .PAID, 1500000, 1500001, none⟩,
        ⟨1, 1, .PENDING, 1500000, 1500000, none⟩] } }

/-- With pages of one intent and a buffer that is never full. -/
theorem startup_reads_sample :
    (∃ cs r w', Executes 0 (lifespanWith 1 7 4) threeIntents cs r w' ∧ ∀ c ∈ cs, c.fault = .done) ∧
    ∀ cs r w', Executes 0 (lifespanWith 1 7 4) threeIntents cs r w' →
      (∀ c ∈ cs, c.fault = .done) → Reads threeIntents cs r w' :=
  startup_reads (by decide) 7 (by decide) (by decide) (by decide)

end Pool

end PaymentRecon
