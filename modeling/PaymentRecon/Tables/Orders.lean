import PaymentRecon.Tables.Growth

/-!
# Orders — the rows of `orders` and of `payment_intents`, side by side

An order and its intent are flushed together, paid together and never removed, so the two tables
stay aligned row by row.  `Paired` describes the writes of a session that keep them so.
-/

namespace PaymentRecon

open Interleave

variable {p q : Pid} {w w' : World}

/-- The order of the intent, in the same status. -/
structure PaymentIntent.Of (i : PaymentIntent) (o : Order) : Prop where
  id : i.orderId = o.id
  status : o.status = i.status

/-- The two tables agree row by row. -/
def Db.Aligned (db : Db) : Prop := List.Forall₂ (fun o i => PaymentIntent.Of i o) db.orders db.intents

/-- Every entry of a list has its entry in the list it is aligned with. -/
theorem forall₂_mem {α β : Type} {R : α → β → Prop} {xs : List α} {ys : List β}
    (h : List.Forall₂ R xs ys) {x : α} (hx : x ∈ xs) : ∃ y ∈ ys, R x y := by
  induction h with
  | nil => simp at hx
  | @cons x' y xs ys hxy _ ih =>
    rcases List.mem_cons.mp hx with rfl | hx
    · exact ⟨y, List.mem_cons_self, hxy⟩
    · obtain ⟨z, hz, hxz⟩ := ih hx
      exact ⟨z, List.mem_cons_of_mem _ hz, hxz⟩

theorem Db.Aligned.intent {db : Db} (h : db.Aligned) {o : Order} (ho : o ∈ db.orders) :
    ∃ i ∈ db.intents, i.Of o := forall₂_mem h ho

theorem Db.Aligned.order {db : Db} (h : db.Aligned) {i : PaymentIntent} (hi : i ∈ db.intents) :
    ∃ o ∈ db.orders, i.Of o :=
  forall₂_mem (R := fun i o => PaymentIntent.Of i o) (List.Forall₂.flip h) hi

/-- A write to neither of the two tables. -/
def Write.Elsewhere : Write → Prop
  | .insOrder _ | .insIntent _ | .payIntent _ _ | .payOrder _ => False
  | _ => True

/-- Writes that insert and pay orders together with their intents; `known id orderId` says which
committed intents there are. -/
inductive Paired (known : Id → Id → Prop) : List Write → Prop
  | nil : Paired known []
  | store {ws : List Write} {o : Order} {i : PaymentIntent} : Paired known ws → i.Of o →
      Paired known (ws ++ [.insOrder o, .insIntent i])
  | settle {ws : List Write} {id orderId : Id} {t : Option Id} : Paired known ws →
      known id orderId → Paired known (ws ++ [.payIntent id t, .payOrder orderId])
  | elsewhere {ws : List Write} {x : Write} : Paired known ws → x.Elsewhere →
      Paired known (ws ++ [x])

theorem Paired.mono {known known' : Id → Id → Prop} {ws : List Write} (h : Paired known ws)
    (hk : ∀ id orderId, known id orderId → known' id orderId) : Paired known' ws := by
  induction h with
  | nil => exact .nil
  | store _ hio ih => exact ih.store hio
  | settle _ hid ih => exact ih.settle (hk _ _ hid)
  | elsewhere _ hx ih => exact ih.elsewhere hx

theorem Paired.append {known : Id → Id → Prop} {ws xs : List Write} (h : Paired known ws)
    (hxs : ∀ x ∈ xs, x.Elsewhere) : Paired known (ws ++ xs) := by
  induction xs using List.reverseRecOn with
  | nil => simpa using h
  | append_singleton xs x ih =>
    rw [← List.append_assoc]
    exact (ih fun y hy => hxs y (List.mem_append_left _ hy)).elsewhere (hxs x (by simp))

/-- The committed intent with this id belongs to this order. -/
def Db.Known (db : Db) (id orderId : Id) : Prop :=
  ∃ i ∈ db.intents, i.id = id ∧ i.orderId = orderId

/-- Paying an intent and its order keeps the tables aligned. -/
theorem aligned_settle {os : List Order} {is : List PaymentIntent} {id orderId : Id}
    {t : Option Id} (h : List.Forall₂ (fun o i => PaymentIntent.Of i o) os is)
    (hkey : ∀ i ∈ is, i.id = id ↔ i.orderId = orderId) :
    List.Forall₂ (fun o i => PaymentIntent.Of i o)
      (os.map fun o => if o.id = orderId then { o with status := .PAID } else o)
      (is.map fun i => if i.id = id then i.pay t else i) := by
  induction h with
  | nil => exact .nil
  | @cons o i os is hoi _ ih =>
    refine .cons ?_ (ih fun j hj => hkey j (List.mem_cons_of_mem _ hj))
    have hiff : i.id = id ↔ o.id = orderId := by
      rw [hkey i List.mem_cons_self, hoi.id]
    by_cases hid : i.id = id
    · simp only [if_pos hid, if_pos (hiff.mp hid)]
      exact ⟨hoi.id, rfl⟩
    · simp only [if_neg hid, if_neg fun ho => hid (hiff.mpr ho)]
      exact hoi

/-- **Commits keep the tables aligned.**  `hkey`: the intents that are committed or inserted have
distinct orders. -/
theorem Paired.aligned {db : Db} {ws : List Write} (h : Paired db.Known ws) (ha : db.Aligned)
    (hkey : ∀ i j, (i ∈ db.intents ∨ Write.insIntent i ∈ ws) → j ∈ db.intents →
      (i.id = j.id ↔ i.orderId = j.orderId)) : (db.commit ws).Aligned := by
  induction h with
  | nil => exact ha
  | @store ws o i hp hio ih =>
    have hprev := ih fun k j hk hj => hkey k j (hk.imp_right fun hk => by simp [hk]) hj
    rw [List.append_cons, Db.commit_append, Db.commit_append]
    exact List.rel_append hprev (.cons hio .nil)
  | @settle ws id orderId t hp hid ih =>
    have hprev := ih fun k j hk hj => hkey k j (hk.imp_right fun hk => by simp [hk]) hj
    rw [List.append_cons, Db.commit_append, Db.commit_append]
    refine aligned_settle hprev ?_
    intro k hk
    obtain ⟨j, hj, rfl, rfl⟩ := hid
    obtain ⟨k₀, hk₀, he⟩ := Db.mem_commit ws hk
    rw [he.id, he.order]
    exact hkey k₀ j (hk₀.imp_right fun hk => by simp [hk]) hj
  | @elsewhere ws x hp hx ih =>
    have hprev := ih fun k j hk hj => hkey k j (hk.imp_right fun hk => by simp [hk]) hj
    rw [Db.commit_append]
    cases x with
    | insOrder _ | insIntent _ | payIntent _ _ | payOrder _ => exact hx.elim
    | _ => exact hprev

/-! ## What an operation does to the two tables -/

/-- **Inversion** of the operations, for orders and intents. -/
theorem run_orders {op : Op} {r : Except Exc op.Ret} (h : op.run p w r w') :
    (op = .commit ∧ w' = w.commit p) ∨
      (w'.db.orders = w.db.orders ∧ w'.db.intents = w.db.intents ∧
        (w'.db.nextOrder = w.db.nextOrder ∧ w'.db.nextIntent = w.db.nextIntent ∨
          (∃ u a b, op = .insertOrder u a b) ∧ w'.db.nextOrder = w.db.nextOrder + 1 ∧
            w'.db.nextIntent = w.db.nextIntent + 1)) := by
  cases op with
  | spop k =>
    rcases h with ⟨a, -, -, rfl⟩ | ⟨-, -, rfl⟩ <;> exact Or.inr ⟨rfl, rfl, Or.inl ⟨rfl, rfl⟩⟩
  | insertOrder userId amount a =>
    simp only [Op.run] at h
    split_ifs at h
    · rcases h with ⟨-, ⟨-, -, rfl⟩ | ⟨-, -, rfl⟩⟩ <;>
        exact Or.inr ⟨rfl, rfl, Or.inr ⟨⟨_, _, _, rfl⟩, rfl, rfl⟩⟩
    · obtain ⟨-, rfl⟩ := h
      exact Or.inr ⟨rfl, rfl, Or.inl ⟨rfl, rfl⟩⟩
  | lockPending a =>
    simp only [Op.run] at h
    split at h
    · obtain ⟨-, rfl⟩ := h
      exact Or.inr ⟨rfl, rfl, Or.inl ⟨rfl, rfl⟩⟩
    · split at h
      · obtain rfl := Locks.parts h
        exact Or.inr ⟨rfl, rfl, Or.inl ⟨rfl, rfl⟩⟩
      · obtain ⟨-, rfl⟩ := h
        exact Or.inr ⟨rfl, rfl, Or.inl ⟨rfl, rfl⟩⟩
  | lockById paymentId orderId =>
    simp only [Op.run] at h
    split_ifs at h
    · obtain rfl := Locks.parts h
      exact Or.inr ⟨rfl, rfl, Or.inl ⟨rfl, rfl⟩⟩
    · obtain ⟨-, rfl⟩ := h
      exact Or.inr ⟨rfl, rfl, Or.inl ⟨rfl, rfl⟩⟩
  | flushPaid i sms =>
    obtain ⟨-, -, ⟨-, -, rfl⟩ | ⟨-, -, rfl⟩⟩ := h <;>
      exact Or.inr ⟨rfl, rfl, Or.inl ⟨rfl, rfl⟩⟩
  | insertSms amount inventory date time payload =>
    simp only [Op.run] at h
    split_ifs at h
    · rcases h with ⟨-, ⟨-, -, rfl⟩ | ⟨-, -, rfl⟩⟩ <;>
        exact Or.inr ⟨rfl, rfl, Or.inl ⟨rfl, rfl⟩⟩
    · obtain ⟨-, rfl⟩ := h
      exact Or.inr ⟨rfl, rfl, Or.inl ⟨rfl, rfl⟩⟩
  | claimEvents t s l =>
    obtain ⟨sel, -, -, rfl⟩ := h
    exact Or.inr ⟨rfl, rfl, Or.inl ⟨rfl, rfl⟩⟩
  | commit =>
    obtain ⟨-, rfl⟩ := h
    exact Or.inl ⟨rfl, rfl⟩
  | xclaim consumer minIdle id =>
    simp only [Op.run] at h
    split_ifs at h <;>
      · obtain ⟨-, rfl⟩ := h
        exact Or.inr ⟨rfl, rfl, Or.inl ⟨rfl, rfl⟩⟩
  | publishEvents ids | failEvents us =>
    obtain ⟨-, -, rfl⟩ := h
    exact Or.inr ⟨rfl, rfl, Or.inl ⟨rfl, rfl⟩⟩
  | candidate lo hi =>
    obtain ⟨rfl, -⟩ := h
    exact Or.inr ⟨rfl, rfl, Or.inl ⟨rfl, rfl⟩⟩
  | intentBySms t =>
    obtain ⟨rfl, -⟩ := h
    exact Or.inr ⟨rfl, rfl, Or.inl ⟨rfl, rfl⟩⟩
  | outOfFuel => exact h.elim
  | _ =>
    obtain ⟨-, rfl⟩ := h
    exact Or.inr ⟨rfl, rfl, Or.inl ⟨rfl, rfl⟩⟩

end PaymentRecon
