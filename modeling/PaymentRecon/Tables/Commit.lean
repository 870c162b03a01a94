import PaymentRecon.Model.Exec

/-!
# Commit — what the writes of a transaction do to each table

A commit applies the writes of a session in order.  An intent after it is an intent from before, or
one the session inserted, that `Evolves` along the payments of the session; the other tables are
described in the same way.
-/

namespace PaymentRecon

open Interleave

/-! ## The intents -/

/-- `j` is what the payments among `ws` made of `i`. -/
structure Evolves (ws : List Write) (i j : PaymentIntent) : Prop where
  id : j.id = i.id
  order : j.orderId = i.orderId
  base : j.baseAmount = i.baseAmount
  exact : j.exactAmount = i.exactAmount
  status : j.status = i.status ∨ j.status = .PAID ∧ ∃ sms, Write.payIntent i.id sms ∈ ws
  sms : j.smsTransactionId = i.smsTransactionId ∨
    ∃ t, Write.payIntent i.id (some t) ∈ ws ∧ j.smsTransactionId = some t ∧ j.status = .PAID

theorem Evolves.refl (ws : List Write) (i : PaymentIntent) : Evolves ws i i :=
  ⟨rfl, rfl, rfl, rfl, Or.inl rfl, Or.inl rfl⟩

theorem Evolves.mono {ws ws' : List Write} {i j : PaymentIntent} (h : Evolves ws i j)
    (hsub : ∀ x ∈ ws, x ∈ ws') : Evolves ws' i j := by
  refine ⟨h.id, h.order, h.base, h.exact, ?_, ?_⟩
  · exact h.status.imp_right fun ⟨hp, sms, hm⟩ => ⟨hp, sms, hsub _ hm⟩
  · exact h.sms.imp_right fun ⟨t, hm, ht⟩ => ⟨t, hsub _ hm, ht⟩

@[simp] theorem pay_id (i : PaymentIntent) (sms : Option Id) : (i.pay sms).id = i.id := rfl

@[simp] theorem pay_orderId (i : PaymentIntent) (sms : Option Id) :
    (i.pay sms).orderId = i.orderId := rfl

@[simp] theorem pay_exactAmount (i : PaymentIntent) (sms : Option Id) :
    (i.pay sms).exactAmount = i.exactAmount := rfl

@[simp] theorem pay_status (i : PaymentIntent) (sms : Option Id) :
    (i.pay sms).status = .PAID := rfl

@[simp] theorem pay_none_sms (i : PaymentIntent) :
    (i.pay none).smsTransactionId = i.smsTransactionId := rfl

@[simp] theorem pay_some_sms (i : PaymentIntent) (t : Id) :
    (i.pay (some t)).smsTransactionId = some t := rfl

theorem Evolves.pay {ws : List Write} {i j : PaymentIntent} {sms : Option Id}
    (h : Evolves ws i j) (hm : Write.payIntent i.id sms ∈ ws) : Evolves ws i (j.pay sms) := by
  refine ⟨h.id, h.order, h.base, h.exact, Or.inr ⟨rfl, sms, hm⟩, ?_⟩
  cases sms with
  | none => exact h.sms.imp_right fun ⟨t, ht, hj, _⟩ => ⟨t, ht, hj, rfl⟩
  | some t => exact Or.inr ⟨t, hm, rfl, rfl⟩

/-- The ids of the intents a list of writes inserts. -/
def insertedIds (ws : List Write) : List Id :=
  ws.filterMap fun x => match x with
    | .insIntent i => some i.id
    | _ => none

@[simp] theorem mem_insertedIds {ws : List Write} {id : Id} :
    id ∈ insertedIds ws ↔ ∃ i, Write.insIntent i ∈ ws ∧ i.id = id := by
  unfold insertedIds
  rw [List.mem_filterMap]
  constructor
  · rintro ⟨x, hx, h⟩
    cases x with
    | insIntent i => exact ⟨i, hx, by simpa using h⟩
    | _ => simp at h
  · rintro ⟨i, hi, rfl⟩
    exact ⟨_, hi, rfl⟩

@[simp] theorem insertedIds_append (ws ws' : List Write) :
    insertedIds (ws ++ ws') = insertedIds ws ++ insertedIds ws' := List.filterMap_append

/-- The commit of `ws` on `db`. -/
def Db.commit (db : Db) (ws : List Write) : Db := ws.foldl Write.apply db

@[simp] theorem Db.commit_nil (db : Db) : db.commit [] = db := rfl

@[simp] theorem Db.commit_cons (db : Db) (x : Write) (ws : List Write) :
    db.commit (x :: ws) = (x.apply db).commit ws := rfl

theorem Db.commit_append (db : Db) (ws : List Write) (x : Write) :
    db.commit (ws ++ [x]) = x.apply (db.commit ws) := by
  simp [Db.commit, List.foldl_append]

theorem Db.commit_ids (db : Db) (ws : List Write) :
    (db.commit ws).intents.map (·.id) = db.intents.map (·.id) ++ insertedIds ws := by
  induction ws using List.reverseRecOn with
  | nil => simp [insertedIds]
  | append_singleton ws x ih =>
    rw [Db.commit_append, insertedIds_append]
    cases x with
    | insIntent i =>
      simp only [Write.apply, List.map_append, ih]
      simp [insertedIds]
    | payIntent id sms =>
      have hmap : ((db.commit ws).intents.map fun i => if i.id = id then i.pay sms else i).map
          (·.id) = (db.commit ws).intents.map (·.id) := by
        rw [List.map_map]
        refine List.map_congr_left fun i _ => ?_
        simp only [Function.comp_apply]
        split_ifs <;> rfl
      simp only [Write.apply, hmap, ih]
      simp [insertedIds]
    | _ => simp only [Write.apply, ih]; simp [insertedIds]

/-- Where an intent comes from. -/
theorem Db.mem_commit {db : Db} (ws : List Write) {j : PaymentIntent}
    (h : j ∈ (db.commit ws).intents) :
    ∃ i, (i ∈ db.intents ∨ Write.insIntent i ∈ ws) ∧ Evolves ws i j := by
  induction ws using List.reverseRecOn generalizing j with
  | nil => exact ⟨j, Or.inl h, Evolves.refl _ _⟩
  | append_singleton ws x ih =>
    have hsub : ∀ y ∈ ws, y ∈ ws ++ [x] := fun y hy => List.mem_append_left _ hy
    have lift : ∀ {j}, j ∈ (db.commit ws).intents →
        ∃ i, (i ∈ db.intents ∨ Write.insIntent i ∈ ws ++ [x]) ∧ Evolves (ws ++ [x]) i j := by
      intro j hj
      obtain ⟨i, hi, he⟩ := ih hj
      exact ⟨i, hi.imp_right (hsub _), he.mono hsub⟩
    rw [Db.commit_append] at h
    cases x with
    | insIntent i =>
      rcases List.mem_append.mp h with h | h
      · exact lift h
      · obtain rfl := List.mem_singleton.mp h
        exact ⟨j, Or.inr (by simp), Evolves.refl _ _⟩
    | payIntent id sms =>
      obtain ⟨k, hk, rfl⟩ := List.mem_map.mp h
      obtain ⟨i, hi, he⟩ := lift hk
      refine ⟨i, hi, ?_⟩
      split_ifs with hid
      · refine he.pay ?_
        rw [← he.id, hid]
        simp
      · exact he
    | _ => exact lift h

/-- Every intent is still there, evolved. -/
theorem Db.commit_keeps {db : Db} (ws : List Write) {i : PaymentIntent} (h : i ∈ db.intents) :
    ∃ j ∈ (db.commit ws).intents, Evolves ws i j := by
  induction ws using List.reverseRecOn with
  | nil => exact ⟨i, h, Evolves.refl _ _⟩
  | append_singleton ws x ih =>
    obtain ⟨j, hj, he⟩ := ih
    have he' : Evolves (ws ++ [x]) i j := he.mono fun y hy => List.mem_append_left _ hy
    rw [Db.commit_append]
    cases x with
    | insIntent k => exact ⟨j, List.mem_append_left _ hj, he'⟩
    | payIntent id sms =>
      refine ⟨_, List.mem_map.mpr ⟨j, hj, rfl⟩, ?_⟩
      split_ifs with hid
      · refine he'.pay ?_
        rw [← he.id, hid]
        simp
      · exact he'
    | _ => exact ⟨j, hj, he'⟩

/-- An intent that the session inserted is there, evolved. -/
theorem Db.commit_inserts (db : Db) {ws : List Write} {i : PaymentIntent}
    (h : Write.insIntent i ∈ ws) : ∃ j ∈ (db.commit ws).intents, Evolves ws i j := by
  induction ws using List.reverseRecOn with
  | nil => simp at h
  | append_singleton ws x ih =>
    have hsub : ∀ y ∈ ws, y ∈ ws ++ [x] := fun y hy => List.mem_append_left _ hy
    rw [Db.commit_append]
    rcases List.mem_append.mp h with hold | hnew
    · obtain ⟨j, hj, he⟩ := ih hold
      cases x with
      | insIntent k => exact ⟨j, List.mem_append_left _ hj, he.mono hsub⟩
      | payIntent id sms =>
        refine ⟨_, List.mem_map.mpr ⟨j, hj, rfl⟩, ?_⟩
        split_ifs with hid
        · refine (he.mono hsub).pay ?_
          rw [← he.id, hid]
          simp
        · exact he.mono hsub
      | _ => exact ⟨j, hj, he.mono hsub⟩
    · obtain rfl : Write.insIntent i = x := by simpa using hnew
      exact ⟨i, List.mem_append_right _ (List.mem_singleton_self _), Evolves.refl _ _⟩

/-- An intent that no write pays stays as it is. -/
theorem Db.commit_unpaid {db : Db} {ws : List Write} {i : PaymentIntent} (h : i ∈ db.intents)
    (hp : ∀ sms, Write.payIntent i.id sms ∉ ws) : i ∈ (db.commit ws).intents := by
  induction ws using List.reverseRecOn with
  | nil => exact h
  | append_singleton ws x ih =>
    have hi := ih fun sms hm => hp sms (List.mem_append_left _ hm)
    rw [Db.commit_append]
    cases x with
    | insIntent k => exact List.mem_append_left _ hi
    | payIntent id sms =>
      refine List.mem_map.mpr ⟨i, hi, ?_⟩
      rw [if_neg]
      rintro rfl
      exact hp sms (by simp)
    | _ => exact hi

/-- An intent that a write pays is PAID. -/
theorem Db.commit_pays {db : Db} {ws : List Write} {i : PaymentIntent} {t : Option Id}
    (h : i ∈ db.intents) (hm : Write.payIntent i.id t ∈ ws) :
    ∃ j ∈ (db.commit ws).intents, Evolves ws i j ∧ j.status = .PAID := by
  induction ws using List.reverseRecOn with
  | nil => simp at hm
  | append_singleton ws x ih =>
    have hsub : ∀ y ∈ ws, y ∈ ws ++ [x] := fun y hy => List.mem_append_left _ hy
    rw [Db.commit_append]
    rcases List.mem_append.mp hm with hold | hnew
    · obtain ⟨j, hj, he, hpaid⟩ := ih hold
      cases x with
      | insIntent k => exact ⟨j, List.mem_append_left _ hj, he.mono hsub, hpaid⟩
      | payIntent id sms =>
        refine ⟨_, List.mem_map.mpr ⟨j, hj, rfl⟩, ?_⟩
        split_ifs with hid
        · refine ⟨(he.mono hsub).pay ?_, rfl⟩
          rw [← he.id, hid]
          simp
        · exact ⟨he.mono hsub, hpaid⟩
      | _ => exact ⟨j, hj, he.mono hsub, hpaid⟩
    · obtain rfl : Write.payIntent i.id t = x := by simpa using hnew
      obtain ⟨j, hj, he⟩ := Db.commit_keeps ws h
      refine ⟨j.pay t, List.mem_map.mpr ⟨j, hj, if_pos he.id⟩, ?_, rfl⟩
      exact (he.mono hsub).pay hm

/-! ## The SMS transactions and the sequences -/

/-- The SMS transactions a list of writes inserts. -/
def insertedSms (ws : List Write) : List SMSTransaction :=
  ws.filterMap fun x => match x with
    | .insSms r => some r
    | _ => none

@[simp] theorem mem_insertedSms {ws : List Write} {r : SMSTransaction} :
    r ∈ insertedSms ws ↔ Write.insSms r ∈ ws := by
  unfold insertedSms
  rw [List.mem_filterMap]
  constructor
  · rintro ⟨x, hx, h⟩
    cases x with
    | insSms r' =>
      obtain rfl : r' = r := by simpa using h
      exact hx
    | _ => simp at h
  · intro h
    exact ⟨_, h, rfl⟩

@[simp] theorem insertedSms_append (ws ws' : List Write) :
    insertedSms (ws ++ ws') = insertedSms ws ++ insertedSms ws' := List.filterMap_append

theorem Db.commit_sms (db : Db) (ws : List Write) :
    (db.commit ws).sms = db.sms ++ insertedSms ws := by
  induction ws using List.reverseRecOn with
  | nil => simp [insertedSms]
  | append_singleton ws x ih =>
    rw [Db.commit_append, insertedSms_append]
    cases x <;> simp [Write.apply, ih, insertedSms]

theorem Db.commit_next (db : Db) (ws : List Write) :
    (db.commit ws).nextOrder = db.nextOrder ∧ (db.commit ws).nextIntent = db.nextIntent ∧
      (db.commit ws).nextSms = db.nextSms ∧ (db.commit ws).nextEvent = db.nextEvent := by
  induction ws using List.reverseRecOn with
  | nil => exact ⟨rfl, rfl, rfl, rfl⟩
  | append_singleton ws x ih =>
    rw [Db.commit_append]
    cases x <;> exact ih

/-! ## The outbox -/

/-- `e'` is what the updates among `ws` made of the event `e`. -/
structure EventEvolves (ws : List Write) (e e' : OutBoxOrderEvent) : Prop where
  id : e'.id = e.id
  data : e'.data = e.data
  status : e' = e ∨ (e'.status = .PUBLISHED ∧ ∃ ids, Write.publish ids ∈ ws ∧ e.id ∈ ids) ∨
    ∃ u, Write.eventError u ∈ ws ∧ u.id = e.id ∧ e'.status = u.status ∧
      e'.retryCount = some u.retryCount

theorem EventEvolves.refl (ws : List Write) (e : OutBoxOrderEvent) : EventEvolves ws e e :=
  ⟨rfl, rfl, Or.inl rfl⟩

theorem EventEvolves.mono {ws ws' : List Write} {e e' : OutBoxOrderEvent}
    (h : EventEvolves ws e e') (hsub : ∀ x ∈ ws, x ∈ ws') : EventEvolves ws' e e' := by
  refine ⟨h.id, h.data, ?_⟩
  rcases h.status with hs | ⟨hp, ids, hm, hid⟩ | ⟨u, hm, hu⟩
  · exact Or.inl hs
  · exact Or.inr (Or.inl ⟨hp, ids, hsub _ hm, hid⟩)
  · exact Or.inr (Or.inr ⟨u, hsub _ hm, hu⟩)

/-- One more write. -/
theorem EventEvolves.snoc {ws : List Write} {e e' : OutBoxOrderEvent} (h : EventEvolves ws e e')
    (x : Write) : EventEvolves (ws ++ [x]) e (match x with
      | .publish ids => if e'.id ∈ ids then e'.publish else e'
      | .eventError u => if e'.id = u.id then e'.fail u else e'
      | _ => e') := by
  have h' : EventEvolves (ws ++ [x]) e e' := h.mono fun y hy => List.mem_append_left _ hy
  cases x with
  | publish ids =>
    simp only
    split_ifs with hid
    · exact ⟨h.id, h.data, Or.inr (Or.inl ⟨rfl, ids, by simp, h.id ▸ hid⟩)⟩
    · exact h'
  | eventError u =>
    simp only
    split_ifs with hid
    · exact ⟨h.id, h.data, Or.inr (Or.inr ⟨u, by simp, by rw [← hid, h.id], rfl, rfl⟩)⟩
    · exact h'
  | _ => exact h'

theorem Db.mem_commit_outbox {db : Db} (ws : List Write) {e' : OutBoxOrderEvent}
    (h : e' ∈ (db.commit ws).outbox) :
    ∃ e, (e ∈ db.outbox ∨ Write.insEvent e ∈ ws) ∧ EventEvolves ws e e' := by
  induction ws using List.reverseRecOn generalizing e' with
  | nil => exact ⟨e', Or.inl h, EventEvolves.refl _ _⟩
  | append_singleton ws x ih =>
    have lift : ∀ {e₁}, e₁ ∈ (db.commit ws).outbox →
        ∃ e, (e ∈ db.outbox ∨ Write.insEvent e ∈ ws ++ [x]) ∧ EventEvolves ws e e₁ := by
      intro e₁ he₁
      obtain ⟨e, he, hev⟩ := ih he₁
      exact ⟨e, he.imp_right (List.mem_append_left _), hev⟩
    rw [Db.commit_append] at h
    cases x with
    | insEvent e₀ =>
      rcases List.mem_append.mp h with h | h
      · obtain ⟨e, he, hev⟩ := lift h
        exact ⟨e, he, hev.snoc _⟩
      · obtain rfl := List.mem_singleton.mp h
        exact ⟨e', Or.inr (by simp), EventEvolves.refl _ _⟩
    | publish ids =>
      obtain ⟨e₁, he₁, rfl⟩ := List.mem_map.mp h
      obtain ⟨e, he, hev⟩ := lift he₁
      exact ⟨e, he, hev.snoc (.publish ids)⟩
    | eventError u =>
      obtain ⟨e₁, he₁, rfl⟩ := List.mem_map.mp h
      obtain ⟨e, he, hev⟩ := lift he₁
      exact ⟨e, he, hev.snoc (.eventError u)⟩
    | _ =>
      obtain ⟨e, he, hev⟩ := lift h
      exact ⟨e, he, hev.snoc _⟩

/-- Every event is still there, evolved, and so is every event the session inserted. -/
theorem Db.commit_outbox_keeps {db : Db} (ws : List Write) {e : OutBoxOrderEvent}
    (h : e ∈ db.outbox ∨ Write.insEvent e ∈ ws) :
    ∃ e' ∈ (db.commit ws).outbox, EventEvolves ws e e' := by
  induction ws using List.reverseRecOn with
  | nil => exact ⟨e, h.resolve_right (by simp), EventEvolves.refl _ _⟩
  | append_singleton ws x ih =>
    rw [Db.commit_append]
    by_cases hold : e ∈ db.outbox ∨ Write.insEvent e ∈ ws
    · obtain ⟨e', he', hev⟩ := ih hold
      refine ⟨_, ?_, hev.snoc x⟩
      cases x with
      | insEvent e₀ => exact List.mem_append_left _ he'
      | publish ids => exact List.mem_map.mpr ⟨e', he', rfl⟩
      | eventError u => exact List.mem_map.mpr ⟨e', he', rfl⟩
      | _ => exact he'
    · have hx : x = .insEvent e := by
        rcases h with h | h
        · exact absurd (Or.inl h) hold
        · rcases List.mem_append.mp h with h | h
          · exact absurd (Or.inr h) hold
          · exact (List.mem_singleton.mp h).symm
      subst hx
      exact ⟨e, List.mem_append_right _ (List.mem_singleton_self e), EventEvolves.refl _ _⟩

/-- The ids of the events a list of writes inserts. -/
def insertedEvents (ws : List Write) : List Id :=
  ws.filterMap fun x => match x with
    | .insEvent e => some e.id
    | _ => none

@[simp] theorem mem_insertedEvents {ws : List Write} {id : Id} :
    id ∈ insertedEvents ws ↔ ∃ e, Write.insEvent e ∈ ws ∧ e.id = id := by
  unfold insertedEvents
  rw [List.mem_filterMap]
  constructor
  · rintro ⟨x, hx, h⟩
    cases x with
    | insEvent e => exact ⟨e, hx, by simpa using h⟩
    | _ => simp at h
  · rintro ⟨e, he, rfl⟩
    exact ⟨_, he, rfl⟩

@[simp] theorem insertedEvents_append (ws ws' : List Write) :
    insertedEvents (ws ++ ws') = insertedEvents ws ++ insertedEvents ws' := List.filterMap_append

theorem Db.commit_eventIds (db : Db) (ws : List Write) :
    (db.commit ws).outbox.map (·.id) = db.outbox.map (·.id) ++ insertedEvents ws := by
  induction ws using List.reverseRecOn with
  | nil => simp [insertedEvents]
  | append_singleton ws x ih =>
    have mapped : ∀ (c : OutBoxOrderEvent → Prop) [DecidablePred c]
        (f : OutBoxOrderEvent → OutBoxOrderEvent), (∀ e, (f e).id = e.id) →
        ((db.commit ws).outbox.map fun e => if c e then f e else e).map (·.id) =
          (db.commit ws).outbox.map (·.id) := by
      intro c _ f hf
      rw [List.map_map]
      refine List.map_congr_left fun e _ => ?_
      simp only [Function.comp_apply]
      split_ifs
      · exact hf e
      · rfl
    rw [Db.commit_append, insertedEvents_append]
    cases x with
    | insEvent e =>
      simp only [Write.apply, List.map_append, ih]
      simp [insertedEvents]
    | publish ids =>
      simp only [Write.apply]
      rw [mapped (fun e => e.id ∈ ids) (fun e => e.publish) fun _ => rfl, ih]
      simp [insertedEvents]
    | eventError u =>
      simp only [Write.apply]
      rw [mapped (fun e => e.id = u.id) (fun e => e.fail u) fun _ => rfl, ih]
      simp [insertedEvents]
    | _ => simp only [Write.apply, ih]; simp [insertedEvents]

/-- The write updates the event. -/
def Write.Touches : Write → Id → Prop
  | .publish ids, id => id ∈ ids
  | .eventError u, id => u.id = id
  | _, _ => False

/-- An event that no write touches stays as it is. -/
theorem EventEvolves.touched {ws : List Write} {e e' : OutBoxOrderEvent} (h : EventEvolves ws e e') :
    e' = e ∨ ∃ x ∈ ws, x.Touches e.id := by
  rcases h.status with h | ⟨-, ids, hm, hid⟩ | ⟨u, hm, hu, -⟩
  · exact Or.inl h
  · exact Or.inr ⟨_, hm, hid⟩
  · exact Or.inr ⟨_, hm, hu⟩

/-- `World.commit` in terms of `Db.commit`. -/
theorem World.commit_eq (w : World) (p : Pid) :
    w.commit p = { w with db := w.db.commit (w.txn p).writes }.setTxn p Txn.empty := rfl

end PaymentRecon
