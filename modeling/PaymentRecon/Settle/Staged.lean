import PaymentRecon.Model.Ordinary
import PaymentRecon.Tables.Growth

/-!
# Staged — settlements in a logic that follows the requests by stages

A logic may give each request a stage, which its own operations move on (`track`).  A settlement is then
specified once for all such logics (`Staged`): a locking SELECT, the one row it must answer, and the
UPDATE, after which the stage names the settled intent.
-/

namespace PaymentRecon

open Interleave Rely

/-- The logic follows the requests by stages: operations of no concern leave an idle request idle, and
the UPDATE of a settlement leads to the stage `matched`. -/
structure Staged {σ : Type} (L : Rely sig Exc Response World Request Tick)
    (next : σ → (op : Op) → Except Exc op.Ret → σ) (idle : σ) (matched : PaymentIntent → σ) : Prop where
  machine : L.machine = system
  locks : ∀ {w past}, L.inv w past → LocksOk w
  aside : ∀ {op}, Aside op → ∀ r, next idle op r = idle
  settled : ∀ i t u, next idle (.flushPaid i t) (.ok u) = matched i
  unsettled : ∀ i t e, next idle (.flushPaid i t) (.error e) = idle
  aside_guard : ∀ {p w past op}, Aside op → track next idle p past = idle → L.guard p w past op
  flush_guard : ∀ {p w past i} t, track next idle p past = idle → w.Held p i →
    i.status = .PENDING ∨ i.status = .FAILED → L.guard p w past (.flushPaid i t)

namespace Staged

variable {σ : Type} {L : Rely sig Exc Response World Request Tick}
  {next : σ → (op : Op) → Except Exc op.Ret → σ} {idle : σ} {matched : PaymentIntent → σ} {p : Pid}

/-- The request is at this stage. -/
def At (next : σ → (op : Op) → Except Exc op.Ret → σ) (idle : σ) (p : Pid) (s : σ) :
    Assertion sig Exc World Request Tick := fun _ past => track next idle p past = s

/-- The rows that a locking SELECT answered, before anything was done with them. -/
def AtRows (next : σ → (op : Op) → Except Exc op.Ret → σ) (idle : σ) (p : Pid)
    (sel : PaymentIntent → Bool) (rows : List PaymentIntent) : Assertion sig Exc World Request Tick :=
  fun w past => At next idle p idle w past ∧ w.HeldRows p sel rows

theorem stable_at (s : σ) : L.Stable p (At next idle p s) := by
  intro w past a w' _ _ _ hp h
  exact (track_other hp).trans h

section

variable (h : Staged L next idle matched)
include h

theorem stable_atRows (sel : PaymentIntent → Bool) (rows : List PaymentIntent) :
    L.Stable p (AtRows next idle p sel rows) :=
  (stable_at idle).and fun _ _ _ _ hI hw _ hp hK => wstep_heldRows (h.machine ▸ hw) (h.locks hI) hp hK

/-- An operation of no concern. -/
theorem keeps_aside (op : Op) (hop : Aside op) :
    L.Ensures p (At next idle p idle) (await op) fun _ => At next idle p idle := by
  refine Ensures.perform (fun _ => stable_at idle) (fun _ _ _ hat => h.aside_guard hop hat) ?_
  intro f w past r w' _ hat _ _
  unfold At at hat ⊢
  rw [track_own, hat]
  exact h.aside hop r

/-- A locking SELECT at the beginning of a settlement. -/
theorem keeps_select (op : Op) (hret : op.Ret = List PaymentIntent) (hop : Aside op)
    {sel : PaymentIntent → Bool}
    (hx : ∀ f w (rows : op.Ret) w', exec f p op w (.ok rows) w' →
      w'.HeldRows p sel (cast hret rows)) :
    L.Ensures p (At next idle p idle) (await op) fun r => match r with
      | .ok rows => AtRows next idle p sel (cast hret rows)
      | .error _ => At next idle p idle := by
  refine Ensures.perform ?_ (fun _ _ _ hat => h.aside_guard hop hat) ?_
  · intro r
    cases r with
    | ok rows => exact h.stable_atRows sel _
    | error e => exact stable_at idle
  · intro f w past r w' _ hat hex _
    have hex : system.exec f p op w r w' := h.machine ▸ hex
    have hidle : At next idle p idle w' (past ++ [.run p f op r]) := by
      unfold At at hat ⊢
      rw [track_own, hat]
      exact h.aside hop r
    cases r with
    | ok rows => exact ⟨hidle, hx f w rows w' hex⟩
    | error e => exact hidle

omit h in
theorem keeps_scalarOne (sel : PaymentIntent → Bool) (rows : List PaymentIntent) :
    L.Ensures p (AtRows next idle p sel rows) (scalarOne rows) fun r => match r with
      | .ok i => AtRows next idle p sel [i]
      | .error _ => At next idle p idle := by
  match rows with
  | [] => exact fun _ _ h => h.1
  | [i] => exact fun _ _ h => h
  | _ :: _ :: _ => exact fun _ _ h => h.1

/-- The settlement of the row that was selected. -/
theorem keeps_flushPaid {sel : PaymentIntent → Bool} {i : PaymentIntent} (t : Option Id)
    (hsel : sel i = true → i.status = .PENDING ∨ i.status = .FAILED) :
    L.Ensures p (AtRows next idle p sel [i]) (await (.flushPaid i t)) fun r => match r with
      | .ok _ => fun w past => sel i = true ∧ At next idle p (matched i) w past
      | .error _ => At next idle p idle := by
  refine Ensures.perform ?_ ?_ ?_
  · intro r
    cases r with
    | ok _ => exact Stable.and (fun _ _ _ _ _ _ _ _ h => h) (stable_at _)
    | error _ => exact stable_at _
  · rintro w past - ⟨hat, hrows⟩
    obtain ⟨hheld, hi⟩ := hrows i (List.mem_singleton_self i)
    exact h.flush_guard t hat hheld (hsel hi)
  · rintro f w past r w' - ⟨hat, hrows⟩ - -
    have hnext : track next idle p (past ++ [.run p f _ r]) = next idle (.flushPaid i t) r := by
      rw [track_own]
      exact congrArg (fun s => next s (.flushPaid i t) r) hat
    cases r with
    | ok u => exact ⟨(hrows i (List.mem_singleton_self i)).2, hnext.trans (h.settled i t u)⟩
    | error e => exact hnext.trans (h.unsettled i t e)

theorem keeps_processPendingPayment (amount t : Json) :
    L.Ensures p (At next idle p idle) (processPendingPayment amount t) fun r => match r with
      | .ok (_, false) => At next idle p idle
      | .ok (_, true) => fun w past =>
        ∃ i : PaymentIntent, i.exactAmount = amount.asInt ∧ At next idle p (matched i) w past
      | .error _ => At next idle p idle := by
  unfold processPendingPayment
  split_ifs
  · exact fun _ _ h => h
  · refine Ensures.bind (h.keeps_aside (.intentBySms t) trivial) ?_ fun _ _ _ h => h
    intro already
    cases already with
    | some i => exact fun _ _ h => h
    | none =>
      refine Ensures.bind (h.keeps_aside .beginSelect trivial) ?_ fun _ _ _ h => h
      intro _
      refine Ensures.bind (h.keeps_select (.lockPending amount) rfl trivial
        fun f w rows w' hx => exec_lockPending hx) ?_ fun _ _ _ h => h
      intro rows
      refine Ensures.tryCatch (m := fun r => match r with
        | .ok (_, false) => fun _ _ => False
        | .ok (_, true) => fun w past =>
          ∃ i : PaymentIntent, i.exactAmount = amount.asInt ∧ At next idle p (matched i) w past
        | .error _ => At next idle p idle) ?_ ?_ fun e _ _ h => h
      · refine Ensures.bind (keeps_scalarOne _ _) ?_ fun _ _ _ h => h
        intro i
        refine Ensures.bind (h.keeps_flushPaid (some t.asInt) ?_) ?_ fun _ _ _ h => h
        · intro hi
          exact Or.inl (by simpa [pendingWith] using hi : i.Holds amount.asInt).1
        · rintro _ w past ⟨hi, hat⟩
          exact ⟨i, (by simpa [pendingWith] using hi : i.Holds amount.asInt).2, hat⟩
      · rintro ⟨i, _ | _⟩ w past h
        · exact h.elim
        · exact h

end

end Staged

end PaymentRecon
