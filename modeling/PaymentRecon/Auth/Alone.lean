import PaymentRecon.Auth.Play
import PaymentRecon.Auth.Sessions
import PaymentRecon.Lib.Runs

/-!
# Alone — one session by itself, while time passes

The executions of a program of one session.  No other session moves in between, and the clock may
advance before every operation.
-/

namespace PaymentRecon

open Interleave

namespace Auth

variable {s : Settings} {β : Type} {p : Pid} {w w₁ w' : World} {jti : Jti}

abbrev Calls := List (Call sig Exc)

variable {cs cs₁ : Calls}

/-- The environment lets time pass, and nothing else. -/
def Ticks (x : Event) : Prop := ∃ d, x = .tick d

/-- The session `p` executes `x`. -/
abbrev Executes (s : Settings) (p : Pid) (x : App β) (w : World) (cs : Calls) (r : Except Exc β)
    (w' : World) : Prop :=
  Runs ((auth s).amid Ticks) p x w cs r w'

/-- One operation and the rest of the program. -/
theorem executes_await {γ : Type} {op : Op} {g : op.Ret → App γ} {r : Except Exc γ} :
    Executes s p (await op >>= g) w cs r w' ↔
      (∃ d x w₁ cs₁, op.run p (w.outer (.tick d)) (.ok x) w₁ ∧ Executes s p (g x) w₁ cs₁ r w' ∧
        cs = ⟨.done, op, .ok x⟩ :: cs₁) ∨
      ∃ d f e, exec f p op (w.outer (.tick d)) (.error e) w' ∧ cs = [⟨f, op, .error e⟩] ∧
        r = .error e := by
  constructor
  · intro h
    rcases runs_bind.mp h with ⟨x, w₁, cs₁, cs₂, hop, hrest, rfl⟩ | ⟨e, hop, rfl⟩
    · obtain ⟨f, ⟨_, ⟨d, rfl⟩, hx⟩, rfl⟩ := runs_perform.mp hop
      cases f with
      | done => exact Or.inl ⟨d, x, w₁, cs₂, hx, hrest, rfl⟩
      | failed =>
        obtain ⟨-, e, -, he⟩ := hx
        exact absurd he (by simp)
      | lost =>
        obtain ⟨-, -, e, -, he⟩ := hx
        exact absurd he (by simp)
    · obtain ⟨f, ⟨_, ⟨d, rfl⟩, hx⟩, rfl⟩ := runs_perform.mp hop
      exact Or.inr ⟨d, f, e, hx, rfl, rfl⟩
  · rintro (⟨d, x, w₁, cs₁, hx, hrest, rfl⟩ | ⟨d, f, e, hx, rfl, rfl⟩)
    · exact runs_bind.mpr (Or.inl ⟨x, w₁, _, cs₁, runs_perform.mpr ⟨.done, ⟨_, ⟨d, rfl⟩, hx⟩, rfl⟩,
        hrest, rfl⟩)
    · exact runs_bind.mpr (Or.inr ⟨e, runs_perform.mpr ⟨f, ⟨_, ⟨d, rfl⟩, hx⟩, rfl⟩, rfl⟩)

/-! ## What an execution leaves as it is -/

/-- A commit that takes effect. -/
def Commits (c : Call sig Exc) : Prop := c.op = .commit ∧ c.fault ≠ .failed

/-- The users stay as they are, and so does the table until a commit takes effect. -/
theorem executes_users {x : App β} {r : Except Exc β} (h : Executes s p x w cs r w') :
    w'.users = w.users := by
  refine h.amid_keeps (I := fun v => v.users = w.users) (P := fun _ => True) rfl ?_ ?_ fun _ _ => trivial
  · rintro _ v ⟨d, rfl⟩ hv
    exact hv
  · intro c v v' _ hv hx
    exact (exec_frame hx).1.users.trans hv

theorem executes_tokens {x : App β} {r : Except Exc β} (h : Executes s p x w cs r w')
    (hno : ∀ c ∈ cs, ¬ Commits c) : w'.tokens = w.tokens := by
  refine h.amid_keeps (I := fun v => v.tokens = w.tokens) (P := fun c => ¬ Commits c) rfl ?_ ?_ hno
  · rintro _ v ⟨d, rfl⟩ hv
    exact hv
  · intro c v v' hc hv hx
    obtain ⟨hframe, hfailed⟩ := exec_frame hx
    rcases not_and_or.mp hc with hop | hf
    · exact (hframe.tokens hop).trans hv
    · exact hfailed (not_not.mp hf) ▸ hv

/-! ## The clock -/

/-- What a call read off the clock. -/
def reading : Call sig Exc → Option ℕ
  | ⟨_, .now, .ok n⟩ => some n
  | _ => none

def readings (cs : Calls) : List ℕ := cs.filterMap reading

theorem readings_append (cs cs' : Calls) : readings (cs ++ cs') = readings cs ++ readings cs' :=
  List.filterMap_append

theorem readings_nil_of_ops (h : ∀ c ∈ cs, c.op ≠ .now) : readings cs = [] := by
  refine List.filterMap_eq_nil_iff.mpr fun c hc => ?_
  obtain ⟨f, op, r⟩ := c
  have hop : op ≠ .now := h _ hc
  unfold reading
  split
  · rename_i heq
    cases heq
    exact absurd rfl hop
  · rfl

/-- The clock does not go back, and is read in between. -/
theorem executes_clock {x : App β} {r : Except Exc β} (h : Executes s p x w cs r w') :
    w.clock ≤ w'.clock ∧ ∀ n ∈ readings cs, w.clock ≤ n ∧ n ≤ w'.clock := by
  induction h with
  | ret => exact ⟨le_rfl, by simp [readings]⟩
  | raise => exact ⟨le_rfl, by simp [readings]⟩
  | @call op k w w₁ w' f a cs r hx _ ih =>
    obtain ⟨_, ⟨d, rfl⟩, hx⟩ := hx
    obtain ⟨hle, hread⟩ := ih
    have hclock : w₁.clock = w.clock + d := (exec_frame hx).1.clock
    refine ⟨by omega, fun n hn => ?_⟩
    rw [readings, List.filterMap_cons] at hn
    cases hr : reading (⟨f, op, a⟩ : Call sig Exc) with
    | none =>
      rw [hr] at hn
      obtain ⟨h₁, h₂⟩ := hread n hn
      omega
    | some m =>
      rw [hr] at hn
      rcases List.mem_cons.mp hn with rfl | hn
      · -- this call read the clock
        unfold reading at hr
        split at hr
        · rename_i heq
          cases heq
          obtain rfl := Option.some.inj hr
          cases f with
          | done =>
            obtain ⟨hn, -⟩ := hx
            have hnow : _ = w.clock + d := Except.ok.inj hn
            omega
          | failed => exact absurd hx.2.choose_spec.2 (by simp)
          | lost => exact hx.1.elim
        · exact absurd hr (by simp)
      · obtain ⟨h₁, h₂⟩ := hread n hn
        omega

/-! ## An UPDATE that finds nothing -/

theorem all_await {A : Op → Prop} {op : Op} (h : A op) : (await op).All A fun _ => True :=
  Prog.All.perform h fun _ => trivial

theorem updateRows_nil {sel : Where} {ids : List Id}
    (h : Executes s p (updateRows sel ids) w cs (.ok []) w') :
    (w'.tokens = w.tokens ∧ w'.writes = w.writes ∧ w'.locks = w.locks) ∧
      ∀ t ∈ w.view p, t.id ∈ ids → ¬ sel.Matches t := by
  induction ids generalizing w cs with
  | nil =>
    obtain ⟨-, -, rfl⟩ := runs_ret.mp h
    exact ⟨⟨rfl, rfl, rfl⟩, by simp⟩
  | cons id ids ih =>
    rcases executes_await.mp h with ⟨d, row, w₁, cs₁, hop, hrest, rfl⟩ | ⟨d, f, e, -, -, he⟩
    · rcases runs_bind.mp hrest with ⟨rows, w₂, cs₂, cs₃, hrows, hend, rfl⟩ | ⟨e, -, he⟩
      · obtain ⟨rfl, hnil, rfl⟩ := runs_ret.mp hend
        obtain ⟨hrow, rfl⟩ := List.append_eq_nil_iff.mp (Except.ok.inj hnil).symm
        obtain rfl : row = none := by simpa using hrow
        obtain ⟨-, hop⟩ := hop
        split at hop
        · exact absurd hop.1 (by simp)
        · rename_i hnone
          obtain ⟨-, rfl⟩ := hop
          obtain ⟨hsame, hno⟩ := ih hrows
          refine ⟨hsame, fun t ht hid hm => ?_⟩
          rcases List.mem_cons.mp hid with rfl | hid
          · exact absurd (List.find?_eq_none.mp hnone t ht) (by simpa using hm)
          · exact hno t ht hid hm
      · exact absurd he (by simp)
    · exact absurd he (by simp)

theorem ops_updateRows (sel : Where) (ids : List Id) :
    (updateRows sel ids).All (fun op => ∃ id, op = Op.updateRow sel id) fun _ => True := by
  induction ids with
  | nil => trivial
  | cons id ids ih =>
    refine .bind (m := fun _ => True) (all_await ⟨id, rfl⟩) (fun _ _ => ?_) fun _ _ => trivial
    exact .bind (m := fun _ => True) ih (fun _ _ => trivial) fun _ _ => trivial

/-- **The token is refused**: no row that the session sees is live when the UPDATE reads the clock. -/
theorem validate_none (h : Executes s p (validateAndRevokeRefreshTokenService jti) w cs (.ok none) w') :
    (w'.tokens = w.tokens ∧ w'.writes = w.writes ∧ w'.locks = w.locks) ∧
      ∃ n, readings cs = [n] ∧ ∀ t ∈ w.view p, ¬ (Where.live jti n).Matches t := by
  unfold validateAndRevokeRefreshTokenService at h
  rcases executes_await.mp h with ⟨d, n, w₁, cs₁, ⟨-, rfl⟩, hrest, rfl⟩ | ⟨d, f, e, -, -, he⟩
  · rcases runs_bind.mp hrest with ⟨rows, w₂, cs₂, cs₃, hupdate, hone, rfl⟩ | ⟨e, -, he⟩
    · obtain ⟨rfl, rfl, rfl⟩ : rows = [] ∧ cs₃ = [] ∧ w' = w₂ := by
        match rows with
        | [] =>
          obtain ⟨rfl, -, rfl⟩ := runs_ret.mp hone
          exact ⟨rfl, rfl, rfl⟩
        | [x] => exact absurd (runs_ret.mp hone).2.1 (by simp)
        | _ :: _ :: _ => exact absurd (runs_raise.mp hone).2.1 (by simp)
      rcases executes_await.mp hupdate with ⟨d', ids, w₃, cs₄, ⟨ids', hids, hok, rfl⟩, hrows, rfl⟩ |
        ⟨d', f, e, -, -, he⟩
      · obtain rfl := Except.ok.inj hok
        obtain ⟨hsame, hno⟩ := updateRows_nil hrows
        refine ⟨hsame, n, ?_, fun t ht hm => ?_⟩
        · have hnone : readings cs₄ = [] := readings_nil_of_ops fun c hc => by
            obtain ⟨id, hop⟩ := hrows.ops (ops_updateRows _ ids) c hc
            simp [hop]
          rw [List.append_nil]
          show n :: readings cs₄ = [n]
          rw [hnone]
        · refine hno t ht (hids.mem_iff.mpr (List.mem_map_of_mem (List.mem_filter.mpr ⟨ht, ?_⟩))) hm
          exact decide_eq_true hm
      · exact absurd he (by simp)
    · exact absurd he (by simp)
  · exact absurd he (by simp)

/-! ## Computed executions -/

/-- Nothing fails, and no time passes. -/
def quietly (p : Pid) : Attempt sig Exc World := fun op w =>
  (op.attempt p w).map fun x => (.done, x.1, x.2)

theorem quietly_sound (s : Settings) (p : Pid) (op : Op) (w : World) (f : Fault) (r : Except Exc op.Ret) (w' : World)
    (h : quietly p op w = some (f, r, w')) : ((auth s).amid Ticks).exec f p op w r w' := by
  obtain ⟨⟨r', w''⟩, hx, he⟩ := Option.map_eq_some_iff.mp h
  obtain ⟨rfl, rfl, rfl⟩ : f = .done ∧ r = r' ∧ w' = w'' := by simpa [eq_comm] using he
  exact ⟨.tick 0, ⟨0, rfl⟩, attempt_run hx⟩

end Auth

end PaymentRecon
