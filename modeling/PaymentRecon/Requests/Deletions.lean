import PaymentRecon.Lib.Rely
import PaymentRecon.Requests.Delete

/-!
# Deletions — requests to delete orders, among all others

Requests to delete orders run while the service runs on, operation by operation.  Every order that such a
request marks has an intent, and keeps it; so the flush of its commit fails, and the service is in a state
that it reaches without these requests.
-/

namespace PaymentRecon

open Interleave Rely Lts

namespace Requests

/-- The service, and the orders that the sessions of these requests marked. -/
structure Site where
  service : State
  deleted : Pid → List Order

def Site.init : Site := ⟨.init World.empty, fun _ => []⟩

def Site.session (s : Site) (p : Pid) : Session := ⟨s.service.world, s.deleted p⟩

def Site.put (s : Site) (p : Pid) (x : Session) : Site :=
  ⟨{ s.service with world := x.world }, Function.update s.deleted p x.deleted⟩

/-- An operation goes through, fails without effect, or is a commit whose answer is lost. -/
def DeleteOp.exec (f : Fault) (p : Pid) (op : DeleteOp) (s : Site) (r : Except Exc op.Ret) (s' : Site) :
    Prop :=
  match f with
  | .done => ∃ x, op.run (s.session p) r x ∧ s' = s.put p x
  | .failed => s' = s ∧ ∃ e, r = .error e
  | .lost => op = .commit ∧ (∃ r₀ x, op.run (s.session p) r₀ x ∧ s' = s.put p x) ∧ ∃ e, r = .error e

/-- Requests to delete orders; the rest of the service is their environment. -/
@[reducible] def site : Machine deleteSig Exc Unit Site (Id × Id) (Label × State) where
  prog := fun q => deleteOrder q.1 q.2
  exec := DeleteOp.exec
  abort := fun p s => s.put p ⟨s.service.world, []⟩
  outer := fun x s => { s with service := x.2 }

abbrev SiteLabel := Act deleteSig Exc (Id × Id) (Label × State)

abbrev SiteState := Config deleteSig Exc Unit Site (Id × Id) (Label × State)

/-- The environment makes a step of the service. -/
def Serves (s : Site) (_ : List SiteLabel) (a : SiteLabel) (_ : Site) : Prop :=
  ∀ x, a = .outer x → Steps s.service x.1 x.2

abbrev SiteSteps : SiteState → SiteLabel → SiteState → Prop := restrict (Step site) (Allows Serves)

/-! ## No order is deleted -/

variable {p : Pid} {s s' : Site} {c c' : State} {d d' : SiteState}

/-- The order has an intent. -/
def HasIntent (s : Site) (o : Order) : Prop := ∃ i ∈ s.service.world.db.intents, i.orderId = o.id

/-- The service is in a state that it reaches by itself, and the marked orders have intents. -/
structure Undeleted (s : Site) : Prop where
  reached : ∃ tr, Run Steps (.init World.empty) tr s.service
  marked : ∀ p, ∀ o ∈ s.deleted p, HasIntent s o

theorem Undeleted.init : Undeleted .init := ⟨⟨[], .nil⟩, fun _ _ h => absurd h List.not_mem_nil⟩

/-- An order that has an intent keeps it. -/
theorem intent_kept (hs : Steps c x c') {o : Order} (h : ∃ i ∈ c.world.db.intents, i.orderId = o.id) :
    ∃ i ∈ c'.world.db.intents, i.orderId = o.id := by
  obtain ⟨i, hi, hof⟩ := h
  obtain ⟨q, hstep, -⟩ := wstep_tableStep (p := 0) hs.wstep.1
  rcases hstep.intents with heq | heq
  · exact ⟨i, heq ▸ hi, hof⟩
  · obtain ⟨j, hj, he⟩ := Db.commit_keeps (c.world.txn q).writes hi
    exact ⟨j, heq ▸ hj, he.order.trans hof⟩

/-- The commit of a session that marked orders with intents is refused. -/
theorem flush_refused {os : List Order} {db : Db} (hne : os ≠ [])
    (h : ∀ o ∈ os, ∃ i ∈ db.intents, i.orderId = o.id) : Db.flushDeleted os db = .error IntegrityError := by
  cases os with
  | nil => exact absurd rfl hne
  | cons o os => exact if_pos (h o List.mem_cons_self)

/-- A session changes its marks only: it marks one more order, or drops them all. -/
def Marks (p : Pid) (op : DeleteOp) (s s' : Site) : Prop :=
  s'.service = s.service ∧ ∃ os, s'.deleted = Function.update s.deleted p os ∧
    (os = s.deleted p ∨ os = [] ∨ ∃ o, op = .delete o ∧ os = s.deleted p ++ [o])

theorem Marks.refl {op : DeleteOp} : Marks p op s s :=
  ⟨rfl, s.deleted p, (Function.update_eq_self _ _).symm, Or.inl rfl⟩

/-- What an operation that goes through does. -/
theorem run_marks {op : DeleteOp} {r : Except Exc op.Ret} {y : Session} (h : Undeleted s)
    (hx : op.run (s.session p) r y) : Marks p op s (s.put p y) := by
  cases op with
  | selectOrder orderId userId =>
    obtain ⟨rfl, -⟩ := hx
    exact ⟨rfl, _, rfl, Or.inl rfl⟩
  | delete o =>
    obtain ⟨-, rfl⟩ := hx
    exact ⟨rfl, _, rfl, Or.inr (Or.inr ⟨o, rfl, rfl⟩)⟩
  | commit =>
    simp only [DeleteOp.run, Site.session] at hx
    by_cases hne : s.deleted p = []
    · rw [hne] at hx
      obtain ⟨-, rfl⟩ := hx
      exact ⟨rfl, _, rfl, Or.inr (Or.inl rfl)⟩
    · rw [flush_refused hne (h.marked p)] at hx
      obtain ⟨-, rfl⟩ := hx
      exact ⟨rfl, _, rfl, Or.inr (Or.inl rfl)⟩
  | rollback =>
    obtain ⟨-, rfl⟩ := hx
    exact ⟨rfl, _, rfl, Or.inr (Or.inl rfl)⟩

theorem exec_marks {f : Fault} {op : DeleteOp} {r : Except Exc op.Ret} (h : Undeleted s)
    (hx : op.exec f p s r s') : Marks p op s s' := by
  cases f with
  | done =>
    obtain ⟨y, hrun, rfl⟩ := hx
    exact run_marks h hrun
  | failed =>
    obtain ⟨rfl, -⟩ := hx
    exact .refl
  | lost =>
    obtain ⟨-, ⟨r₀, y, hrun, rfl⟩, -⟩ := hx
    exact run_marks h hrun

theorem Undeleted.marks {op : DeleteOp} (h : Undeleted s) (hm : Marks p op s s')
    (ho : ∀ o, op = .delete o → HasIntent s o) : Undeleted s' := by
  obtain ⟨hservice, os, hdeleted, hos⟩ := hm
  have hhas : ∀ o, HasIntent s o → HasIntent s' o := by
    intro o hi
    unfold HasIntent
    rw [hservice]
    exact hi
  refine ⟨hservice ▸ h.reached, fun q o hmem => hhas o ?_⟩
  rw [hdeleted] at hmem
  by_cases hq : q = p
  · subst hq
    rw [Function.update_self] at hmem
    rcases hos with rfl | rfl | ⟨o', rfl, rfl⟩
    · exact h.marked q o hmem
    · exact absurd hmem List.not_mem_nil
    · rcases List.mem_append.mp hmem with hold | hnew
      · exact h.marked q o hold
      · obtain rfl := List.mem_singleton.mp hnew
        exact ho o rfl
  · rw [Function.update_of_ne hq] at hmem
    exact h.marked q o hmem

/-- Nothing is deleted: an order is marked when it has an intent, and no request ends well. -/
def deleteLogic : Rely deleteSig Exc Unit Site (Id × Id) (Label × State) where
  machine := site
  cond := Serves
  inv := fun s _ => Undeleted s
  start := fun _ => top
  guard := fun _ s _ op => ∀ o, op = .delete o → HasIntent s o
  final := fun _ r _ _ => ∃ e, r = .error e

abbrev Refuses {β : Type} (p : Pid) (K : Assertion deleteSig Exc Site (Id × Id) (Label × State))
    (x : Deletion β) (post : Except Exc β → Assertion deleteSig Exc Site (Id × Id) (Label × State)) : Prop :=
  deleteLogic.Ensures p K x post

/-- A step of the others leaves the intents and the marks of `p` there. -/
theorem wstep_site {a : SiteLabel} (h : Undeleted s) (hw : site.WStep s a s')
    (hc : ∀ x, a = .outer x → Steps s.service x.1 x.2) :
    (∀ o, HasIntent s o → HasIntent s' o) ∧ (a.pid ≠ some p → s'.deleted p = s.deleted p) ∧
      (s'.service = s.service ∨ ∃ x, Steps s.service x s'.service) := by
  have hstays : ∀ {q : Pid} {os : List Order}, q ≠ p → Function.update s.deleted q os p = s.deleted p :=
    fun hq => Function.update_of_ne hq.symm _ _
  cases a with
  | spawn q y =>
    obtain rfl : s' = s := hw
    exact ⟨fun _ h => h, fun _ => rfl, Or.inl rfl⟩
  | run q f op r =>
    obtain ⟨hservice, os, hdeleted, -⟩ := exec_marks h hw
    refine ⟨fun o hi => ?_, fun hp => ?_, Or.inl hservice⟩
    · unfold HasIntent
      rw [hservice]
      exact hi
    · rw [hdeleted]
      exact hstays fun heq => hp (heq ▸ rfl)
  | crash q =>
    obtain rfl : s' = s.put q ⟨s.service.world, []⟩ := hw
    exact ⟨fun _ h => h, fun hp => hstays fun heq => hp (heq ▸ rfl), Or.inl rfl⟩
  | outer x =>
    obtain rfl : s' = { s with service := x.2 } := hw
    have hs := hc x rfl
    exact ⟨fun _ h => intent_kept hs h, fun _ => rfl, Or.inr ⟨x.1, hs⟩⟩

/-- An operation other than a mark, whatever it answers. -/
theorem refuses_op (op : DeleteOp) (h : ∀ o, op ≠ .delete o) : Refuses p top (ask op) fun _ => top :=
  Ensures.skip Persistent.true fun _ _ _ _ o ho => absurd ho (h o)

/-- What the query finds has an intent. -/
theorem refuses_selectOrder (orderId userId : Id) : Refuses p top (ask (.selectOrder orderId userId))
    (whenOk fun found s _ => ∀ o, found = some o → HasIntent s o) := by
  refine Ensures.perform (stable_whenOk fun found => ?_) (fun _ _ _ _ o ho => absurd ho (by simp)) ?_
  · rintro s past a s' hI hw hc - h o ho
    exact (wstep_site (p := p) hI hw hc).1 o (h o ho)
  · rintro f s past r s' hI - hx -
    cases r with
    | error e => trivial
    | ok found =>
      rintro o rfl
      obtain ⟨hservice, -⟩ := exec_marks hI hx
      cases f with
      | done =>
        obtain ⟨y, ⟨-, hr⟩, -⟩ := hx
        split_ifs at hr
        obtain ⟨tr, hreach⟩ := hI.reached
        unfold HasIntent
        rw [hservice]
        exact order_has_intent hreach o (List.mem_of_find?_eq_some (Except.ok.inj hr).symm)
      | failed =>
        obtain ⟨-, e, he⟩ := hx
        cases he
      | lost => cases hx.1

/-- The session has marked an order. -/
theorem refuses_delete (o : Order) : Refuses p (fun s _ => HasIntent s o) (ask (.delete o))
    (whenOk fun _ s _ => s.deleted p ≠ []) := by
  refine Ensures.perform (stable_whenOk fun _ => ?_) ?_ ?_
  · rintro s past a s' hI hw hc hp h
    rwa [(wstep_site hI hw hc).2.1 hp]
  · rintro s past - h o' ho'
    cases ho'
    exact h
  · rintro f s past r s' - - hx -
    cases r with
    | error e => trivial
    | ok u =>
      cases f with
      | done =>
        obtain ⟨y, ⟨-, rfl⟩, rfl⟩ := hx
        show Function.update s.deleted p _ p ≠ []
        rw [Function.update_self]
        exact List.append_ne_nil_of_right_ne_nil _ (by simp)
      | failed =>
        obtain ⟨-, e, he⟩ := hx
        cases he
      | lost => cases hx.1

/-- The commit of a session that has marked an order fails. -/
theorem refuses_commit : Refuses p (fun s _ => s.deleted p ≠ []) (ask .commit)
    fun r _ _ => ∃ e, r = .error e := by
  refine Ensures.perform (fun _ _ _ _ _ _ _ _ _ h => h) (fun _ _ _ _ o ho => absurd ho (by simp)) ?_
  rintro f s past r s' hI hne hx -
  cases f with
  | done =>
    obtain ⟨y, hrun, -⟩ := hx
    simp only [DeleteOp.run, Site.session, flush_refused hne (hI.marked p)] at hrun
    exact ⟨_, hrun.1⟩
  | failed => exact hx.2
  | lost => exact hx.2.2

/-- **A request to delete an order ends in an error.** -/
theorem refuses_deleteOrder (userId orderId : Id) :
    Refuses p top (deleteOrder userId orderId) fun r _ _ => ∃ e, r = .error e := by
  have hservice : Refuses p top (deleteOrderService orderId userId)
      (whenOk fun _ s _ => s.deleted p ≠ []) := by
    refine Ensures.bind (refuses_selectOrder orderId userId) (fun found => ?_) fun _ _ _ _ => trivial
    cases found with
    | none => exact fun _ _ _ => trivial
    | some o => exact (refuses_delete o).pre fun _ _ h => h o rfl
  refine Ensures.tryCatch (m := fun r _ _ => ∃ e, r = .error e) ?_ ?_ fun e => ?_
  · refine Ensures.tryCatch (m := fun r _ _ => ∃ e, r = .error e)
      (Ensures.bind hservice (fun _ => refuses_commit) fun e _ _ _ => ⟨e, rfl⟩) ?_ fun e => ?_
    · rintro a s past ⟨e, he⟩
      cases he
    · split_ifs
      · exact fun _ _ _ => ⟨_, rfl⟩
      · exact fun _ _ _ => ⟨_, rfl⟩
  · rintro a s past ⟨e, he⟩
    cases he
  · refine Ensures.bind (m := fun _ => top) ?_ (fun _ _ _ _ => ⟨_, rfl⟩) fun e _ _ _ => ⟨e, rfl⟩
    exact (refuses_op .rollback fun _ => by simp).pre fun _ _ _ => trivial

theorem sound_delete : deleteLogic.Sound where
  prog p q _ _ _ _ _ := (refuses_deleteOrder q.1 q.2).pre fun _ _ _ => trivial
  start _ := Persistent.true.stable
  begin _ _ _ _ _ := trivial
  spawn _ _ _ _ h _ := h
  run _ _ _ _ _ _ _ h hg hx _ := h.marks (exec_marks h hx) hg
  crash s past p h _ := by
    have hm : Marks p .rollback s (s.put p ⟨s.service.world, []⟩) := ⟨rfl, [], rfl, Or.inr (Or.inl rfl)⟩
    exact h.marks hm fun o ho => absurd ho (by simp)
  outer s past x h hc := by
    have hs := hc x rfl
    obtain ⟨tr, hr⟩ := h.reached
    exact ⟨⟨_, hr.snoc hs⟩, fun p o ho => intent_kept hs (h.marked p o ho)⟩

/-! ## Runs -/

theorem deletes_holds {tr : List SiteLabel} (hr : Run SiteSteps (.init .init) tr d) : deleteLogic.Holds d := by
  refine hr.inv (fun d => deleteLogic.Holds d) (Holds.init .init fun _ => trivial) ?_
  rintro d a d' hH ⟨hs, hc⟩
  exact (sound_delete.step hs hc hH).2

/-- **Requests to delete orders among the others change nothing**: the service is in a state that it reaches
without them, and they end in errors. -/
theorem undeleted {tr : List SiteLabel} (hr : Run SiteSteps (.init .init) tr d) :
    (∃ tr', Run Steps (.init World.empty) tr' d.world.service) ∧ ∀ p, d.thread p ≠ .live (.ret ()) := by
  have hH := deletes_holds hr
  refine ⟨hH.inv.reached, fun p hend => ?_⟩
  obtain ⟨e, he⟩ := hH.final hend
  cases he

/-- So it goes on from there. -/
theorem undeleted_later {tr tr' : List SiteLabel} (hr : Run SiteSteps (.init .init) tr d)
    (hr' : Run SiteSteps d tr' d') : ∃ tr'', Run Steps d.world.service tr'' d'.world.service := by
  have hinv : deleteLogic.Holds d' ∧ ∃ tr'', Run Steps d.world.service tr'' d'.world.service := by
    refine hr'.inv (fun d' => deleteLogic.Holds d' ∧ ∃ tr'', Run Steps d.world.service tr'' d'.world.service)
      ⟨deletes_holds hr, [], .nil⟩ ?_
    rintro d₁ a d₂ ⟨hH, tr'', hrun⟩ ⟨hs, hc⟩
    refine ⟨(sound_delete.step hs hc hH).2, ?_⟩
    rcases (wstep_site (p := 0) hH.inv hs.wstep.1 hc).2.2 with hsame | ⟨x, hstep⟩
    · exact ⟨tr'', hsame ▸ hrun⟩
    · exact ⟨_, hrun.snoc hstep⟩
  exact hinv.2

/-- A run of the service is a run among these requests. -/
theorem service_run {tr : List Label} (hr : Run Steps c tr c') (hd : d.world.service = c) :
    ∃ tr' d', Run SiteSteps d tr' d' ∧ d'.world = { d.world with service := c' } ∧ d'.thread = d.thread := by
  induction hr with
  | nil => exact ⟨[], d, .nil, by rw [← hd], rfl⟩
  | @snoc tr c₁ c₂ a _ hs ih =>
    obtain ⟨tr', d', hrun, hworld, hthread⟩ := ih
    have hstep : SiteSteps d' (.outer (a, c₂)) (d'.next (.outer (a, c₂)) { d'.world with service := c₂ }
        d'.thread) := by
      refine ⟨.outer, ?_⟩
      rintro x hx
      cases hx
      rw [hworld]
      exact hs
    refine ⟨_, _, hrun.snoc hstep, ?_, hthread⟩
    show ({ d'.world with service := c₂ } : Site) = _
    rw [hworld]

theorem site_total (op : DeleteOp) (s : Site) : ∃ f r s', site.exec f p op s r s' := by
  obtain ⟨f, r, y, rfl, hrun⟩ := deletions_total (p := p) op (s.session p)
  exact ⟨.done, r, s.put p y, y, hrun, rfl⟩

/-- A request to delete an order can always run to its end. -/
theorem deletion_run (q : Id × Id) (hp : d.thread p = .fresh) : ∃ tr d' r,
    Run SiteSteps d (.spawn p q :: tr) d' ∧ d'.thread p = .live (.ofExcept r) := by
  obtain ⟨cs, r, s', hrun⟩ := Runs.total (p := p) site_total (deleteOrder q.1 q.2) d.world
  have hspawn : SiteSteps d (.spawn p q) (d.next (.spawn p q) d.world
      (Function.update d.thread p (.live (deleteOrder q.1 q.2)))) :=
    ⟨.spawn hp, fun x hx => absurd hx (by simp)⟩
  have hops := (hrun.steps d.thread (d.past ++ [.spawn p q])).labelled
    (Q := fun a => ∀ x, a ≠ .outer x) fun a ha x => ?_
  · refine ⟨_, _, r, Run.cons hspawn (hops.mono ?_), by simp⟩
    rintro d₁ a d₂ ⟨hs, hno⟩
    exact ⟨hs, fun x hx => absurd hx (hno x)⟩
  · obtain ⟨call, -, rfl⟩ := List.mem_map.mp ha
    simp [Call.act]

end Requests

end PaymentRecon
