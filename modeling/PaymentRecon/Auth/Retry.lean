import Mathlib.Data.Fintype.EquivFin
import PaymentRecon.Auth.Exchange
import PaymentRecon.Lib.Solo

/-!
# Retry — the answer to a request and its retry

Two requests that present the same valid token are answered the same pair when the later one asks the
cache after the earlier one has put the pair there.  In between, from the commit of the rotation to the
SET, the retry counts as a replay: it is refused, and the family is revoked.
-/

namespace PaymentRecon

open Interleave

namespace Auth

variable {s : Settings} {w w' w₀ w₁ : World} {x y z : Pid} {past base tr tr₀ : List Label}
  {c c' c₀ : State} {β : Type}

namespace Retry

variable {d : Retry w₀}

/-! ## Runs -/

/-- A step that is no operation. -/
theorem Inv.idle {gs : Pid → Stage} {a : Label} (h : d.Inv base w past gs)
    (hw : (auth s).WStep w a w') (hs : w.Same w') (hgrace : w'.grace = w.grace)
    (hr : reads d.jti a = false) (hst : stores d.jti a = false) :
    d.Inv base w' (past ++ [a]) gs := by
  obtain ⟨tr, hpast, hstanding⟩ := h.standing
  have hon := wstep_onward hw
  obtain ⟨us, hus⟩ := hon.users
  refine ⟨h.clock.trans hon.clock, by rw [← hus, List.find?_append, h.user, Option.some_or],
    List.Subset.trans h.jtis hon.jtis, ?_,
    tr ++ [a], by rw [hpast, List.append_assoc], hstanding.calm hs.tokens hgrace hr hst⟩
  intro x hx
  rw [hs.writesOf]
  exact h.writes x hx

theorem outer_grace (e : Event) : (w.outer e).grace = w.grace := by
  cases e with
  | tick n => rfl
  | register username hashedPassword =>
    simp only [World.outer]
    split_ifs <;> rfl

theorem protocol_sound (hfresh : ∀ t ∈ w₀.tokens, t.tokenHash ∈ w₀.jtis) :
    (d.protocol base).Sound (auth s) where
  spawn w past gs x request hI hg hc := by
    obtain ⟨-, ⟨hx, rfl⟩, -⟩ := hc
    refine ⟨.asking, ?_, (meets_refreshToken hfresh hx).mono fun _ _ h _ => h⟩
    rw [← show gs x = .asking from hg, Function.update_eq_self]
    exact hI.idle (s := s) (a := .spawn x _) rfl .refl rfl rfl rfl
  crash _ _ _ _ _ hc := hc.moves.elim
  outer w past gs e hI _ :=
    hI.idle (s := s) (a := .outer e) rfl (outer_same e) (outer_grace e) rfl rfl

/-- The threads that take no part stay as they are, and neither request crashes. -/
theorem threads_run {d : Retry c₀.world} (hr : Lts.Run (StepsIf s d.Moves) c₀ tr c)
    (hfresh : ∀ x, d.Asks x → c₀.thread x = .fresh) :
    (∀ y, ¬ d.Asks y → c.thread y = c₀.thread y) ∧ ∀ x, d.Asks x → c.thread x ≠ .crashed := by
  refine hr.inv (fun c => (∀ y, ¬ d.Asks y → c.thread y = c₀.thread y) ∧
    ∀ x, d.Asks x → c.thread x ≠ .crashed) ⟨fun _ _ => rfl, fun x hx => by simp [hfresh x hx]⟩ ?_
  rintro c a c' ⟨hother, hcrash⟩ ⟨hs, hmoves⟩
  refine ⟨fun y hy => ?_, fun x hx hend => ?_⟩
  · rw [← hother y hy]
    cases hs with
    | @spawn x _ _ =>
      have hne : y ≠ x := fun he => hy (he ▸ hmoves.1)
      simp [Config.next, hne]
    | @run x _ _ _ _ _ _ _ =>
      have hne : y ≠ x := fun he => hy (he ▸ hmoves.1)
      simp [Config.next, hne]
    | crash _ => exact hmoves.elim
    | outer => rfl
  · rcases hs.crashed hend with hold | rfl
    · exact hcrash x hx hold
    · exact hmoves.elim

section

variable {d : Retry c₀.world}

/-- The invariant holds when the requests begin. -/
theorem holds_start (h₁ : w₁.Unused) (hr₀ : Lts.Run (Steps s) (.init w₁) tr₀ c₀) (hquiet : c₀.Quiet)
    (hfresh : ∀ x, d.Asks x → c₀.thread x = .fresh) :
    (d.protocol c₀.past).Holds (auth s) c₀ := by
  have hnone : c₀.world.grace d.jti = none := by
    have := (tidy_run h₁ hr₀).live_uncached (run_holds h₁.toBlank hr₀).inv d.mem d.live
    rwa [d.hash] at this
  refine ⟨fun _ => .asking, ⟨le_rfl, d.found, List.Subset.refl _, fun x _ => ?_, [], by simp, ?_⟩, ?_⟩
  · exact resting_writes h₁.toBlank hr₀ (hquiet x)
  · exact .unspent rfl hnone (by simp) atEach_nil fun _ _ => Or.inl rfl
  · intro x
    cases ht : c₀.thread x with
    | fresh => rfl
    | crashed => trivial
    | live y =>
      have hno : ¬ d.Asks x := fun hx => by simp [hfresh x hx] at ht
      cases y with
      | ret pair => exact fun hx => absurd hx hno
      | raise e => exact fun hx => absurd hx hno
      | call op k =>
        refine absurd ?_ (hquiet x)
        rw [ht]
        trivial

/-- The invariant holds all along. -/
theorem holds_retry (h₁ : w₁.Unused) (hr₀ : Lts.Run (Steps s) (.init w₁) tr₀ c₀) (hquiet : c₀.Quiet)
    (hfresh : ∀ x, d.Asks x → c₀.thread x = .fresh) (hr : Lts.Run (StepsIf s d.Moves) c₀ tr c)
    (htime : d.InTime c.world.clock) : (d.protocol c₀.past).Holds (auth s) c := by
  have htimely := ((known_run h₁.toBlank hr₀ hr).backward (fun c => d.InTime c.world.clock) htime
    fun c a c' hs ht => ht.earlier (wstep_onward hs.1.wstep.1).clock).2
  refine (protocol_sound ?_).run (htimely.mono ?_) (holds_start h₁ hr₀ hquiet hfresh)
  · exact fun t ht => (tidy_run h₁ hr₀).generated t (List.mem_append_left _ ht)
  · rintro c a c' ⟨⟨hs, hknown, hmoves⟩, ht⟩
    exact ⟨hs, hknown, hmoves, ht⟩

end

/-! ## Coming to an end -/

/-- Only the session `x` holds locks and wrote. -/
structure Solo (x : Pid) (w : World) : Prop where
  locks : Unlocked x w
  writes : ∀ l ∈ w.writes, l.1 = x

theorem Solo.run (h : Solo x w) {op : Op} {r : Except Exc op.Ret} (hop : op.run x w r w') :
    Solo x w' := by
  have hadd : ∀ {κ : Type} {l : List (Pid × κ)} {k : κ}, (∀ i ∈ l, i.1 = x) →
      ∀ i ∈ l ++ [(x, k)], i.1 = x := by
    intro κ l k hl i hi
    rcases List.mem_append.mp hi with hi | hi
    · exact hl i hi
    · rw [List.mem_singleton.mp hi]
  have hended : Solo x (w.rollback x) :=
    ⟨fun i hi => h.locks i (List.mem_of_mem_filter hi), fun i hi => h.writes i (List.mem_of_mem_filter hi)⟩
  cases run_effect hop with
  | quiet _ hs => exact ⟨fun i hi => h.locks i (hs.locks ▸ hi), fun i hi => h.writes i (hs.writes ▸ hi)⟩
  | took sel id _ _ => exact ⟨hadd h.locks, hadd h.writes⟩
  | inserted _ _ _ _ _ _ _ => exact ⟨h.locks, hadd h.writes⟩
  | committed => exact ⟨hended.locks, hended.writes⟩
  | rolledBack => exact hended
  | closed => exact hended
  | _ => exact ⟨h.locks, h.writes⟩

/-- A session that is not disturbed does not wait. -/
theorem Solo.exists (h : Solo x w) (op : Op) : ∃ r w', op.run x w r w' := by
  by_cases hready : op.Ready
  · obtain ⟨r, w', hrun, -⟩ := run_exists hready h.locks
    exact ⟨r, w', hrun⟩
  · cases op with
    | newJti =>
      obtain ⟨jti, hnew⟩ := Infinite.exists_notMem_finset w.jtis.toFinset
      exact ⟨_, _, jti, by simpa using hnew, rfl, rfl⟩
    | insertToken userId jti expiresAt familyId =>
      have hbusy : ¬ w.HashBusy x jti := by
        rintro ⟨l, hl, hne, -⟩
        exact hne (h.writes l hl)
      by_cases hok : w.Refuses x userId jti
      · exact ⟨_, _, hbusy, (if_pos hok).mpr ⟨rfl, rfl⟩⟩
      · have hfamily : ∃ f, familyId = some f ∨ familyId = none ∧ w.FreshFamily f := by
          cases familyId with
          | some f => exact ⟨f, Or.inl rfl⟩
          | none =>
            obtain ⟨f, hf⟩ := Infinite.exists_notMem_finset (w.rows.map (·.familyId)).toFinset
            refine ⟨f, Or.inr ⟨rfl, fun t ht heq => hf ?_⟩⟩
            exact List.mem_toFinset.mpr (List.mem_map.mpr ⟨t, ht, heq⟩)
        obtain ⟨f, hf⟩ := hfamily
        exact ⟨_, _, hbusy, (if_neg hok).mpr ⟨f, hf, rfl, rfl⟩⟩
    | _ => exact absurd trivial hready

/-- It comes to the end of its program. -/
theorem Solo.may (h : Solo x w) (hx : d.Asks x) (y : App β) : May (auth s) d.Moves x y
    (fun _ w' _ => w'.clock = w.clock) w past := by
  suffices hsuff : ∀ v, Solo x v → v.clock = w.clock →
      May (auth s) d.Moves x y (fun _ w' _ => w'.clock = w.clock) v past from hsuff w h rfl
  induction y generalizing past with
  | ret b => exact fun _ _ hv => hv
  | raise e => exact fun _ _ hv => hv
  | call op k ih =>
    intro v hsolo hv
    obtain ⟨r, v', hrun⟩ := hsolo.exists op
    exact ⟨.done, r, v', hrun, ⟨hx, rfl⟩, ih r v' (hsolo.run hrun) ((run_frame hrun).clock.trans hv)⟩

/-- Every lock belongs to the only session that wrote. -/
theorem solo_of_writes (ht : w.Tidy) (h : ∀ y, y ≠ x → w.writesOf y = []) : Solo x w := by
  have hown : ∀ y wr, wr ∈ w.writesOf y → y = x := by
    intro y wr hw
    by_contra hne
    rw [h y hne] at hw
    exact absurd hw (by simp)
  exact ⟨fun l hl => hown l.1 _ (ht.locks l hl), fun l hl => hown l.1 l.2 (World.mem_writesOf.mpr hl)⟩

/-- The thread has come to its end. -/
def Ended (c : State) (x : Pid) : Prop := ∃ r, c.thread x = .live (.ofExcept r)

theorem Ended.resting (h : Ended c x) : ¬ (c.thread x).Running := by
  obtain ⟨r, hr⟩ := h
  rw [hr]
  cases r <;> exact fun h => h

theorem Solo.ends (h : Solo x c.world) (hx : d.Asks x) (hcrash : c.thread x ≠ .crashed) :
    ∃ tr c', Lts.Run (StepsIf s d.Moves) c tr c' ∧ c'.world.clock = c.world.clock ∧ Ended c' x ∧
      ∀ y, y ≠ x → c'.thread y = c.thread y := by
  cases ht : c.thread x with
  | crashed => exact absurd ht hcrash
  | fresh =>
    have hmay : May (auth s) d.Moves x ((auth s).prog (.refresh (some (.signed d.payload))))
        (fun _ w' _ => w'.clock = c.world.clock) c.world
        (c.past ++ [.spawn x (.refresh (some (.signed d.payload)))]) := h.may hx _
    obtain ⟨tr, r, w', hclock, -, hrun⟩ := May.spawn ht ⟨hx, rfl⟩ hmay
    exact ⟨tr, _, hrun, hclock, ⟨r, by simp⟩, fun y hy => by simp [hy]⟩
  | live y =>
    have hc : c = ⟨c.world, Function.update c.thread x (.live y), c.past⟩ := by
      rw [← ht, Function.update_eq_self]
    have hmay : May (auth s) d.Moves x y (fun _ w' _ => w'.clock = c.world.clock) c.world c.past :=
      h.may hx y
    obtain ⟨tr, r, w', hclock, -, hrun⟩ := hmay.run c.thread
    rw [← hc] at hrun
    exact ⟨tr, _, hrun, hclock, ⟨r, by simp⟩, fun y hy => by simp [hy]⟩

/-- One of the two requests has written nothing. -/
theorem Inv.one_writes {gs : Pid → Stage} (h : d.Inv base w past gs) (hL : Lineage w past) :
    ∃ x y, d.Rivals x y ∧ w.writesOf y = [] := by
  have hwrites : ∀ y g, d.Asks y → gs y = g → g.Writes d.record (w.writesOf y) := by
    rintro y g hy rfl
    exact h.writes y hy
  obtain ⟨tr, -, hst⟩ := h.standing
  cases hst with
  | unspent tokens uncached unstored sheltered stages =>
    -- two sessions do not hold one row
    have hrevoke : ∀ y, d.Asks y → w.writesOf y = [] ∨ .revoke d.record.id ∈ w.writesOf y := by
      intro y hy
      rcases stages y hy with hs | hs | ⟨n, -, hs⟩
      · exact Or.inl (hwrites y _ hy hs)
      · exact Or.inr (by rw [show w.writesOf y = _ from hwrites y _ hy hs]; simp)
      · exact Or.inr (by rw [show w.writesOf y = _ from hwrites y _ hy hs]; simp)
    rcases hrevoke d.q (Or.inr rfl) with hq | hq
    · exact ⟨d.p, d.q, Or.inl ⟨rfl, rfl⟩, hq⟩
    · rcases hrevoke d.p (Or.inl rfl) with hp | hp
      · exact ⟨d.q, d.p, Or.inr ⟨rfl, rfl⟩, hp⟩
      · exact absurd (hL.revoke_unique hp hq) d.apart
  | @spent x y _ rivals _ winner => exact ⟨y, x, rivals.symm, hwrites x _ rivals.asks.1 winner⟩
  | @cached x y _ _ _ rivals _ winner => exact ⟨y, x, rivals.symm, hwrites x _ rivals.asks.1 winner⟩
  | @lost x y rivals winner =>
    rcases winner with ⟨n, winner⟩ | ⟨n, pair, winner⟩
    · exact ⟨y, x, rivals.symm, hwrites x _ rivals.asks.1 winner⟩
    · exact ⟨y, x, rivals.symm, hwrites x _ rivals.asks.1 winner⟩

section

variable {d : Retry c₀.world}

/-- **Both requests can come to their end** from wherever they are. -/
theorem both_end (h₁ : w₁.Unused) (hr₀ : Lts.Run (Steps s) (.init w₁) tr₀ c₀) (hquiet : c₀.Quiet)
    (hfresh : ∀ x, d.Asks x → c₀.thread x = .fresh) (hr : Lts.Run (StepsIf s d.Moves) c₀ tr c)
    (htime : d.InTime c.world.clock) : ∃ tr' c', Lts.Run (StepsIf s d.Moves) c tr' c' ∧
      c'.world.clock = c.world.clock ∧ Ended c' d.p ∧ Ended c' d.q := by
  obtain ⟨gs, hI, -⟩ := holds_retry h₁ hr₀ hquiet hfresh hr htime
  have hwhole : Lts.Run (Steps s) (.init w₁) (tr₀ ++ tr) c := hr₀.append hr.of_restrict
  obtain ⟨x, y, hrivals, hy⟩ := hI.one_writes (run_holds h₁.toBlank hwhole).inv
  obtain ⟨hother, hcrash⟩ := threads_run hr hfresh
  have hrest : ∀ z, ¬ d.Asks z → ¬ (c.thread z).Running := by
    intro z hz
    rw [hother z hz]
    exact hquiet z
  have hsolo : Solo x c.world := by
    refine solo_of_writes (tidy_run h₁ hwhole) fun z hzx => ?_
    by_cases hz : d.Asks z
    · obtain rfl := (hrivals.cases hz).resolve_left hzx
      exact hy
    · exact resting_writes h₁.toBlank hwhole (hrest z hz)
  obtain ⟨tr₁, c₁, hr₁, hclock₁, hend₁, hthread₁⟩ := hsolo.ends hrivals.asks.1 (hcrash x hrivals.asks.1)
  have hwhole₁ := hwhole.append hr₁.of_restrict
  -- the first one has ended, so that the second one is not disturbed either
  have hsolo₁ : Solo y c₁.world := by
    refine solo_of_writes (tidy_run h₁ hwhole₁) fun z hzy => ?_
    refine resting_writes h₁.toBlank hwhole₁ ?_
    by_cases hz : d.Asks z
    · obtain rfl := (hrivals.cases hz).resolve_right hzy
      exact hend₁.resting
    · rw [hthread₁ z fun he => hz (he ▸ hrivals.asks.1)]
      exact hrest z hz
  have hcrash₁ : c₁.thread y ≠ .crashed := by
    rw [hthread₁ y hrivals.ne.symm]
    exact hcrash y hrivals.asks.2
  obtain ⟨tr₂, c₂, hr₂, hclock₂, hend₂, hthread₂⟩ := hsolo₁.ends hrivals.asks.2 hcrash₁
  have hend₁' : Ended c₂ x := by
    obtain ⟨r, hr⟩ := hend₁
    exact ⟨r, by rw [hthread₂ x hrivals.ne, hr]⟩
  refine ⟨tr₁ ++ tr₂, c₂, hr₁.append hr₂, hclock₂.trans hclock₁, ?_⟩
  rcases hrivals with ⟨rfl, rfl⟩ | ⟨rfl, rfl⟩
  · exact ⟨hend₁', hend₂⟩
  · exact ⟨hend₂, hend₁'⟩

end

/-! ## The answers -/

/-- A request that has come to its end has the pair, or asked the cache too early. -/
theorem Outcome.cases {r : Except Exc TokenResponse} {g : Stage} (h : Outcome r g) :
    (∃ n pair, g = .shared n pair ∧ r = .ok pair) ∨
      (∃ pair, g = .answered (some pair) ∧ r = .ok pair) ∨ g = .answered none ∧ ∃ e, r = .error e := by
  cases r with
  | ok pair =>
    rcases h with ⟨n, hg⟩ | hg
    · exact Or.inl ⟨n, pair, hg, rfl⟩
    · exact Or.inr (Or.inl ⟨pair, hg, rfl⟩)
  | error e => exact Or.inr (Or.inr ⟨h, e, rfl⟩)

/-- A request that is still at one of these stages has no answer. -/
theorem Outcome.ended {r : Except Exc TokenResponse} {g : Stage} (h : Outcome r g) :
    g ≠ .asking ∧ g ≠ .refused ∧ g ≠ .holding ∧ (∀ n, g ≠ .grown n) ∧ ∀ n, g ≠ .won n := by
  rcases h.cases with ⟨n, pair, rfl, -⟩ | ⟨pair, rfl, -⟩ | ⟨rfl, -⟩ <;> simp

theorem outcome_shared {r : Except Exc TokenResponse} {n : RefreshToken} {pair : TokenResponse}
    (h : Outcome r (.shared n pair)) : r = .ok pair := by
  rcases h.cases with ⟨n', pair', hg, rfl⟩ | ⟨pair', hg, -⟩ | ⟨hg, -⟩
  · rw [(Stage.shared.inj hg).2]
  · exact absurd hg (by simp)
  · exact absurd hg (by simp)

theorem outcome_answered {r : Except Exc TokenResponse} {pair : TokenResponse}
    (h : Outcome r (.answered (some pair))) : r = .ok pair := by
  rcases h.cases with ⟨n', pair', hg, -⟩ | ⟨pair', hg, rfl⟩ | ⟨hg, -⟩
  · exact absurd hg (by simp)
  · rw [Option.some.inj (Stage.answered.inj hg)]
  · exact absurd hg (by simp)

/-- When both requests have come to their end, they have one pair exactly when the cache was asked in
time. -/
theorem Standing.outcome {gs : Pid → Stage} {rx ry : Except Exc TokenResponse}
    (h : d.Standing w tr gs) (hp : Outcome rx (gs d.p)) (hq : Outcome ry (gs d.q)) :
    ((∃ pair, rx = .ok pair ∧ ry = .ok pair) ∧ ∃ n ∈ w.tokens, d.Heir n) ↔ Sheltered d.jti tr := by
  -- the answers of the two, whichever comes first
  have hboth : ∀ {x y}, d.Rivals x y → ∃ r r', Outcome r (gs x) ∧ Outcome r' (gs y) ∧
      ((∃ pair, rx = .ok pair ∧ ry = .ok pair) ↔ ∃ pair, r = .ok pair ∧ r' = .ok pair) := by
    rintro x y (⟨rfl, rfl⟩ | ⟨rfl, rfl⟩)
    · exact ⟨rx, ry, hp, hq, Iff.rfl⟩
    · exact ⟨ry, rx, hq, hp, exists_congr fun _ => and_comm⟩
  cases h with
  | unspent tokens uncached unstored sheltered stages =>
    obtain ⟨h₁, -, h₂, h₃, -⟩ := hp.ended
    rcases stages d.p (Or.inl rfl) with hs | hs | ⟨n, -, hs⟩
    · exact absurd hs h₁
    · exact absurd hs h₂
    · exact absurd hs (h₃ n)
  | spent rivals heir winner =>
    obtain ⟨r, r', hr, -, -⟩ := hboth rivals
    exact absurd winner (hr.ended.2.2.2.2 _)
  | @cached _ _ n pair _ rivals heir winner loser revoked successor entry late stored sheltered =>
    refine iff_of_true ?_ sheltered
    obtain ⟨r, r', hr, hr', hpair⟩ := hboth rivals
    refine ⟨hpair.mpr ⟨pair, outcome_shared (winner ▸ hr), ?_⟩, n, successor, heir⟩
    rcases loser with hs | hs | hs
    · exact absurd hs hr'.ended.1
    · exact absurd hs hr'.ended.2.1
    · exact outcome_answered (hs ▸ hr')
  | lost rivals winner loser exposed =>
    refine iff_of_false ?_ exposed
    rintro ⟨hsame, -⟩
    obtain ⟨r, r', hr, hr', hpair⟩ := hboth rivals
    obtain ⟨pair, -, rfl⟩ := hpair.mp hsame
    rcases hr' with ⟨n, hs⟩ | hs <;> exact absurd (loser.symm.trans hs) (by simp)

end Retry

/-! ## Schedules -/

/-- The first token of the user `u`. -/
def firstToken : RefreshToken := ⟨1, 1, "j", defaults.refreshDelta, false, 1⟩

def firstUser : User := ⟨1, some "u", some "h"⟩

/-- The user is logged in, and the threads 1 and 2 were not started. -/
structure LoggedIn (c : State) : Prop where
  tokens : c.world.tokens = [firstToken]
  users : c.world.users = [firstUser]
  clock : c.world.clock = 0
  one : c.thread 1 = .fresh
  two : c.thread 2 = .fresh

/-- The threads 1 and 2 present the token. -/
def LoggedIn.retry (h : LoggedIn c) : Retry c.world where
  p := 1
  q := 2
  apart := by decide
  payload := ⟨some "refresh", some "j", some "u", some (defaults.refreshDelta / second)⟩
  jti := "j"
  sub := "u"
  type := rfl
  presents := rfl
  subject := rfl
  record := firstToken
  mem := by simp [h.tokens]
  live := rfl
  hash := rfl
  user := firstUser
  found := by
    rw [h.users]
    rfl
  owner := rfl

def isFresh (c : State) (p : Pid) : Bool :=
  match c.thread p with
  | .fresh => true
  | _ => false

theorem eq_of_isFresh (h : isFresh c x = true) : c.thread x = .fresh := by
  unfold isFresh at h
  split at h
  · assumption
  · exact absurd h (by simp)

/-- A step of the threads 1 and 2 without a failure. -/
def takesPart : Label → Bool
  | .spawn x (.refresh token) => (x = 1 || x = 2) && token = some (issued defaults "j")
  | .run x .done _ _ => x = 1 || x = 2
  | _ => false

theorem moves_of_takesPart (h : LoggedIn c₀) {a : Label} (ha : takesPart a = true) :
    h.retry.Moves w past a w' := by
  unfold takesPart at ha
  split at ha
  · rename_i x token
    simp only [Bool.and_eq_true, Bool.or_eq_true, decide_eq_true_eq] at ha
    obtain ⟨hx, rfl⟩ := ha
    exact ⟨hx, rfl⟩
  · rename_i x op r
    simp only [Bool.or_eq_true, decide_eq_true_eq] at ha
    exact ⟨ha, rfl⟩
  · exact absurd ha (by simp)

namespace Script

/-- The two requests are under way: the thread 1 is about to commit, and the thread 2 has found the row
of the token. -/
def underWay : List (Move Request Event) :=
  [.spawn 1 (.refresh (some (issued defaults "j"))), .spawn 2 (.refresh (some (issued defaults "j"))),
    .go 1 10, .go 2 3]

end Script

/-- After the login the moves lead to a configuration that passes the test. -/
def afterLogin (ms : List (Move Request Event)) (test : State → Bool) : Bool :=
  ((player defaults).serve [.outer (.register "u" "h"), .request 0 (.login "u" "x") 9]
    (.init World.empty)).any fun c₀ =>
      (decide (c₀.world.tokens = [firstToken] ∧ c₀.world.users = [firstUser] ∧ c₀.world.clock = 0) &&
        (isFresh c₀ 1 && isFresh c₀ 2)) &&
      ((player defaults).play ms c₀).any fun c =>
        (decide (c.world.clock = 0) && (c.past.drop c₀.past.length).all takesPart) && test c

theorem afterLogin_run {ms : List (Move Request Event)} {test : State → Bool}
    (h : afterLogin ms test = true) : ∃ (tr₀ : List Label) (c₀ : State) (hin : LoggedIn c₀)
      (tr : List Label) (c : State), Lts.Run (Steps defaults) (.init World.empty) tr₀ c₀ ∧ c₀.Quiet ∧
        Lts.Run (StepsIf defaults hin.retry.Moves) c₀ tr c ∧ hin.retry.InTime c.world.clock ∧
        test c = true := by
  obtain ⟨c₀, hserve, h⟩ := (Option.any_eq_true _ _).mp h
  obtain ⟨hin, h⟩ := Bool.and_eq_true_iff.mp h
  obtain ⟨hdata, hthreads⟩ := Bool.and_eq_true_iff.mp hin
  obtain ⟨htokens, husers, hclock₀⟩ := of_decide_eq_true hdata
  obtain ⟨hfirst, hsecond⟩ := Bool.and_eq_true_iff.mp hthreads
  obtain ⟨c, hplay, h⟩ := (Option.any_eq_true _ _).mp h
  obtain ⟨hmoves, htest⟩ := Bool.and_eq_true_iff.mp h
  obtain ⟨hclock, hlabels⟩ := Bool.and_eq_true_iff.mp hmoves
  obtain ⟨hquiet, tr₀, hr₀⟩ := Player.serve_run quiet_init hserve
  obtain ⟨tr, hr⟩ := Player.play_run hplay
  have hlogged : LoggedIn c₀ :=
    ⟨htokens, husers, hclock₀, eq_of_isFresh hfirst, eq_of_isFresh hsecond⟩
  rw [run_past hr.of_restrict, List.drop_left] at hlabels
  refine ⟨tr₀, c₀, hlogged, tr, c, hr₀.of_restrict, hquiet, ?_, ?_, htest⟩
  · refine (hr.of_restrict.labelled (List.all_eq_true.mp hlabels)).mono fun c a c' hs => ?_
    exact ⟨hs.1, moves_of_takesPart hlogged hs.2⟩
  · rw [of_decide_eq_true hclock]
    refine ⟨?_, show 0 < firstToken.expiresAt by decide, ?_⟩
    · rw [hclock₀]
      decide
    · show ¬ (Payload.mk (some "refresh") (some "j") (some "u")
        (some (defaults.refreshDelta / second))).Expired 0
      decide

/-- The two threads answered the same pair. -/
def sameAnswer (c : State) : Bool :=
  match c.thread 1, c.thread 2 with
  | .live (.ret pair), .live (.ret pair') => pair = pair'
  | _, _ => false

/-- The retry is refused, and no row of the family is live. -/
def loggedOut (c : State) : Bool :=
  match c.thread 1, c.thread 2 with
  | .live (.ret _), .live (.raise _) => c.world.tokens.all fun t => t.isRevoked
  | _, _ => false

/-! ## The result -/

section

variable {d : Retry c₀.world}

/-- **A retry gets the same pair.**  Two requests present a valid token when no other request is in
flight, and everything happens within 30 seconds and without a failure.  From wherever they are both can
come to their end; and when they have, they answered the same pair and the family is not revoked if and
only if the cache was asked only after it was given the pair. -/
theorem retry_sheltered (h₁ : w₁.Unused) (hr₀ : Lts.Run (Steps s) (.init w₁) tr₀ c₀)
    (hquiet : c₀.Quiet) (hp : c₀.thread d.p = .fresh) (hq : c₀.thread d.q = .fresh)
    (hr : Lts.Run (StepsIf s d.Moves) c₀ tr c) (htime : d.InTime c.world.clock) :
    (∃ tr' c', Lts.Run (StepsIf s d.Moves) c tr' c' ∧ c'.world.clock = c.world.clock ∧
        Retry.Ended c' d.p ∧ Retry.Ended c' d.q) ∧
      ∀ rp rq, c.thread d.p = .live (.ofExcept rp) → c.thread d.q = .live (.ofExcept rq) →
        (((∃ pair, rp = .ok pair ∧ rq = .ok pair) ∧ ∃ n ∈ c.world.tokens,
          n.familyId = d.record.familyId ∧ n.isRevoked = false) ↔ Sheltered d.jti tr) := by
  have hfresh : ∀ x, d.Asks x → c₀.thread x = .fresh := by
    rintro x (rfl | rfl)
    · exact hp
    · exact hq
  refine ⟨Retry.both_end h₁ hr₀ hquiet hfresh hr htime, fun rp rq hrp hrq => ?_⟩
  obtain ⟨gs, hI, hfits⟩ := Retry.holds_retry h₁ hr₀ hquiet hfresh hr htime
  have houtcome : ∀ x r, d.Asks x → c.thread x = .live (.ofExcept r) → Retry.Outcome r (gs x) := by
    intro x r hx hxr
    have hfit := hfits x
    rw [hxr] at hfit
    cases r with
    | ok pair => exact hfit.final_ok hx
    | error e => exact hfit.final_error hx
  obtain ⟨tr', hpast, hst⟩ := hI.standing
  obtain rfl : tr = tr' := List.append_cancel_left ((run_past hr.of_restrict).symm.trans hpast)
  exact hst.outcome (houtcome d.p rp (Or.inl rfl) hrp) (houtcome d.q rq (Or.inr rfl) hrq)

end

/-- The thread 2 asks the cache after the thread 1 has put the pair there. -/
theorem retry_sheltered_sample : ∃ (c₀ : State) (hin : LoggedIn c₀) (tr : List Label) (c : State)
    (pair : TokenResponse), Lts.Run (StepsIf defaults hin.retry.Moves) c₀ tr c ∧
      c.thread 1 = .live (.ret pair) ∧ c.thread 2 = .live (.ret pair) ∧ Sheltered "j" tr := by
  obtain ⟨tr₀, c₀, hin, tr, c, hr₀, hquiet, hr, htime, htest⟩ := afterLogin_run
    (by decide +kernel : afterLogin (Script.underWay ++ [.go 1 4, .go 2 4]) (fun c => sameAnswer c &&
      c.world.tokens.any fun t => t.familyId = 1 && !t.isRevoked) = true)
  obtain ⟨hsame, hlive⟩ := Bool.and_eq_true_iff.mp htest
  obtain ⟨n, hn, htest⟩ := List.any_eq_true.mp hlive
  obtain ⟨hf, hrev⟩ := Bool.and_eq_true_iff.mp htest
  unfold sameAnswer at hsame
  split at hsame
  · rename_i pair pair' h₁ h₂
    obtain rfl : pair = pair' := of_decide_eq_true hsame
    have hiff := (retry_sheltered ⟨blank_empty, fun _ => rfl⟩ hr₀ hquiet hin.one hin.two hr
      htime).2 (.ok pair) (.ok pair) h₁ h₂
    refine ⟨c₀, hin, tr, c, pair, hr, h₁, h₂, hiff.mp ⟨⟨pair, rfl, rfl⟩, n, hn, ?_, ?_⟩⟩
    · exact of_decide_eq_true hf
    · simpa using hrev
  · exact absurd hsame (by simp)

/-- The thread 2 asks the cache between the commit of the thread 1 and its SET. -/
theorem retry_logged_out : ¬ ∀ (s : Settings) (w₁ : World) (tr₀ : List Label) (c₀ : State)
    (d : Retry c₀.world) (tr : List Label) (c : State) (rp rq : Except Exc TokenResponse), w₁.Unused →
      Lts.Run (Steps s) (.init w₁) tr₀ c₀ → c₀.Quiet → c₀.thread d.p = .fresh →
        c₀.thread d.q = .fresh → Lts.Run (StepsIf s d.Moves) c₀ tr c → d.InTime c.world.clock →
          c.thread d.p = .live (.ofExcept rp) → c.thread d.q = .live (.ofExcept rq) →
            (∃ pair, rp = .ok pair ∧ rq = .ok pair) ∧ ∃ n ∈ c.world.tokens,
              n.familyId = d.record.familyId ∧ n.isRevoked = false := by
  intro h
  obtain ⟨tr₀, c₀, hin, tr, c, hr₀, hquiet, hr, htime, htest⟩ := afterLogin_run
    (by decide +kernel : afterLogin (Script.underWay ++ [.go 1 1, .go 2 9, .go 1 3]) loggedOut = true)
  unfold loggedOut at htest
  split at htest
  · rename_i pair e h₁ h₂
    obtain ⟨-, n, hn, -, hrev⟩ := h defaults World.empty tr₀ c₀ hin.retry tr c (.ok pair) (.error e)
      ⟨blank_empty, fun _ => rfl⟩ hr₀ hquiet hin.one hin.two hr htime h₁ h₂
    have hdead := List.all_eq_true.mp htest n hn
    exact absurd (hrev.symm.trans hdead) (by simp)
  · exact absurd htest (by simp)

end Auth

end PaymentRecon
