import Mathlib.Data.Prod.Lex
import Mathlib.Data.List.Nodup
import Mathlib.Order.Basic

/-!
# Stream — an append-only stream with a consumer group

Entries are numbered by pairs (time, sequence number), ordered lexicographically, and every new
entry gets a number above all earlier ones.  A consumer group delivers each entry once past its
cursor and keeps the delivered, not yet acknowledged entries in a pending list, from which a stale
one can be claimed again.
-/

namespace Streams

/-- An entry id `ms-seq`. -/
abbrev StreamId := ℕ ×ₗ ℕ

/-- The entries in id order, and the last id given out. -/
structure Stream (F : Type) where
  entries : List (StreamId × F)
  last : StreamId
  sorted : (entries.map (·.1)).Pairwise (· < ·)
  le_last : ∀ e ∈ entries, e.1 ≤ last

/-- The id `XADD *` gives at time `now`. -/
def nextId (last : StreamId) (now : ℕ) : StreamId :=
  if (ofLex last).1 < now then toLex (now, 0) else toLex ((ofLex last).1, (ofLex last).2 + 1)

theorem lt_nextId (last : StreamId) (now : ℕ) : last < nextId last now := by
  unfold nextId
  split_ifs with h
  · exact Prod.Lex.toLex_lt_toLex.mpr (Or.inl h)
  · exact Prod.Lex.toLex_lt_toLex.mpr (Or.inr ⟨rfl, Nat.lt_succ_self _⟩)

/-- A key without duplicates selects one element. -/
theorem filter_key {α β : Type} [DecidableEq β] {f : α → β} {xs : List α} {x : α}
    (hnd : (xs.map f).Nodup) (hx : x ∈ xs) : (xs.filter fun y => f y = f x) = [x] := by
  induction xs with
  | nil => exact absurd hx (by simp)
  | cons y ys ih =>
    rw [List.map_cons, List.nodup_cons] at hnd
    rcases List.mem_cons.mp hx with rfl | hx
    · rw [List.filter_cons_of_pos (by simp), List.filter_eq_nil_iff.mpr fun z hz => ?_]
      exact fun hz' => hnd.1 (of_decide_eq_true hz' ▸ List.mem_map_of_mem hz)
    · rw [List.filter_cons_of_neg, ih hnd.2 hx]
      exact fun hy => hnd.1 (of_decide_eq_true hy ▸ List.mem_map_of_mem hx)

variable {F : Type}

namespace Stream

/-- The stream of a key that does not exist. -/
def empty : Stream F := ⟨[], toLex (0, 0), List.Pairwise.nil, by simp⟩

/-- `XADD *`. -/
def xadd (s : Stream F) (now : ℕ) (f : F) : Stream F where
  entries := s.entries ++ [(nextId s.last now, f)]
  last := nextId s.last now
  sorted := by
    rw [List.map_append, List.pairwise_append]
    refine ⟨s.sorted, by simp, ?_⟩
    intro a ha b hb
    obtain ⟨e, he, rfl⟩ := List.mem_map.mp ha
    simp only [List.map_cons, List.map_nil, List.mem_singleton] at hb
    subst hb
    exact lt_of_le_of_lt (s.le_last e he) (lt_nextId _ _)
  le_last := by
    intro e he
    rcases List.mem_append.mp he with h | h
    · exact (s.le_last e h).trans (lt_nextId _ _).le
    · simp only [List.mem_singleton] at h
      subst h
      exact le_rfl

/-- `XDEL id`. -/
def xdel (s : Stream F) (id : StreamId) : Stream F where
  entries := s.entries.filter fun e => e.1 ≠ id
  last := s.last
  sorted := s.sorted.sublist (List.Sublist.map _ List.filter_sublist)
  le_last := fun e he => s.le_last e (List.mem_of_mem_filter he)

/-- The stream after `MAXLEN` evicted the `n` oldest entries. -/
def trim (s : Stream F) (n : ℕ) : Stream F where
  entries := s.entries.drop n
  last := s.last
  sorted := s.sorted.sublist (List.Sublist.map _ (List.drop_sublist _ _))
  le_last := fun e he => s.le_last e (List.mem_of_mem_drop he)

/-- The same ids, with other payloads. -/
def map {G : Type} (f : F → G) (s : Stream F) : Stream G where
  entries := s.entries.map fun e => (e.1, f e.2)
  last := s.last
  sorted := by
    rw [List.map_map]
    exact s.sorted
  le_last := by
    intro e he
    obtain ⟨x, hx, rfl⟩ := List.mem_map.mp he
    exact s.le_last x hx

theorem map_xadd {G : Type} (f : F → G) (s : Stream F) (now : ℕ) (x : F) :
    (s.xadd now x).map f = (s.map f).xadd now (f x) := by
  simp [map, xadd]

theorem map_xdel {G : Type} (f : F → G) (s : Stream F) (id : StreamId) :
    (s.xdel id).map f = (s.map f).xdel id := by
  simp [map, xdel, List.filter_map, Function.comp_def]

theorem map_trim {G : Type} (f : F → G) (s : Stream F) (n : ℕ) :
    (s.trim n).map f = (s.map f).trim n := by
  simp [map, trim]

/-- `XRANGE lo hi`. -/
def xrange (s : Stream F) (lo hi : StreamId) : List (StreamId × F) :=
  s.entries.filter fun e => lo ≤ e.1 ∧ e.1 ≤ hi

@[simp] theorem mem_xadd {s : Stream F} {now : ℕ} {f : F} {e : StreamId × F} :
    e ∈ (s.xadd now f).entries ↔ e ∈ s.entries ∨ e = (nextId s.last now, f) := by
  simp [xadd]

@[simp] theorem mem_xdel {s : Stream F} {id : StreamId} {e : StreamId × F} :
    e ∈ (s.xdel id).entries ↔ e ∈ s.entries ∧ e.1 ≠ id := by
  simp [xdel]

@[simp] theorem mem_xrange {s : Stream F} {lo hi : StreamId} {e : StreamId × F} :
    e ∈ s.xrange lo hi ↔ e ∈ s.entries ∧ lo ≤ e.1 ∧ e.1 ≤ hi := by
  simp [xrange]

/-- Ids identify entries. -/
theorem eq_of_id {s : Stream F} {e e' : StreamId × F} (he : e ∈ s.entries) (he' : e' ∈ s.entries)
    (h : e.1 = e'.1) : e = e' := by
  have hnd : (s.entries.map (·.1)).Nodup := s.sorted.imp fun h => h.ne
  exact List.inj_on_of_nodup_map hnd he he' h

/-- An id selects the entry that has it. -/
theorem filter_id {s : Stream F} {e : StreamId × F} (he : e ∈ s.entries) :
    (s.entries.filter fun x => x.1 = e.1) = [e] :=
  filter_key (s.sorted.imp fun h => h.ne) he

theorem xrange_self {s : Stream F} {id : StreamId} :
    s.xrange id id = s.entries.filter fun x => x.1 = id := by
  refine List.filter_congr fun x _ => ?_
  simp only [decide_eq_decide]
  exact ⟨fun h => le_antisymm h.2 h.1, fun h => ⟨h.ge, h.le⟩⟩

/-- Deleting an entry takes it out of the entries, and nothing else. -/
theorem perm_xdel {s : Stream F} {e : StreamId × F} (he : e ∈ s.entries) :
    s.entries.Perm (e :: (s.xdel e.1).entries) := by
  obtain ⟨l₁, l₂, hl⟩ := List.append_of_mem he
  have hsorted := s.sorted
  rw [hl, List.map_append, List.map_cons, List.pairwise_append, List.pairwise_cons] at hsorted
  have hbefore : ∀ x ∈ l₁, x.1 ≠ e.1 := fun x hx =>
    (hsorted.2.2 _ (List.mem_map_of_mem hx) _ List.mem_cons_self).ne
  have hafter : ∀ x ∈ l₂, x.1 ≠ e.1 := fun x hx => (hsorted.2.1.1 _ (List.mem_map_of_mem hx)).ne'
  have hrest : (s.xdel e.1).entries = l₁ ++ l₂ := by
    show (s.entries.filter fun x => x.1 ≠ e.1) = l₁ ++ l₂
    rw [hl, List.filter_append, List.filter_cons_of_neg (by simp),
      List.filter_eq_self.mpr (by simpa using hbefore), List.filter_eq_self.mpr (by simpa using hafter)]
  rw [hrest, hl]
  exact List.perm_middle

/-- Deleting an id that no entry has changes nothing. -/
theorem xdel_of_absent {s : Stream F} {id : StreamId} (h : ∀ e ∈ s.entries, e.1 ≠ id) :
    (s.xdel id).entries = s.entries :=
  List.filter_eq_self.mpr (by simpa using h)

end Stream

/-! ## Consumer groups -/

/-- A delivered entry that was not acknowledged: its last delivery and how many there were. -/
structure Pending where
  id : StreamId
  consumer : String
  deliveredAt : ℕ
  timesDelivered : ℕ
  deriving DecidableEq

/-- The last id delivered and the pending list, in id order. -/
structure Group where
  cursor : StreamId
  pel : List Pending

namespace Group

/-- A group created at id `0`. -/
def init : Group := ⟨toLex (0, 0), []⟩

/-- The next entries `XREADGROUP >` delivers. -/
def unread (g : Group) (s : Stream F) (count : ℕ) : List (StreamId × F) :=
  (s.entries.filter fun e => g.cursor < e.1).take count

/-- The group after `XREADGROUP >` delivered `es`. -/
def deliver (g : Group) (consumer : String) (now : ℕ) (es : List (StreamId × F)) : Group where
  cursor := (es.getLast?.map (·.1)).getD g.cursor
  pel := g.pel ++ es.map fun e => ⟨e.1, consumer, now, 1⟩

/-- `XACK id`. -/
def xack (g : Group) (id : StreamId) : Group := { g with pel := g.pel.filter fun x => x.id ≠ id }

/-- `XCLAIM consumer minIdle id`, the entries it claims. -/
def claimable (g : Group) (now minIdle : ℕ) (id : StreamId) : Prop :=
  ∃ x ∈ g.pel, x.id = id ∧ x.deliveredAt + minIdle ≤ now

instance (g : Group) (now minIdle : ℕ) (id : StreamId) : Decidable (g.claimable now minIdle id) :=
  inferInstanceAs (Decidable (∃ x ∈ g.pel, _))

/-- The group after `id` was claimed. -/
def claim (g : Group) (consumer : String) (now : ℕ) (id : StreamId) : Group :=
  { g with pel := g.pel.map fun x =>
      if x.id = id then ⟨id, consumer, now, x.timesDelivered + 1⟩ else x }

/-- The group after pending entries that the stream no longer holds were dropped. -/
def purge (g : Group) (s : Stream F) : Group :=
  { g with pel := g.pel.filter fun x => x.id ∈ s.entries.map (·.1) }

/-- The delivery counts of the pending entries with this id. -/
def deliveries (g : Group) (id : StreamId) : List ℕ :=
  (g.pel.filter fun x => x.id = id).map (·.timesDelivered)

section Deliveries

variable {g : Group} {id i : StreamId} {consumer : String} {now : ℕ}

theorem deliveries_deliver {es : List (StreamId × F)} :
    (g.deliver consumer now es).deliveries id =
      g.deliveries id ++ (es.filter fun e => e.1 = id).map fun _ => 1 := by
  simp [deliveries, deliver, List.filter_map, Function.comp_def]

theorem deliveries_xack_self : (g.xack id).deliveries id = [] := by
  simp [deliveries, xack, List.filter_filter]

theorem deliveries_xack (h : i ≠ id) : (g.xack i).deliveries id = g.deliveries id := by
  have hsel : ∀ x ∈ g.pel, (decide (x.id = id) && decide (x.id ≠ i)) = decide (x.id = id) := by
    rintro x -
    by_cases hx : x.id = id
    · simp [hx, h.symm]
    · simp [hx]
  rw [deliveries, xack, List.filter_filter, List.filter_congr hsel]
  rfl

theorem deliveries_claim_self :
    (g.claim consumer now id).deliveries id = (g.deliveries id).map (· + 1) := by
  simp only [deliveries, claim, List.filter_map, List.map_map]
  have hsel : ∀ x ∈ g.pel, ((fun x : Pending => decide (x.id = id)) ∘ fun x =>
      if x.id = id then ⟨id, consumer, now, x.timesDelivered + 1⟩ else x) x = decide (x.id = id) := by
    rintro x -
    by_cases hx : x.id = id <;> simp [hx]
  rw [List.filter_congr hsel]
  refine List.map_congr_left fun x hx => ?_
  have hid : x.id = id := by simpa using (List.mem_filter.mp hx).2
  simp [hid]

theorem deliveries_claim (h : i ≠ id) :
    (g.claim consumer now i).deliveries id = g.deliveries id := by
  simp only [deliveries, claim, List.filter_map, List.map_map]
  have hsel : ∀ x ∈ g.pel, ((fun x : Pending => decide (x.id = id)) ∘ fun x =>
      if x.id = i then ⟨i, consumer, now, x.timesDelivered + 1⟩ else x) x = decide (x.id = id) := by
    rintro x -
    by_cases hx : x.id = i
    · simp [hx]
    · simp [hx]
  rw [List.filter_congr hsel]
  refine List.map_congr_left fun x hx => ?_
  have hid : x.id = id := by simpa using (List.mem_filter.mp hx).2
  simp [hid, h.symm]

theorem deliveries_purge {s : Stream F} (h : id ∈ s.entries.map (·.1)) :
    (g.purge s).deliveries id = g.deliveries id := by
  have hsel : ∀ x ∈ g.pel, (decide (x.id = id) && decide (x.id ∈ s.entries.map (·.1))) =
      decide (x.id = id) := by
    rintro x -
    by_cases hx : x.id = id
    · simp only [hx, h, decide_true, Bool.and_self]
    · simp [hx]
  rw [deliveries, purge, List.filter_filter, List.filter_congr hsel]
  rfl

theorem deliveries_purge_nil {s : Stream F} (h : g.deliveries id = []) :
    (g.purge s).deliveries id = [] := by
  have hsub : ((g.purge s).deliveries id).Sublist (g.deliveries id) :=
    (List.filter_sublist.filter _).map _
  rw [h] at hsub
  exact List.sublist_nil.mp hsub

end Deliveries

/-- Claiming changes no id. -/
theorem map_id_claim {g : Group} {consumer : String} {now : ℕ} {id : StreamId} :
    (g.claim consumer now id).pel.map (·.id) = g.pel.map (·.id) := by
  simp only [claim, List.map_map]
  refine List.map_congr_left fun x _ => ?_
  by_cases hx : x.id = id <;> simp [hx]

/-- The entry was not delivered yet, or it was delivered and not acknowledged. -/
def Open (g : Group) (id : StreamId) : Prop := g.cursor < id ∨ ∃ x ∈ g.pel, x.id = id

theorem open_claim {g : Group} {consumer : String} {now : ℕ} {id i : StreamId} :
    (g.claim consumer now i).Open id ↔ g.Open id := by
  have key : (∃ x ∈ (g.claim consumer now i).pel, x.id = id) ↔ ∃ x ∈ g.pel, x.id = id := by
    simp only [claim, List.mem_map]
    constructor
    · rintro ⟨x, ⟨y, hy, rfl⟩, h⟩
      refine ⟨y, hy, ?_⟩
      split_ifs at h with hi
      · exact hi.trans h
      · exact h
    · rintro ⟨y, hy, h⟩
      refine ⟨_, ⟨y, hy, rfl⟩, ?_⟩
      split_ifs with hi
      · exact hi.symm.trans h
      · exact h
  exact or_congr Iff.rfl key

theorem open_xack {g : Group} {id i : StreamId} (h : g.Open id) (hne : id ≠ i) :
    (g.xack i).Open id := by
  rcases h with h | ⟨x, hx, rfl⟩
  · exact Or.inl h
  · exact Or.inr ⟨x, List.mem_filter.mpr ⟨hx, by simpa using hne⟩, rfl⟩

theorem lt_of_mem_unread {g : Group} {s : Stream F} {count : ℕ} {e : StreamId × F}
    (he : e ∈ g.unread s count) : g.cursor < e.1 := by
  simpa using (List.mem_filter.mp (List.mem_of_mem_take he)).2

theorem mem_of_mem_unread {g : Group} {s : Stream F} {count : ℕ} {e : StreamId × F}
    (he : e ∈ g.unread s count) : e ∈ s.entries :=
  (List.mem_filter.mp (List.mem_of_mem_take he)).1

/-- The cursor moves forward. -/
theorem cursor_le_deliver {g : Group} {s : Stream F} {consumer : String} {now count : ℕ} :
    g.cursor ≤ (g.deliver consumer now (g.unread s count)).cursor := by
  show g.cursor ≤ ((g.unread s count).getLast?.map (·.1)).getD g.cursor
  cases hl : (g.unread s count).getLast? with
  | none => exact le_rfl
  | some e => exact (lt_of_mem_unread (List.mem_of_getLast? hl)).le

/-- It stays within the stream. -/
theorem deliver_cursor_le {g : Group} {s : Stream F} {consumer : String} {now count : ℕ}
    (h : g.cursor ≤ s.last) : (g.deliver consumer now (g.unread s count)).cursor ≤ s.last := by
  show ((g.unread s count).getLast?.map (·.1)).getD g.cursor ≤ s.last
  cases hl : (g.unread s count).getLast? with
  | none => exact h
  | some e => exact s.le_last e (mem_of_mem_unread (List.mem_of_getLast? hl))

/-- An entry that was not read stays ahead of the cursor. -/
theorem deliver_cursor_lt {g : Group} {s : Stream F} {consumer : String} {now count : ℕ}
    {e : StreamId × F} (he : e ∈ s.entries) (h : g.cursor < e.1) (hmem : e ∉ g.unread s count) :
    (g.deliver consumer now (g.unread s count)).cursor < e.1 := by
  -- `e` comes after everything that was read
  have hf : e ∈ s.entries.filter fun e => g.cursor < e.1 :=
    List.mem_filter.mpr ⟨he, by simpa using h⟩
  have hs : ((s.entries.filter fun e => g.cursor < e.1).map (·.1)).Pairwise (· < ·) :=
    s.sorted.sublist (List.Sublist.map _ List.filter_sublist)
  rw [← List.take_append_drop count (s.entries.filter fun e => g.cursor < e.1),
    List.map_append, List.pairwise_append] at hs
  have hdrop : e ∈ (s.entries.filter fun e => g.cursor < e.1).drop count := by
    rw [← List.take_append_drop count (s.entries.filter fun e => g.cursor < e.1)] at hf
    exact (List.mem_append.mp hf).resolve_left hmem
  show ((g.unread s count).getLast?.map (·.1)).getD g.cursor < e.1
  cases hl : (g.unread s count).getLast? with
  | none => simpa using h
  | some l =>
    have hlm : l ∈ g.unread s count := List.mem_of_getLast? hl
    exact hs.2.2 _ (List.mem_map.mpr ⟨l, hlm, rfl⟩) _ (List.mem_map.mpr ⟨e, hdrop, rfl⟩)

/-- What was read lies behind the cursor. -/
theorem le_deliver_cursor {g : Group} {s : Stream F} {consumer : String} {now count : ℕ}
    {e : StreamId × F} (he : e ∈ g.unread s count) :
    e.1 ≤ (g.deliver consumer now (g.unread s count)).cursor := by
  have hs : ((g.unread s count).map (·.1)).Pairwise (· < ·) :=
    s.sorted.sublist (List.Sublist.map _ ((List.take_sublist _ _).trans List.filter_sublist))
  have hne : g.unread s count ≠ [] := List.ne_nil_of_mem he
  show e.1 ≤ ((g.unread s count).getLast?.map (·.1)).getD g.cursor
  rw [← List.dropLast_append_getLast hne] at he hs
  rw [List.getLast?_eq_some_getLast hne]
  rcases List.mem_append.mp he with he | he
  · rw [List.map_append, List.pairwise_append] at hs
    exact (hs.2.2 _ (List.mem_map_of_mem he) _ (by simp)).le
  · rw [List.mem_singleton.mp he]
    exact le_rfl

/-- Reading leaves no entry behind: what passes the cursor is pending. -/
theorem open_deliver {g : Group} {s : Stream F} {consumer : String} {now count : ℕ}
    {e : StreamId × F} (he : e ∈ s.entries) (h : g.Open e.1) :
    (g.deliver consumer now (g.unread s count)).Open e.1 := by
  rcases h with h | ⟨x, hx, hid⟩
  · by_cases hmem : e ∈ g.unread s count
    · refine Or.inr ⟨⟨e.1, consumer, now, 1⟩, ?_, rfl⟩
      exact List.mem_append_right _ (List.mem_map.mpr ⟨e, hmem, rfl⟩)
    · exact Or.inl (deliver_cursor_lt he h hmem)
  · exact Or.inr ⟨x, List.mem_append_left _ hx, hid⟩

/-- Acknowledging opens nothing. -/
theorem open_of_xack {g : Group} {id i : StreamId} (h : (g.xack i).Open id) : g.Open id := by
  rcases h with h | ⟨x, hx, hid⟩
  · exact Or.inl h
  · exact Or.inr ⟨x, (List.mem_filter.mp hx).1, hid⟩

/-- Nor does reading. -/
theorem open_of_deliver {g : Group} {s : Stream F} {consumer : String} {now count : ℕ}
    {id : StreamId} (h : (g.deliver consumer now (g.unread s count)).Open id) : g.Open id := by
  rcases h with h | ⟨x, hx, rfl⟩
  · exact Or.inl (lt_of_le_of_lt cursor_le_deliver h)
  · rcases List.mem_append.mp hx with hx | hx
    · exact Or.inr ⟨x, hx, rfl⟩
    · obtain ⟨e, he, rfl⟩ := List.mem_map.mp hx
      exact Or.inl (lt_of_mem_unread he)

/-- No entry is pending twice, and all that is pending was delivered. -/
structure Valid (g : Group) : Prop where
  nodup : (g.pel.map (·.id)).Nodup
  behind : ∀ x ∈ g.pel, x.id ≤ g.cursor

namespace Valid

theorem init : Group.init.Valid := ⟨List.nodup_nil, by simp [Group.init]⟩

variable {g : Group} {consumer : String} {now : ℕ} {id : StreamId}

theorem deliver {s : Stream F} {count : ℕ} (h : g.Valid) :
    (g.deliver consumer now (g.unread s count)).Valid := by
  have hnew : ((g.deliver consumer now (g.unread s count)).pel.map (·.id)) =
      g.pel.map (·.id) ++ (g.unread s count).map (·.1) := by
    simp [Group.deliver, Function.comp_def]
  have hs : ((g.unread s count).map (·.1)).Pairwise (· < ·) :=
    s.sorted.sublist (List.Sublist.map _ ((List.take_sublist _ _).trans List.filter_sublist))
  constructor
  · rw [hnew]
    refine h.nodup.append (hs.imp fun h => h.ne) fun i hi hi' => ?_
    obtain ⟨x, hx, rfl⟩ := List.mem_map.mp hi
    obtain ⟨e, he, hid⟩ := List.mem_map.mp hi'
    exact absurd (h.behind x hx) (not_le_of_gt (hid ▸ lt_of_mem_unread he))
  · intro x hx
    rcases List.mem_append.mp hx with hx | hx
    · exact (h.behind x hx).trans cursor_le_deliver
    · obtain ⟨e, he, rfl⟩ := List.mem_map.mp hx
      exact le_deliver_cursor he

theorem xack (h : g.Valid) : (g.xack id).Valid :=
  ⟨h.nodup.sublist (List.filter_sublist.map _), fun x hx => h.behind x (List.mem_filter.mp hx).1⟩

theorem purge {s : Stream F} (h : g.Valid) : (g.purge s).Valid :=
  ⟨h.nodup.sublist (List.filter_sublist.map _), fun x hx => h.behind x (List.mem_filter.mp hx).1⟩

theorem claim (h : g.Valid) : (g.claim consumer now id).Valid := by
  refine ⟨by rw [map_id_claim]; exact h.nodup, fun x hx => ?_⟩
  obtain ⟨y, hy, rfl⟩ := List.mem_map.mp hx
  split_ifs with hid
  · exact hid ▸ h.behind y hy
  · exact h.behind y hy

end Valid

end Group

end Streams
