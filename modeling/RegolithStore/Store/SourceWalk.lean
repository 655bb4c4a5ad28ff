import RegolithStore.Store.ReadOrder
import RegolithStore.Store.View

/-! The walk of a view's sources for one key (`source_walk.rs`): the active memtable, the
frozen ones from the newest back, the L0 tables from the newest back, then the covering
tables of each deeper level. Where the sources are in the order a store keeps, a walk that
looks at a key's entries one by one is one fold over the key's visible versions, under the
newest range tombstone over the key. -/

namespace RegolithStore

open Lib List

theorem Seq.pos_of_lt {a b : Seq} (h : a < b) : 0 < b := (OrderBot.bot_le a).trans_lt h

/-- `covering_range_tombstone_seq`; the sorted prefix a memtable keeps of its log only
shortens the scan. -/
def MemTable.coveringRangeTombstoneSeq (m : MemTable) (k : Key) (r : Seq) : Seq :=
  m.rangeTombstones.foldl (fun best t => if t.seq ≤ r ∧ t.Covers k then max best t.seq else best) 0

inductive Source
  | memtable (m : MemTable)
  | table (f : LiveSst)

variable {e : Entry}

namespace Source

def entries : Source → List Entry
  | memtable m => m.entries
  | table f => f.reader.entries

def tombstones : Source → List RangeTombstone
  | memtable m => m.rangeTombstones
  | table f => f.tombstones

def entriesOf (s : Source) (k : Key) : List Entry :=
  s.entries.filter fun e => decide (e.userKey = k)

/-- What `scan_key` visits at `r`. -/
def visible (s : Source) (k : Key) (r : Seq) : List Entry :=
  (s.entriesOf k).filter fun e => decide (e.seq ≤ r)

def coveringRangeTombstoneSeq : Source → Key → Seq → Seq
  | memtable m => m.coveringRangeTombstoneSeq
  | table f => f.coveringSeq

variable {s : Source} {k : Key} {r q : Seq}

theorem mem_entriesOf : e ∈ s.entriesOf k ↔ e ∈ s.entries ∧ e.userKey = k := by
  simp [entriesOf]

theorem mem_visible : e ∈ s.visible k r ↔ e ∈ s.entries ∧ e.userKey = k ∧ e.seq ≤ r := by
  simp [visible, mem_entriesOf, and_assoc]

private theorem coveringRangeTombstoneSeq_memtable (m : MemTable) :
    m.coveringRangeTombstoneSeq k r = raise RangeTombstone.seq 0
      (m.rangeTombstones.filter fun t => decide (t.seq ≤ r ∧ t.Covers k)) := by
  simp only [MemTable.coveringRangeTombstoneSeq, raise, foldl_filter, decide_eq_true_eq]

theorem lt_coveringRangeTombstoneSeq : q < s.coveringRangeTombstoneSeq k r ↔
    ∃ t ∈ s.tombstones, t.seq ≤ r ∧ t.Covers k ∧ q < t.seq := by
  cases s with
  | memtable m =>
    rw [coveringRangeTombstoneSeq, coveringRangeTombstoneSeq_memtable, lt_raise,
      or_iff_right (show ¬ q < 0 from not_lt_bot)]
    simp [tombstones, and_assoc]
  | table f => exact RangeTombstoneSet.lt_maxCoveringSeq

theorem coveringRangeTombstoneSeq_le : s.coveringRangeTombstoneSeq k r ≤ q ↔
    ∀ t ∈ s.tombstones, t.seq ≤ r → t.Covers k → t.seq ≤ q := by
  rw [← not_lt, lt_coveringRangeTombstoneSeq]
  simp

theorem coveringRangeTombstoneSeq_lt : s.coveringRangeTombstoneSeq k r < q ↔
    0 < q ∧ ∀ t ∈ s.tombstones, t.seq ≤ r → t.Covers k → t.seq < q := by
  cases s with
  | memtable m =>
    rw [coveringRangeTombstoneSeq, coveringRangeTombstoneSeq_memtable, raise_lt]
    simp [tombstones]
  | table f => exact RangeTombstoneSet.maxCoveringSeq_lt

def Holds (s : Source) (k : Key) : Prop :=
  (∃ e ∈ s.entries, e.userKey = k) ∨ ∃ t ∈ s.tombstones, t.Covers k

/-- What `s` says of a key is newer than what `u` says of it. -/
def Newer (s u : Source) : Prop :=
  ∀ e ∈ s.entries, (∀ e' ∈ u.entries, e'.userKey = e.userKey → e'.seq < e.seq) ∧
    ∀ t ∈ u.tombstones, t.Covers e.userKey → t.seq < e.seq

instance (s u : Source) : Decidable (s.Newer u) :=
  inferInstanceAs (Decidable (∀ e ∈ s.entries, _ ∧ _))

theorem visible_eq_nil (h : ¬ s.Holds k) : s.visible k r = [] :=
  eq_nil_iff_forall_not_mem.mpr fun e he =>
    h (.inl ⟨e, (mem_visible.mp he).1, (mem_visible.mp he).2.1⟩)

theorem coveringRangeTombstoneSeq_eq_zero (h : ¬ s.Holds k) : s.coveringRangeTombstoneSeq k r = 0 :=
  le_antisymm (coveringRangeTombstoneSeq_le.mpr fun t ht _ hk => absurd (.inr ⟨t, ht, hk⟩) h)
    (OrderBot.bot_le _)

end Source

namespace ReadView

variable (view : ReadView) (k : Key) (r : Seq)

/-- The active memtable, then the frozen ones from the newest back. -/
def memtables : List MemTable := view.active :: view.frozen.reverse

def sources : List Source := view.memtables.map .memtable ++ view.version.tables.map .table

/-- The sources of each place whose tombstones are gathered together, and those then
visited. -/
def places : List (List Source × List Source) :=
  view.memtables.map (fun m => ([.memtable m], [.memtable m])) ++
    (view.version.places k).map fun p => (p.1.map .table, p.2.map .table)

/-- `walk_newest_first`: a visit that breaks ends the walk with what it broke with. -/
def walkNewestFirst {σ β : Type} (visit : Seq → σ → Source → Except β σ) (init : σ) :
    Except β (σ × Seq) :=
  walkPlaces (fun s => s.coveringRangeTombstoneSeq k r) visit 0 init (view.places k)

/-- The key's versions at `r`, newest first where the view is ordered. -/
def visible : List Entry := view.sources.flatMap fun s => s.visible k r

/-- The newest range tombstone over the key at `r`, or 0. -/
def coveringSeq : Seq := raise (fun s => s.coveringRangeTombstoneSeq k r) 0 view.sources

/-- What lies at one depth: each memtable and each L0 table alone, each deeper level whole. -/
def groups : List (List Source) :=
  view.memtables.map (fun m => [.memtable m]) ++
  ((view.version.levels 0).reverse.map (fun f => [.table f]) ++
    ((List.range maxLevels).drop 1).map fun l => (view.version.levels l).map .table)

/-- The order a store keeps its sources in: what a source says of a key is newer than what
the sources below it say, and what lies at one depth has the versions of a key newest first.
A tombstone and an entry of one depth may share a sequence, as in an ingested table. -/
structure LsmOrdered : Prop where
  version : view.version.WellFormed
  sorted : ∀ m ∈ view.memtables, m.entries.Pairwise Entry.Before
  pos : ∀ s ∈ view.sources, ∀ e ∈ s.entries, 0 < e.seq
  newer : view.groups.Pairwise fun a b => ∀ s ∈ a, ∀ u ∈ b, s.Newer u
  within : ∀ g ∈ view.groups, (g.flatMap Source.entries).Pairwise
    fun a b => b.userKey = a.userKey → b.seq < a.seq

variable {view k r} {held : Source → List Entry} {β : Type*} {s : Source}

theorem flatten_groups : view.groups.flatten = view.sources := by
  rw [groups, sources, Version.tables, flatten_append, flatten_append, map_append,
    map_flatMap, ← flatMap_def, ← flatMap_def, ← flatMap_def]
  exact congrArg₂ _ (flatMap_pure_eq_map ..) (congrArg₂ _ (flatMap_pure_eq_map ..) rfl)

theorem mem_sources : s ∈ view.sources ↔ ∃ g ∈ view.groups, s ∈ g := by
  rw [← flatten_groups, mem_flatten]

theorem flatMap_fst_places : (view.places k).flatMap Prod.fst =
    view.memtables.map .memtable ++ ((view.version.places k).flatMap Prod.fst).map .table := by
  rw [places, flatMap_append, flatMap_map, flatMap_map, map_flatMap]
  exact congrArg₂ _ (flatMap_pure_eq_map ..) rfl

theorem flatMap_holders {g : LiveSst → List β} (hg : ∀ f, ¬ f.Holds k → g f = [])
    (ts : List LiveSst) : (holders k ts).flatMap g = ts.flatMap g :=
  flatMap_filter_of_nil fun f _ hf => hg f (of_decide_eq_false hf)

variable (h : view.LsmOrdered)

include h

theorem LsmOrdered.flatMap_places {held : Source → List β} (hh : ∀ s, ¬ s.Holds k → held s = [])
    : ((view.places k).flatMap Prod.fst).flatMap held = view.sources.flatMap held := by
  have hnil : ∀ f : LiveSst, ¬ f.Holds k → held (.table f) = [] := fun f hf => hh _ hf
  rw [flatMap_fst_places, sources, flatMap_append, flatMap_append]
  congr 1
  rw [flatMap_map, flatMap_map, ← flatMap_holders hnil, h.version.holders_places,
    flatMap_holders hnil]

theorem LsmOrdered.mem_places (hs : s ∈ view.sources) (hk : s.Holds k) :
    s ∈ (view.places k).flatMap Prod.fst := by
  rw [flatMap_fst_places]
  rcases mem_append.mp hs with hs | hs
  · exact mem_append_left _ hs
  · obtain ⟨f, hf, rfl⟩ := mem_map.mp hs
    refine mem_append_right _ (mem_map_of_mem ?_)
    have hh : f ∈ holders k view.version.tables :=
      mem_filter.mpr ⟨hf, decide_eq_true (show f.Holds k from hk)⟩
    rw [← h.version.holders_places] at hh
    exact (mem_filter.mp hh).1

omit h in
theorem places_subset (hs : s ∈ (view.places k).flatMap Prod.fst) : s ∈ view.sources := by
  rw [flatMap_fst_places] at hs
  refine (List.Sublist.append (.refl _) ?_).subset hs
  exact (view.version.places_sublist k).map _

theorem LsmOrdered.raise_places : raise
    (fun s => s.coveringRangeTombstoneSeq k r) 0 ((view.places k).flatMap Prod.fst) =
      view.coveringSeq k r := by
  refine le_antisymm (raise_le.mpr ⟨OrderBot.bot_le _, fun s hs => ?_⟩)
    (raise_le.mpr ⟨OrderBot.bot_le _, fun s hs => ?_⟩)
  · exact (raise_le.mp (le_refl (view.coveringSeq k r))).2 s (places_subset hs)
  · by_cases hk : s.Holds k
    · have hle := raise_le.mp (le_refl (raise (fun s => s.coveringRangeTombstoneSeq k r) 0
        ((view.places k).flatMap Prod.fst)))
      exact hle.2 s (h.mem_places hs hk)
    · rw [Source.coveringRangeTombstoneSeq_eq_zero hk]
      exact OrderBot.bot_le _

omit h in
theorem forall₂_places_groups (view : ReadView) (k : Key) :
    List.Forall₂ (fun p g => p.1 ⊆ g) (view.places k) view.groups := by
  rw [places, groups, Version.places, map_append]
  refine rel_append ?_ (rel_append ?_ ?_) <;>
    simp only [map_map, List.forall₂_map_left_iff, List.forall₂_map_right_iff]
  · exact List.forall₂_same.mpr fun m _ => List.Subset.refl _
  · exact List.forall₂_same.mpr fun f _ => List.Subset.refl _
  · exact List.forall₂_same.mpr fun l _ => ((meeting_sublist k k).map _).subset

theorem LsmOrdered.aboveLater (hh : ∀ s, held s ⊆ s.visible k r) :
    AboveLater (fun s => s.coveringRangeTombstoneSeq k r) Entry.seq held (view.places k) := by
  refine pairwise_of_forall₂ (view.forall₂_places_groups k) h.newer ?_
  intro p hmem q a b hp hq hn s hs e he u hu
  obtain ⟨he, rfl, -⟩ := Source.mem_visible.mp (hh s he)
  refine Source.coveringRangeTombstoneSeq_lt.mpr ⟨?_, fun t ht _ hk => ?_⟩
  · exact h.pos s (places_subset (mem_flatMap.mpr ⟨p, hmem, hs⟩)) e he
  · exact (hn s (hp hs) u (hq hu) e he).2 t ht hk

theorem LsmOrdered.held_places (hh : ∀ s, held s ⊆ s.visible k r) {p : List Source × List Source}
    (hp : p ∈ view.places k) : p.2.flatMap held = p.1.flatMap held := by
  rcases mem_append.mp hp with hp | hp
  · obtain ⟨m, -, rfl⟩ := mem_map.mp hp
    rfl
  · obtain ⟨q, hq, rfl⟩ := mem_map.mp hp
    rw [flatMap_map, flatMap_map]
    refine h.version.flatMap_visited (fun f hf => subset_nil.mp fun e he => ?_) hq
    have hmem := (Source.mem_visible.mp (hh _ he)).1
    rwa [Source.entries, hf] at hmem

/-- A walk that looks at held entries one by one, and at the tombstones only to ask whether
an entry is above them, is one fold over everything held. -/
theorem LsmOrdered.walkNewestFirst_eq {σ β : Type}
    {visit : Seq → σ → Source → Except β σ} {step : Seq → σ → Entry → Except β σ}
    (hvisit : ∀ m s src, visit m s src = (held src).foldlM (step m) s)
    (hsteady : Steady Entry.seq step) (hh : ∀ src, held src ⊆ src.visible k r) (init : σ) :
    view.walkNewestFirst k r visit init =
      ((view.sources.flatMap held).foldlM (step (view.coveringSeq k r)) init).map
        fun s => (s, view.coveringSeq k r) := by
  rw [walkNewestFirst, walkPlaces_eq hvisit hsteady (fun p hp => h.held_places hh hp)
    (h.aboveLater hh), h.raise_places, h.flatMap_places fun s hs => ?_]
  exact subset_nil.mp (Source.visible_eq_nil hs ▸ hh s)

omit h in
theorem mem_visible : e ∈ view.visible k r ↔
    (∃ s ∈ view.sources, e ∈ s.entries) ∧ e.userKey = k ∧ e.seq ≤ r := by
  simp only [visible, mem_flatMap, Source.mem_visible]
  exact ⟨fun ⟨s, hs, he, hk⟩ => ⟨⟨s, hs, he⟩, hk⟩, fun ⟨⟨s, hs, he⟩, hk⟩ => ⟨s, hs, he, hk⟩⟩

omit h in
theorem lt_coveringSeq {q : Seq} : q < view.coveringSeq k r ↔
    ∃ s ∈ view.sources, ∃ t ∈ s.tombstones, t.seq ≤ r ∧ t.Covers k ∧ q < t.seq := by
  rw [coveringSeq, lt_raise, or_iff_right (show ¬ q < 0 from not_lt_bot)]
  simp only [Source.lt_coveringRangeTombstoneSeq]

omit h in
theorem coveringSeq_le {q : Seq} : view.coveringSeq k r ≤ q ↔
    ∀ s ∈ view.sources, ∀ t ∈ s.tombstones, t.seq ≤ r → t.Covers k → t.seq ≤ q := by
  rw [← not_lt, lt_coveringSeq]
  simp

omit h in
theorem flatMap_sources (f : Source → List β) :
    view.sources.flatMap f = view.groups.flatMap fun g => g.flatMap f := by
  rw [← flatten_groups, ← flatMap_id, flatMap_assoc]
  rfl

theorem LsmOrdered.group_descending {g : List Source} (hg : g ∈ view.groups)
    (k : Key) : (g.flatMap fun s => s.entriesOf k).Pairwise fun a b => b.seq < a.seq := by
  have hf : (g.flatMap fun s => s.entriesOf k) =
      (g.flatMap Source.entries).filter fun e => decide (e.userKey = k) := filter_flatMap.symm
  rw [hf, pairwise_filter]
  refine (h.within g hg).imp fun hd ha hb => hd ?_
  rw [of_decide_eq_true ha, of_decide_eq_true hb]

theorem LsmOrdered.entriesOf_descending (k : Key) :
    (view.sources.flatMap fun s => s.entriesOf k).Pairwise fun a b => b.seq < a.seq := by
  rw [flatMap_sources, pairwise_flatMap]
  refine ⟨fun g hg => h.group_descending hg k, h.newer.imp fun hn e he e' he' => ?_⟩
  obtain ⟨s, hs, he⟩ := mem_flatMap.mp he
  obtain ⟨u, hu, he'⟩ := mem_flatMap.mp he'
  obtain ⟨hes, rfl⟩ := Source.mem_entriesOf.mp he
  obtain ⟨heu, hk⟩ := Source.mem_entriesOf.mp he'
  exact (hn s hs u hu e hes).1 e' heu hk

omit h in
theorem visible_eq_filter : view.visible k r =
    (view.sources.flatMap fun s => s.entriesOf k).filter fun e => decide (e.seq ≤ r) :=
  filter_flatMap.symm

theorem LsmOrdered.visible_descending : (view.visible k r).Pairwise fun a b => b.seq < a.seq := by
  rw [visible_eq_filter]
  exact (h.entriesOf_descending k).filter _

end ReadView

end RegolithStore
