import RegolithStore.Commit.ReadRules

/-! The check of a validated scan (`range_rule.rs`): whether any write landed inside the
range after the scan's snapshot. Every source is asked, newest first, for an entry of the
range or a tombstone over part of it; the tables are left out where none of them can hold
anything that new. -/

namespace RegolithStore

open Lib List Option

variable {floor ceil : Seq} {α : Type*} {l : List α}

/-- The entries of `[lo, hi)`: from the seek to `lo` up to the first key at or past `hi`. -/
def entriesIn (lo hi : Key) (es : List Entry) : List Entry :=
  (es.dropWhile fun e => decide (e.userKey < lo)).takeWhile fun e => decide (e.userKey < hi)

def newerEntry (lo hi : Key) (floor ceil : Seq) (es : List Entry) :
    Option (Key × Seq × WriteKind) :=
  ((entriesIn lo hi es).find? fun e => decide (floor < e.seq ∧ e.seq ≤ ceil)).map
    fun e => (e.userKey, e.seq, e.valueType.writeKind)

/-- The tombstones are asked in the order they are listed in. -/
def newerTombstone (lo hi : Key) (floor ceil : Seq) (ts : List RangeTombstone) :
    Option (Key × Seq × WriteKind) :=
  (ts.find? fun t => decide (floor < t.seq ∧ t.seq ≤ ceil ∧ t.Overlaps lo hi)).map
    fun t => (max t.start lo, t.seq, .rangeDelete)

/-- `newer_in_range`, then `newer_range_tombstone`. -/
def MemTable.writtenIn (m : MemTable) (lo hi : Key) (floor ceil : Seq) :
    Option (Key × Seq × WriteKind) :=
  (newerEntry lo hi floor ceil m.entries).or
    (newerTombstone lo hi floor ceil (sortDedupTombstones m.rangeTombstones))

/-- The tombstones, then `newer_in_range`; a table is asked without a ceiling. -/
def LiveSst.writtenIn (f : LiveSst) (lo hi : Key) (floor : Seq) : Option (Key × Seq × WriteKind) :=
  (newerTombstone lo hi floor ⊤ f.tombstones).or (newerEntry lo hi floor ⊤ f.reader.entries)

namespace ReadView

variable (view : ReadView) (lo hi : Key)

/-- The tables whose key range meets the range: L0 from the newest back, then each level. -/
def tablesIn : List LiveSst :=
  ((view.version.levels 0).reverse.filter fun f =>
    decide (f.smallest < hi) && decide (lo ≤ f.largest)) ++
  ((List.range maxLevels).drop 1).flatMap fun l => overlapping (view.version.levels l) lo hi

def writtenInRangeOf (floor ceil : Seq) (memtablesOnly : Bool) : Option (Key × Seq × WriteKind) :=
  if hi ≤ lo then none
  else (view.memtables.findSome? fun m => m.writtenIn lo hi floor ceil).or
    (if memtablesOnly then none
    else (view.tablesIn lo hi).findSome? fun f => f.writtenIn lo hi floor)

def writtenInRange (floor : Seq) : Option (Key × Seq × WriteKind) :=
  view.writtenInRangeOf lo hi floor ⊤ false

def RangeTouched (floor ceil : Seq) : Prop :=
  ∃ s ∈ view.sources,
    (∃ e ∈ s.entries, (lo ≤ e.userKey ∧ e.userKey < hi) ∧ floor < e.seq ∧ e.seq ≤ ceil) ∨
    ∃ t ∈ s.tombstones, t.Overlaps lo hi ∧ floor < t.seq ∧ t.seq ≤ ceil

/-- Tombstones are over some key: a range delete of nothing is no write. -/
def TombstonesProper : Prop := ∀ s ∈ view.sources, ∀ t ∈ s.tombstones, t.start < t.stop

instance : Decidable view.TombstonesProper :=
  inferInstanceAs (Decidable (∀ s ∈ view.sources, ∀ t ∈ s.tombstones, _))

end ReadView

variable {ts : List RangeTombstone} {es : List Entry}

section Found

variable {lo hi : Key}

theorem mem_entriesIn (hes : es.Pairwise Entry.Before) {e : Entry} :
    e ∈ entriesIn lo hi es ↔ e ∈ es ∧ lo ≤ e.userKey ∧ e.userKey < hi := by
  have hkey : es.Pairwise fun a b => a.userKey ≤ b.userKey := hes.imp fun h => h.userKey_le
  have hd : Split (fun e : Entry => decide (e.userKey < lo)) es :=
    hkey.imp fun h => by simpa using h.trans_lt
  have ht : Split (fun e : Entry => decide (e.userKey < hi))
      (es.dropWhile fun e => decide (e.userKey < lo)) :=
    (hkey.sublist (dropWhile_sublist _)).imp fun h => by simpa using h.trans_lt
  rw [entriesIn, ht.mem_takeWhile, hd.mem_dropWhile]
  simp [and_assoc]

theorem newerEntry_isSome (hes : es.Pairwise Entry.Before) :
    (newerEntry lo hi floor ceil es).isSome = true ↔
      ∃ e ∈ es, (lo ≤ e.userKey ∧ e.userKey < hi) ∧ floor < e.seq ∧ e.seq ≤ ceil := by
  simp only [newerEntry, isSome_map, find?_isSome, mem_entriesIn hes, decide_eq_true_eq]
  exact ⟨fun ⟨e, ⟨he, hk⟩, hs⟩ => ⟨e, he, hk, hs⟩, fun ⟨e, he, hk, hs⟩ => ⟨e, ⟨he, hk⟩, hs⟩⟩

theorem newerTombstone_isSome : (newerTombstone lo hi floor ceil ts).isSome = true ↔
      ∃ t ∈ ts, t.Overlaps lo hi ∧ floor < t.seq ∧ t.seq ≤ ceil := by
  simp only [newerTombstone, isSome_map, find?_isSome, decide_eq_true_eq]
  exact ⟨fun ⟨t, ht, h1, h2, h3⟩ => ⟨t, ht, h3, h1, h2⟩, fun ⟨t, ht, h3, h1, h2⟩ => ⟨t, ht, h1, h2, h3⟩⟩

end Found

namespace ReadView

variable {view : ReadView} {lo hi : Key} {f : LiveSst} {memtablesOnly : Bool}

variable (hview : view.LsmOrdered)

include hview

theorem mem_tablesIn (hf : f ∈ view.version.tables) {k : Key}
    (hk : f.Holds k) (hlo : lo ≤ k) (hhi : k < hi) : f ∈ view.tablesIn lo hi := by
  rcases mem_append.mp hf with hf | hf
  · refine mem_append_left _ (mem_filter.mpr ⟨hf, ?_⟩)
    have hw := (hview.version.sound 0 f (mem_reverse.mp hf)).within k hk
    simp [hw.1.trans_lt hhi, hlo.trans hw.2]
  · obtain ⟨l, hl, hf⟩ := mem_flatMap.mp hf
    refine mem_append_right _ (mem_flatMap.mpr ⟨l, hl, ?_⟩)
    obtain ⟨h1, h2⟩ := Version.mem_deeper.mp hl
    have hw := (hview.version.sound l f hf).within k hk
    rw [overlapping, (hview.version.runs l h1 h2).meeting_eq_filter
      (fun f hf => (hview.version.sound l f hf).ordered) lo hi, mem_filter]
    exact ⟨hf, by simp [hlo.trans hw.2, (hw.1.trans_lt hhi).le]⟩

omit hview in
theorem tablesIn_subset : view.tablesIn lo hi ⊆ view.version.tables := by
  intro f hf
  rcases mem_append.mp hf with hf | hf
  · exact mem_append_left _ (mem_filter.mp hf).1
  · obtain ⟨l, hl, hf⟩ := mem_flatMap.mp hf
    exact mem_append_right _ (mem_flatMap.mpr ⟨l, hl, (meeting_sublist lo hi).subset hf⟩)

theorem LsmOrdered.table_sorted (hf : f ∈ view.version.tables) :
    f.reader.entries.Pairwise Entry.Before := by
  rcases mem_append.mp hf with hf | hf
  · exact (hview.version.sound 0 f (mem_reverse.mp hf)).sorted
  · obtain ⟨l, -, hf⟩ := mem_flatMap.mp hf
    exact (hview.version.sound l f hf).sorted

theorem LsmOrdered.memtable_writtenIn {m : MemTable}
    (hm : m ∈ view.memtables) : (m.writtenIn lo hi floor ceil).isSome = true ↔
      (∃ e ∈ m.entries, (lo ≤ e.userKey ∧ e.userKey < hi) ∧ floor < e.seq ∧ e.seq ≤ ceil) ∨
      ∃ t ∈ m.rangeTombstones, t.Overlaps lo hi ∧ floor < t.seq ∧ t.seq ≤ ceil := by
  rw [MemTable.writtenIn, isSome_or, Bool.or_eq_true,
    newerEntry_isSome (hview.sorted m hm), newerTombstone_isSome]
  simp only [mem_sortDedupTombstones]

theorem LsmOrdered.table_writtenIn
    (hf : f ∈ view.version.tables) : (f.writtenIn lo hi floor).isSome = true ↔
      (∃ e ∈ f.reader.entries, (lo ≤ e.userKey ∧ e.userKey < hi) ∧ floor < e.seq) ∨
      ∃ t ∈ f.tombstones, t.Overlaps lo hi ∧ floor < t.seq := by
  rw [LiveSst.writtenIn, isSome_or, Bool.or_eq_true, or_comm,
    newerEntry_isSome (hview.table_sorted hf), newerTombstone_isSome]
  simp

/-- The check finds something exactly if a version landed in the range, where the tables
hold nothing above the ceiling and are left out only where they hold nothing above the
floor. -/
theorem LsmOrdered.writtenInRangeOf_isSome (hw : view.TablesWithin) (hp : view.TombstonesProper)
    (ho : memtablesOnly = true → view.version.lastSeq ≤ floor) (hceil : view.version.lastSeq ≤ ceil)
    : (view.writtenInRangeOf lo hi floor ceil memtablesOnly).isSome = true ↔
      lo < hi ∧ view.RangeTouched lo hi floor ceil := by
  rw [writtenInRangeOf]
  by_cases hlt : hi ≤ lo
  · simp [hlt, not_lt.mpr hlt]
  rw [if_neg hlt, and_iff_right (not_le.mp hlt), isSome_or, Bool.or_eq_true, findSome?_isSome_iff]
  constructor
  · rintro (⟨m, hm, hfnd⟩ | hfnd)
    · refine ⟨.memtable m, mem_append_left _ (mem_map_of_mem hm), ?_⟩
      exact (hview.memtable_writtenIn hm).mp hfnd
    · split_ifs at hfnd
      · simp at hfnd
      obtain ⟨f, hf, hfnd⟩ := findSome?_isSome_iff.mp hfnd
      have hf := tablesIn_subset hf
      refine ⟨.table f, mem_append_right _ (mem_map_of_mem hf), ?_⟩
      refine ((hview.table_writtenIn hf).mp hfnd).imp ?_ ?_
      · rintro ⟨e, he, hk, hlt⟩
        exact ⟨e, he, hk, hlt, ((hw f hf).1 e he).trans hceil⟩
      · rintro ⟨t, ht, hk, hlt⟩
        exact ⟨t, ht, hk, hlt, ((hw f hf).2 t ht).trans hceil⟩
  · rintro ⟨s, hs, hfnd⟩
    rcases mem_append.mp hs with hs' | hs'
    · obtain ⟨m, hm, rfl⟩ := mem_map.mp hs'
      exact .inl ⟨m, hm, (hview.memtable_writtenIn hm).mpr hfnd⟩
    · obtain ⟨f, hf, rfl⟩ := mem_map.mp hs'
      right
      -- a table is left out only where nothing in it is above the floor
      rw [if_neg fun h => ?_, findSome?_isSome_iff]
      · refine ⟨f, ?_, (hview.table_writtenIn hf).mpr (hfnd.imp ?_ ?_)⟩
        · rcases hfnd with ⟨e, he, hk, -⟩ | ⟨t, ht, hov, -⟩
          · exact mem_tablesIn hview hf (.inl ⟨e, he, rfl⟩) hk.1 hk.2
          · have hstop := hp _ hs t ht
            exact mem_tablesIn hview hf (.inr ⟨t, ht, le_max_left _ lo, max_lt hstop hov.2⟩)
              (le_max_right _ _) (max_lt hov.1 (not_le.mp hlt))
        · rintro ⟨e, he, hk, hlt, -⟩
          exact ⟨e, he, hk, hlt⟩
        · rintro ⟨t, ht, hk, hlt, -⟩
          exact ⟨t, ht, hk, hlt⟩
      · rcases hfnd with ⟨e, he, -, hlt, -⟩ | ⟨t, ht, -, hlt, -⟩
        · exact absurd ((hw f hf).1 e he |>.trans (ho h)) hlt.not_ge
        · exact absurd ((hw f hf).2 t ht |>.trans (ho h)) hlt.not_ge

omit hview

section Raise

variable {floor' : Seq}

private theorem find?_congr {p q : α → Bool} (h : ∀ a ∈ l, p a = q a) : l.find? p = l.find? q := by
  rw [← head?_filter, ← head?_filter, filter_congr h]

private theorem newerEntry_congr (hes : es.Pairwise Entry.Before)
    (h : ∀ e ∈ es, lo ≤ e.userKey → e.userKey < hi → (floor < e.seq ↔ floor' < e.seq)) :
    newerEntry lo hi floor ceil es = newerEntry lo hi floor' ceil es := by
  refine congrArg (Option.map _) (find?_congr fun e he => ?_)
  obtain ⟨he, hlo, hhi⟩ := (mem_entriesIn hes).mp he
  simp only [h e he hlo hhi]

private theorem newerTombstone_congr
    (h : ∀ t ∈ ts, t.Overlaps lo hi → (floor < t.seq ↔ floor' < t.seq)) :
    newerTombstone lo hi floor ceil ts = newerTombstone lo hi floor' ceil ts := by
  refine congrArg (Option.map _) (find?_congr fun t ht => ?_)
  by_cases hov : t.Overlaps lo hi
  · simp only [h t ht hov]
  · simp [hov]

private theorem findSome?_congr {β : Type*} {f g : α → Option β}
    (h : ∀ a ∈ l, f a = g a) : l.findSome? f = l.findSome? g := by
  induction l with
  | nil => rfl
  | cons a l ih =>
    rw [forall_mem_cons] at h
    rw [findSome?_cons, findSome?_cons, h.1, ih h.2]

/-- Where nothing in the range lies between the floors, the check above either finds the
same, and may leave out tables that hold nothing above the higher one. -/
theorem LsmOrdered.writtenInRangeOf_raise (hview : view.LsmOrdered) (hw : view.TablesWithin) (ho : memtablesOnly = true → view.version.lastSeq ≤ floor')
    (hle : floor ≤ floor') (hnot : ¬ view.RangeTouched lo hi floor floor') :
    view.writtenInRangeOf lo hi floor ⊤ false = view.writtenInRangeOf lo hi floor' ⊤ memtablesOnly := by
  have hentry : ∀ s ∈ view.sources, ∀ e ∈ s.entries, lo ≤ e.userKey → e.userKey < hi →
      (floor < e.seq ↔ floor' < e.seq) := fun s hs e he hlo hhi =>
    ⟨fun hlt => not_le.mp fun hle' => hnot ⟨s, hs, .inl ⟨e, he, ⟨hlo, hhi⟩, hlt, hle'⟩⟩, hle.trans_lt⟩
  have htombstone : ∀ s ∈ view.sources, ∀ t ∈ s.tombstones, t.Overlaps lo hi →
      (floor < t.seq ↔ floor' < t.seq) := fun s hs t ht hov =>
    ⟨fun hlt => not_le.mp fun hle' => hnot ⟨s, hs, .inr ⟨t, ht, hov, hlt, hle'⟩⟩, hle.trans_lt⟩
  have hmems : ∀ m ∈ view.memtables, m.writtenIn lo hi floor ⊤ = m.writtenIn lo hi floor' ⊤ := by
    intro m hm
    have hs : Source.memtable m ∈ view.sources :=
      mem_append_left _ (mem_map_of_mem hm)
    refine congrArg₂ Option.or (newerEntry_congr (hview.sorted m hm) (hentry _ hs)) ?_
    exact newerTombstone_congr fun t ht => htombstone _ hs t (mem_sortDedupTombstones.mp ht)
  have htbl : ∀ f ∈ view.tablesIn lo hi, f.writtenIn lo hi floor = f.writtenIn lo hi floor' := by
    intro f hf
    have hf := tablesIn_subset hf
    have hs : Source.table f ∈ view.sources := mem_append_right _ (mem_map_of_mem hf)
    exact congrArg₂ Option.or (newerTombstone_congr (htombstone _ hs))
      (newerEntry_congr (hview.table_sorted hf) (hentry _ hs))
  refine if_congr Iff.rfl rfl (congrArg₂ Option.or (findSome?_congr hmems) ?_)
  cases memtablesOnly with
  | false => exact findSome?_congr htbl
  | true =>
    -- nothing a table holds is above the higher floor
    simp only [Bool.false_eq_true, if_false, if_true]
    rw [findSome?_congr htbl, findSome?_eq_none_iff]
    intro f hf
    have hf := tablesIn_subset hf
    rw [← not_isSome_iff_eq_none, hview.table_writtenIn hf]
    rintro (⟨e, he, -, hlt⟩ | ⟨t, ht, -, hlt⟩)
    · exact absurd ((hw f hf).1 e he |>.trans (ho rfl)) hlt.not_ge
    · exact absurd ((hw f hf).2 t ht |>.trans (ho rfl)) hlt.not_ge

end Raise

end ReadView

end RegolithStore
