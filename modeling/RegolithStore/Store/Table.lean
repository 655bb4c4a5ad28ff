import RegolithStore.Store.RangeTombstone

/-! Tables (`sstable.rs`, `sstable/deletions.rs`). A live table is its manifest
metadata and an open reader. The reader is modelled by what it reads: the entries in
internal-key order, at the sequences reads see, and the range tombstones. The writer
counts the deletions of what it is given and derives the table's key range from its
first and last entry, widened by the tombstones it carries. Block layout, filters and
compression are left out; the size of a file is an input. -/

namespace RegolithStore

open Lib List RangeTombstoneSet Option

variable {ts : List RangeTombstone} {points : Option (Key × Key)} {es : List Entry}

structure Deletions where
  points : UInt64
  dead : UInt64
  newestSeq : Seq
  deriving DecidableEq

/-- Whether these can be the counts of a table of that many entries. -/
def Deletions.fits (d : Deletions) (entries : UInt64) : Bool :=
  decide (d.points ≤ d.dead) && decide (d.dead ≤ entries)

structure SsTableMeta where
  fileId : UInt64
  smallestKey : Key
  largestKey : Key
  fileSize : UInt64
  numEntries : UInt64
  globalSeq : Option Seq
  deletions : Option Deletions
  deriving DecidableEq

structure SsTableReader where
  entries : List Entry
  rangeTombstones : RangeTombstoneSet

structure LiveSst where
  sequenceCeiling : Seq
  metadata : SsTableMeta
  reader : SsTableReader

namespace LiveSst

variable (f : LiveSst)

abbrev id : UInt64 := f.metadata.fileId

abbrev smallest : Key := f.metadata.smallestKey

abbrev largest : Key := f.metadata.largestKey

abbrev tombstones : List RangeTombstone := f.reader.rangeTombstones.tombstones

def Holds (k : Key) : Prop :=
  (∃ e ∈ f.reader.entries, e.userKey = k) ∨ ∃ t ∈ f.tombstones, t.Covers k

/-- The metadata is that of the contents. -/
structure Sound (f : LiveSst) : Prop where
  ordered : f.smallest ≤ f.largest
  sorted : f.reader.entries.Pairwise Entry.Before
  within : ∀ k, f.Holds k → f.smallest ≤ k ∧ k ≤ f.largest

variable {f} in
theorem sound_of_bounds : f.smallest ≤ f.largest ∧ f.reader.entries.Pairwise Entry.Before ∧
    (∀ e ∈ f.reader.entries, f.smallest ≤ e.userKey ∧ e.userKey ≤ f.largest) ∧
    (∀ t ∈ f.tombstones, f.smallest ≤ t.start ∧ t.stop ≤ f.largest) → f.Sound := by
  rintro ⟨ordered, sorted, entries, tombstones⟩
  refine ⟨ordered, sorted, fun k hk => ?_⟩
  rcases hk with ⟨e, he, rfl⟩ | ⟨t, ht, hk⟩
  · exact entries e he
  · exact ⟨(tombstones t ht).1.trans hk.1, (hk.2.trans_le (tombstones t ht).2).le⟩

end LiveSst

/-- A `DeletionCounter` over the tombstones its table carries. -/
structure DeletionCounter where
  covering : RangeTombstoneSet
  underDeletion : Bool
  counted : Deletions

namespace DeletionCounter

/-- `hidden_by` on a fresh counter. -/
def hiddenBy (ts : RangeTombstoneSet) : DeletionCounter := ⟨ts, false, ⟨0, 0, 0⟩⟩

def see (c : DeletionCounter) (e : Entry) (firstOfKey : Bool) : DeletionCounter :=
  let under := c.underDeletion && !firstOfKey
  if e.valueType = .deletion then
    { c with
      underDeletion := true
      counted := ⟨c.counted.points + 1, c.counted.dead + 1, max c.counted.newestSeq e.seq⟩ }
  else if under || decide (e.seq < c.covering.maxCoveringSeq e.userKey ⊤) then
    { c with underDeletion := under, counted := { c.counted with dead := c.counted.dead + 1 } }
  else { c with underDeletion := under }

/-- Count entries in table order; an entry begins its key when the last one was of another. -/
def seeAll : DeletionCounter → Option Key → List Entry → DeletionCounter
  | c, _, [] => c
  | c, last, e :: es => (c.see e (last != some e.userKey)).seeAll (some e.userKey) es

end DeletionCounter

variable (range : Option (Key × Key)) (t : RangeTombstone) {hidden : RangeTombstoneSet}
  {f : LiveSst}

/-- One tombstone's widening of a table's user-key range. -/
def widen : Key × Key :=
  match range with
  | none => (t.start, t.stop)
  | some (smallest, largest) =>
    (if t.start < smallest then t.start else smallest,
      if largest < t.stop then t.stop else largest)

/-- The user-key range of a table: its point keys widened by every tombstone. -/
def tableKeyRange (points : Option (Key × Key)) (ts : List RangeTombstone) : Option (Key × Key) :=
  ts.foldl (fun range t => some (widen range t)) points

/-- The first and the last user key of entries in table order. -/
def pointRange (es : List Entry) : Option (Key × Key) :=
  match es.head?, es.getLast? with
  | some a, some b => some (a.userKey, b.userKey)
  | _, _ => none

structure SsTableWriteSummary where
  newestSeq : Seq
  smallestUserKey : Key
  largestUserKey : Key
  numEntries : UInt64
  deletions : Deletions
  deriving DecidableEq

/-- `SsTableWriter::finish` after `hidden_by(hidden)`, the entries `es` and the tombstones
`ts`; `none` when there is nothing to write. -/
def SsTableWriter.finish (hidden : RangeTombstoneSet) (es : List Entry) (ts : List RangeTombstone) :
    Option SsTableWriteSummary :=
  (tableKeyRange (pointRange es) (fromVec ts).tombstones).map fun range =>
    { newestSeq := (es.map Entry.seq ++ ts.map RangeTombstone.seq).foldl max 0
      smallestUserKey := range.1
      largestUserKey := range.2
      numEntries := UInt64.ofNat es.length
      deletions := ((DeletionCounter.hiddenBy hidden).seeAll none es).counted }

structure OutputFile where
  fileId : UInt64
  fileSize : UInt64

variable {file : OutputFile}

/-- The table of the entries `es` and the tombstones `ts`, with the range its writer found. -/
def writeTable (hidden : RangeTombstoneSet) (file : OutputFile) (es : List Entry)
    (ts : List RangeTombstone) : Option LiveSst :=
  (SsTableWriter.finish hidden es ts).map fun summary =>
    { sequenceCeiling := summary.newestSeq
      metadata :=
        { fileId := file.fileId
          smallestKey := summary.smallestUserKey
          largestKey := summary.largestUserKey
          fileSize := file.fileSize
          numEntries := summary.numEntries
          globalSeq := none
          deletions := some summary.deletions }
      reader := ⟨es, fromVec ts⟩ }

theorem widen_within : (∀ p ∈ range, (widen range t).1 ≤ p.1 ∧ p.2 ≤ (widen range t).2) ∧
      (widen range t).1 ≤ t.start ∧ t.stop ≤ (widen range t).2 := by
  cases range with
  | none => simp [widen]
  | some p =>
    simp only [widen, mem_def, some.injEq, forall_eq']
    refine ⟨⟨?_, ?_⟩, ?_, ?_⟩ <;> split_ifs <;> order

theorem widen_attained : ((widen range t).1 = t.start ∨ ∃ p ∈ range, p.1 = (widen range t).1) ∧
      ((widen range t).2 = t.stop ∨ ∃ p ∈ range, p.2 = (widen range t).2) := by
  cases range with
  | none => exact ⟨.inl rfl, .inl rfl⟩
  | some p =>
    simp only [widen, mem_def, some.injEq, exists_eq_left']
    constructor <;> split_ifs <;> simp

theorem tableKeyRange_cons (points : Option (Key × Key)) (t : RangeTombstone)
    (ts : List RangeTombstone) :
    tableKeyRange points (t :: ts) = tableKeyRange (some (widen points t)) ts := rfl

theorem tableKeyRange_within {range : Key × Key} (h : tableKeyRange points ts = some range) :
    (∀ p ∈ points, range.1 ≤ p.1 ∧ p.2 ≤ range.2) ∧
      ∀ t ∈ ts, range.1 ≤ t.start ∧ t.stop ≤ range.2 := by
  induction ts generalizing points with
  | nil =>
    rw [tableKeyRange, foldl_nil] at h
    simp [h]
  | cons t ts ih =>
    obtain ⟨hw, hts⟩ := ih (tableKeyRange_cons points t ts ▸ h)
    obtain ⟨hp, ht⟩ := widen_within points t
    have hw := hw _ rfl
    refine ⟨fun p hmem => ?_, forall_mem_cons.mpr ⟨?_, hts⟩⟩
    · exact ⟨hw.1.trans (hp p hmem).1, (hp p hmem).2.trans hw.2⟩
    · exact ⟨hw.1.trans ht.1, ht.2.trans hw.2⟩

theorem tableKeyRange_attained {range : Key × Key} (h : tableKeyRange points ts = some range) :
    ((∃ p ∈ points, p.1 = range.1) ∨ ∃ t ∈ ts, t.start = range.1) ∧
      ((∃ p ∈ points, p.2 = range.2) ∨ ∃ t ∈ ts, t.stop = range.2) := by
  induction ts generalizing points with
  | nil =>
    rw [tableKeyRange, foldl_nil] at h
    simp [h]
  | cons t ts ih =>
    obtain ⟨hs, he⟩ := ih (tableKeyRange_cons points t ts ▸ h)
    obtain ⟨hs', he'⟩ := widen_attained points t
    simp only [mem_def, some.injEq, exists_eq_left'] at hs he
    simp only [exists_mem_cons_iff]
    constructor
    · rcases hs with hs | hs
      · rcases hs' with hs' | ⟨p, hp, hs'⟩
        · exact .inr (.inl (hs'.symm.trans hs))
        · exact .inl ⟨p, hp, hs'.trans hs⟩
      · exact .inr (.inr hs)
    · rcases he with he | he
      · rcases he' with he' | ⟨p, hp, he'⟩
        · exact .inr (.inl (he'.symm.trans he))
        · exact .inl ⟨p, hp, he'.trans he⟩
      · exact .inr (.inr he)

theorem tableKeyRange_isSome (h : points.isSome ∨ ts ≠ []) : (tableKeyRange points ts).isSome := by
  induction ts generalizing points with
  | nil => simpa [tableKeyRange] using h
  | cons t ts ih =>
    exact ih (.inl rfl)

theorem pointRange_eq_some (h : es ≠ []) :
    pointRange es = some ((es.head h).userKey, (es.getLast h).userKey) := by
  rw [pointRange, head?_eq_some_head h, getLast?_eq_some_getLast h]

theorem userKey_bounds (hne : es ≠ []) (h : es.Pairwise Entry.Before) {e : Entry} (he : e ∈ es) :
    (es.head hne).userKey ≤ e.userKey ∧ e.userKey ≤ (es.getLast hne).userKey := by
  have hle := h.imp Entry.Before.userKey_le
  constructor
  · cases es with
    | nil => cases he
    | cons a es =>
      rcases mem_cons.mp he with rfl | he
      · exact le_rfl
      · exact (pairwise_cons.mp hle).1 e he
  · rw [← dropLast_append_getLast hne] at hle he
    rcases mem_append.mp he with he | he
    · exact (pairwise_append.mp hle).2.2 e he _ (mem_singleton_self _)
    · rw [mem_singleton.mp he]

theorem writeTable_eq_some (h : writeTable hidden file es ts = some f) :
    tableKeyRange (pointRange es) (fromVec ts).tombstones =
        some (f.smallest, f.largest) ∧
      f.reader.entries = es ∧ f.id = file.fileId ∧ ∀ t, t ∈ f.tombstones ↔ t ∈ ts := by
  obtain ⟨summary, hsum, rfl⟩ := map_eq_some_iff.mp h
  obtain ⟨range, hr, rfl⟩ := map_eq_some_iff.mp hsum
  exact ⟨hr, rfl, rfl, fun t => mem_fromVec⟩

/-- The metadata a writer finds is that of the contents. -/
theorem writeTable_sound (h : writeTable hidden file es ts = some f)
    (hes : es.Pairwise Entry.Before) (hts : ∀ t ∈ ts, t.start < t.stop) : f.Sound := by
  obtain ⟨hr, hents, -, hmem⟩ := writeTable_eq_some h
  obtain ⟨hpts, hrgs⟩ := tableKeyRange_within hr
  have hw : ∀ e ∈ es, f.smallest ≤ e.userKey ∧ e.userKey ≤ f.largest := by
    intro e he
    have hne := ne_nil_of_mem he
    obtain ⟨h1, h2⟩ := hpts _ (pointRange_eq_some hne)
    obtain ⟨h3, h4⟩ := userKey_bounds hne hes he
    exact ⟨h1.trans h3, h4.trans h2⟩
  refine ⟨?_, hents ▸ hes, ?_⟩
  · rcases (tableKeyRange_attained hr).1 with ⟨p, hp, -⟩ | ⟨t, ht, -⟩
    · have hne : es ≠ [] := by
        rintro rfl
        cases hp
      obtain ⟨h1, h2⟩ := hw _ (head_mem hne)
      exact h1.trans h2
    · obtain ⟨h1, h2⟩ := hrgs t ht
      exact h1.trans ((hts t (mem_fromVec.mp ht)).le.trans h2)
  · rintro k (⟨e, he, rfl⟩ | ⟨t, ht, hk⟩)
    · exact hw e (hents ▸ he)
    · obtain ⟨h1, h2⟩ := hrgs t (mem_fromVec.mpr ((hmem t).mp ht))
      exact ⟨h1.trans hk.1, hk.2.le.trans h2⟩

end RegolithStore
