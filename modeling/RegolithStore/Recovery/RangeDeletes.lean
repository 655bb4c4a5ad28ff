import RegolithStore.Lib.Fenwick
import RegolithStore.Manifest.Replay
import RegolithStore.Store.HoldsKey
import RegolithStore.Store.NewestVisible

/-! Range deletes an open copies into the memtable it recovers (`buried_range_deletes.rs`,
`hoist_range_deletes`). An earlier release could leave a range delete in a source read after one
that holds an older key it covers. The open looks for them by the tables' bounds: in L0 through a
Fenwick tree that grows as L0 is walked from its newest table, below L0 by a search of each level
above. -/

namespace RegolithStore

open Lib List LiveSst

variable {t : RangeTombstone} {m : MemTable} {f : LiveSst}

/-! ### The memtable -/

namespace MemTable

/-- `delete_ranges`: what the log of range tombstones does not hold yet is added. -/
def deleteRanges (m : MemTable) (batch : List RangeTombstone) : MemTable :=
  { m with
    rangeTombstones := m.rangeTombstones ++
      (sortDedupTombstones batch).filter fun t => t ∉ m.rangeTombstones }

variable {batch : List RangeTombstone}

theorem mem_deleteRanges :
    t ∈ (m.deleteRanges batch).rangeTombstones ↔ t ∈ m.rangeTombstones ∨ t ∈ batch := by
  rw [deleteRanges, mem_append, mem_filter, mem_sortDedupTombstones, decide_eq_true_eq]
  tauto

theorem coveredAt_deleteRanges {seq : Seq} {k : Key} :
    CoveredAt (m.deleteRanges batch).rangeTombstones seq k ↔
      CoveredAt m.rangeTombstones seq k ∨ CoveredAt batch seq k := by
  simp only [CoveredAt, mem_deleteRanges, or_and_right, exists_or]

end MemTable

/-! ### The tables of L0 looked at so far -/

/-- The L0 tables added so far, by the position they have in L0. -/
structure LevelZero where
  largest : List Key
  /-- Every table's smallest key, ascending. -/
  starts : List Key
  /-- Where each table sits in `starts`. -/
  rank : List Nat
  /-- A Fenwick tree over `starts` of the greatest largest key added. -/
  most : List (Option Key)

variable {position : Nat} {level : Nat}

namespace LevelZero

variable (ranges : List (Key × Key))

def order : List Nat :=
  stableSort (fun position => (ranges.getD position ([], [])).1) (List.range ranges.length)

def new : LevelZero :=
  { largest := ranges.map Prod.snd
    starts := (order ranges).map fun position => (ranges.getD position ([], [])).1
    rank := (List.range ranges.length).map fun position => (order ranges).idxOf position
    most := List.replicate ranges.length none }

def add (z : LevelZero) (position : Nat) : LevelZero :=
  { z with most := Fenwick.add z.most (z.rank.getD position 0) (z.largest.getD position []) }

/-- Whether a table added so far meets `[start, stop)`. -/
def meets (z : LevelZero) (start stop : Key) : Bool :=
  match Fenwick.greatest z.most (partitionPoint (fun first => decide (first < stop)) z.starts) with
  | some largest => decide (start ≤ largest)
  | none => false

/-- `z` is over `ranges`, and the positions in `added` were added. -/
structure Over (ranges : List (Key × Key)) (added : List Nat) (z : LevelZero) : Prop where
  largest : z.largest = (new ranges).largest
  starts : z.starts = (new ranges).starts
  rank : z.rank = (new ranges).rank
  length : z.most.length = ranges.length
  holds : Fenwick.Holds z.most
    (added.map fun position => (z.rank.getD position 0, z.largest.getD position []))

theorem over_new : Over ranges [] (new ranges) :=
  ⟨rfl, rfl, rfl, length_replicate, Fenwick.holds_empty _⟩

variable {ranges : List (Key × Key)} {added : List Nat} {z : LevelZero}

theorem Over.add (h : Over ranges added z) (position : Nat) :
    Over ranges (position :: added) (z.add position) :=
  ⟨h.largest, h.starts, h.rank, (Fenwick.length_add _ _ _).trans h.length, h.holds.add _ _⟩

theorem Over.foldl_add (h : Over ranges added z) (positions : List Nat) :
    Over ranges (positions.reverse ++ added) (positions.foldl LevelZero.add z) := by
  induction positions generalizing added z with
  | nil => exact h
  | cons position positions ih => simpa using ih (h.add position)

theorem starts_rank {range : Key × Key} (h : ranges[position]? = some range) :
    (new ranges).starts[(new ranges).rank.getD position 0]? = some range.1 := by
  have hlt : position < ranges.length := (List.getElem?_eq_some_iff.mp h).1
  have hrank : (new ranges).rank.getD position 0 = (order ranges).idxOf position := by
    simp [new, getD_eq_getElem?_getD, hlt]
  have hi : (order ranges).idxOf position < (order ranges).length :=
    idxOf_lt_length_of_mem (by rwa [order, mem_stableSort, mem_range])
  rw [hrank, new, getElem?_map, getElem?_eq_getElem hi, Option.map_some,
    getElem_idxOf hi, getD_eq_getElem?_getD, h]
  rfl

/-- The tree answers as a scan of the tables added. -/
theorem Over.meets_iff (h : Over ranges added z) (hadded : ∀ position ∈ added, position < ranges.length)
    {start stop : Key} :
    z.meets start stop = true ↔ ∃ position ∈ added, ∃ range, ranges[position]? = some range ∧
      range.1 < stop ∧ start ≤ range.2 := by
  have hreaches : z.meets start stop = true ↔ Fenwick.Reaches start (Fenwick.greatest z.most
      (partitionPoint (fun first => decide (first < stop)) z.starts)) := by
    rw [meets]
    cases Fenwick.greatest z.most (partitionPoint (fun first => decide (first < stop)) z.starts) with
    | none | some largest => simp
  have hspl : Split (fun first => decide (first < stop)) z.starts := by
    rw [h.starts, new, Split, pairwise_map]
    refine (pairwise_stableSort (List.range ranges.length)).imp fun hab hb => ?_
    exact decide_eq_true (lt_of_le_of_lt hab (of_decide_eq_true hb))
  have hbnd : partitionPoint (fun first => decide (first < stop)) z.starts ≤ z.most.length := by
    refine (takeWhile_sublist _).length_le.trans ?_
    rw [h.length, h.starts]
    simp [new, order, stableSort]
  rw [hreaches, h.holds.reaches_greatest hbnd]
  constructor
  · rintro ⟨p, hp, hlt, hle⟩
    obtain ⟨position, hposn, rfl⟩ := mem_map.mp hp
    have hr := getElem?_eq_getElem (hadded position hposn)
    refine ⟨position, hposn, _, hr, ?_, ?_⟩
    · have hs := starts_rank hr
      rw [← h.starts, ← h.rank] at hs
      exact of_decide_eq_true ((hspl.lt_partitionPoint hs).mp hlt)
    · rw [h.largest] at hle
      simpa [new, getD_eq_getElem?_getD, hadded position hposn] using hle
  · rintro ⟨position, hposn, range, hr, hlt, hle⟩
    refine ⟨_, mem_map_of_mem hposn, ?_, ?_⟩
    · have hs := starts_rank hr
      rw [← h.starts, ← h.rank] at hs
      exact (hspl.lt_partitionPoint hs).mpr (decide_eq_true hlt)
    · rw [h.largest]
      simpa [new, getD_eq_getElem?_getD, hr] using hle

end LevelZero

/-! ### The search -/

section Search

variable (met : RangeTombstone → Bool) (l0 : List LiveSst) (moved : Nat)

/-- The loop over L0, from its newest table: the tables below `position` are still to be
looked at, and `newer` holds the others. -/
def buriedInL0 : Nat → LevelZero → List RangeTombstone → LevelZero × List RangeTombstone
  | 0, newer, found => (newer, found)
  | position + 1, newer, found =>
    buriedInL0 position (newer.add position)
      (if moved ≤ position then
        found ++ ((l0.map tombstones).getD position []).filter fun t =>
          met t || newer.meets t.start t.stop
      else found)

end Search

/-- Whether a table of a level below L0 meets `[t.start, t.stop)`. The search takes a closed
range, so a table that starts at the exclusive end is looked at and refused. -/
def levelMeets (files : List LiveSst) (t : RangeTombstone) : Bool :=
  match (overlapping files t.start t.stop).head? with
  | some f => decide (f.smallest < t.stop)
  | none => false

/-- The range deletes a level's tables hold that may be behind an older key. -/
def buriedInLevel (met : RangeTombstone → Bool) (newer : LevelZero) (v : Version) (level : Nat) :
    List RangeTombstone :=
  (v.levels level).flatMap fun f => f.tombstones.filter fun t =>
    met t || newer.meets t.start t.stop ||
      ((List.range level).drop 1).any fun above => levelMeets (v.levels above) t

def buriedRangeDeletes (v : Version) (m : MemTable) (moved : Nat) : List RangeTombstone :=
  let met t := m.holdsKeyIn t.start t.stop
  let l0 := v.levels 0
  let (newer, found) := buriedInL0 met l0 moved l0.length
    (LevelZero.new (l0.map fun f => (f.smallest, f.largest))) []
  coalesced (found ++ ((List.range maxLevels).drop 1).flatMap (buriedInLevel met newer v))

structure Moved where
  tables : Nat
  deepestLevel : Nat
  rangeDeletes : Nat

/-- What was moved, how many range deletes the check copied and the largest sequence
recovered, and the memtable afterwards. -/
def hoistRangeDeletes (demotion : Option Demotion) (check : Bool) (v : Version) (m : MemTable)
    (latestSeq : Seq) : (Option Moved × Nat × Seq) × MemTable :=
  let movedTables := match demotion with
    | some demotion => demotion.tables
    | none => 0
  let buried := if check then buriedRangeDeletes v m movedTables else []
  let batch := (match demotion with
    | some demotion => demotion.rangeDeletes
    | none => []) ++ buried
  ((demotion.map fun demotion =>
      ⟨demotion.tables, demotion.deepestLevel, demotion.rangeDeletes.length⟩,
    buried.length, batch.foldl (fun newest t => max newest t.seq) latestSeq), m.deleteRanges batch)

/-! ### What the search finds -/

section Found

variable {met : RangeTombstone → Bool} {l0 : List LiveSst} {moved : Nat} {bounds : List (Key × Key)}

/-- A table of L0 read before the one at `position` meets the range of the tombstone. -/
def MetInL0 (l0 : List LiveSst) (position : Nat) (t : RangeTombstone) : Prop :=
  ∃ newer g, position < newer ∧ l0[newer]? = some g ∧ g.smallest < t.stop ∧ t.start ≤ g.largest

theorem LevelZero.meets_l0 {z : LevelZero}
    (hb : bounds = l0.map fun f => (f.smallest, f.largest))
    (hz : z.Over bounds ((List.range l0.length).drop (position + 1))) : z.meets t.start t.stop = true ↔ MetInL0 l0 position t := by
  subst hb
  rw [hz.meets_iff fun newer hn => by simpa using (mem_drop_range.mp hn).2]
  constructor
  · rintro ⟨newer, hn, range, hr, hlt, hle⟩
    rw [getElem?_map, Option.map_eq_some_iff] at hr
    obtain ⟨g, hg, rfl⟩ := hr
    exact ⟨newer, g, (mem_drop_range.mp hn).1, hg, hlt, hle⟩
  · rintro ⟨newer, g, hn, hg, hlt, hle⟩
    refine ⟨newer, mem_drop_range.mpr ⟨hn, (List.getElem?_eq_some_iff.mp hg).1⟩,
      (g.smallest, g.largest), ?_, hlt, hle⟩
    rw [getElem?_map, hg, Option.map_some]

/-- The loop over L0 adds every table and finds, of the tables not moved, the range deletes
the memtable or a newer table meets. -/
theorem buriedInL0_spec {n : Nat} {newer : LevelZero}
    {found : List RangeTombstone} (hb : bounds = l0.map fun f => (f.smallest, f.largest))
    (hn : n ≤ l0.length) (hnewer : newer.Over bounds ((List.range l0.length).drop n)) :
    (buriedInL0 met l0 moved n newer found).1.Over bounds (List.range l0.length) ∧
    ∀ t, t ∈ (buriedInL0 met l0 moved n newer found).2 ↔ t ∈ found ∨
      ∃ position f, position < n ∧ moved ≤ position ∧ l0[position]? = some f ∧ t ∈ f.tombstones ∧
        (met t = true ∨ MetInL0 l0 position t) := by
  induction n generalizing newer found with
  | zero => exact ⟨hnewer, fun t => by simp [buriedInL0]⟩
  | succ position ih =>
    have hd : (List.range l0.length).drop position =
        position :: (List.range l0.length).drop (position + 1) := by
      rw [drop_eq_getElem_cons (by simpa using Nat.lt_of_succ_le hn), getElem_range]
    have hadd := hnewer.add position
    rw [← hd] at hadd
    obtain ⟨ho, hfnd⟩ := ih (by omega) hadd
    refine ⟨ho, fun t => (hfnd t).trans ?_⟩
    have hf : l0[position]? = some (l0.get ⟨position, by omega⟩) :=
      getElem?_eq_getElem (by omega)
    have hhere : t ∈ (if moved ≤ position then
        found ++ ((l0.map tombstones).getD position []).filter fun t =>
          met t || newer.meets t.start t.stop else found) ↔ t ∈ found ∨
        ∃ f, moved ≤ position ∧ l0[position]? = some f ∧ t ∈ f.tombstones ∧
          (met t = true ∨ MetInL0 l0 position t) := by
      have htombs : (l0.map tombstones).getD position [] =
          (l0.get ⟨position, by omega⟩).tombstones := by
        rw [getD_eq_getElem?_getD, getElem?_map, hf]
        rfl
      split_ifs with hmvd
      · rw [mem_append, mem_filter, htombs, Bool.or_eq_true, LevelZero.meets_l0 hb hnewer, hf]
        simp [hmvd]
      · simp [hmvd]
    rw [hhere, or_assoc]
    refine or_congr_right ?_
    constructor
    · rintro (⟨f, h⟩ | ⟨p, f, hp, h⟩)
      · exact ⟨position, f, Nat.lt_succ_self position, h⟩
      · exact ⟨p, f, Nat.lt_succ_of_lt hp, h⟩
    · rintro ⟨p, f, hp, h⟩
      rcases Nat.lt_or_eq_of_le (Nat.le_of_lt_succ hp) with hlt | rfl
      · exact .inr ⟨p, f, hlt, h⟩
      · exact .inl ⟨f, h⟩

theorem buriedInL0_whole (met : RangeTombstone → Bool) (l0 : List LiveSst) (moved : Nat) :
    let found := buriedInL0 met l0 moved l0.length
      (LevelZero.new (l0.map fun f => (f.smallest, f.largest))) []
    found.1.Over (l0.map fun f => (f.smallest, f.largest)) (List.range l0.length) ∧
    ∀ t, t ∈ found.2 ↔ ∃ position f, moved ≤ position ∧ l0[position]? = some f ∧
      t ∈ f.tombstones ∧ (met t = true ∨ MetInL0 l0 position t) := by
  have hnew := LevelZero.over_new (l0.map fun f => (f.smallest, f.largest))
  have hn : (List.range l0.length).drop l0.length = [] :=
    drop_of_length_le (by rw [length_range])
  rw [← hn] at hnew
  obtain ⟨ho, hfnd⟩ := @buriedInL0_spec met l0 moved _ l0.length _ [] rfl le_rfl hnew
  refine ⟨ho, fun t => (hfnd t).trans ?_⟩
  constructor
  · rintro (hnil | ⟨position, f, -, h⟩)
    · cases hnil
    · exact ⟨position, f, h⟩
  · rintro ⟨position, f, hmvd, hf, h⟩
    exact .inr ⟨position, f, (List.getElem?_eq_some_iff.mp hf).1, hmvd, hf, h⟩

/-- The search of a level finds a table that meets the range. -/
theorem levelMeets_iff {files : List LiveSst} (hruns : SortedRun smallest LiveSst.largest files)
    (hordered : ∀ f ∈ files, f.smallest ≤ f.largest) :
    levelMeets files t = true ↔ ∃ g ∈ files, g.smallest < t.stop ∧ t.start ≤ g.largest := by
  have hmem : ∀ g, g ∈ overlapping files t.start t.stop ↔
      g ∈ files ∧ t.start ≤ g.largest ∧ g.smallest ≤ t.stop := fun g => hruns.mem_meeting hordered
  have hsrt : (overlapping files t.start t.stop).Pairwise fun a b => a.smallest ≤ b.smallest :=
    (hruns.pairwise_lo hordered).sublist (meeting_sublist _ _)
  rw [levelMeets]
  cases hh : overlapping files t.start t.stop with
  | nil =>
    refine ⟨fun h => by simp at h, fun ⟨g, hg, hs, hstrt⟩ => ?_⟩
    simpa [hh] using (hmem g).mpr ⟨hg, hstrt, hs.le⟩
  | cons first rest =>
    rw [hh] at hmem hsrt
    constructor
    · intro h
      obtain ⟨hg, hstrt, -⟩ := (hmem first).mp mem_cons_self
      exact ⟨first, hg, of_decide_eq_true h, hstrt⟩
    · rintro ⟨g, hg, hs, hstrt⟩
      have hle : first.smallest ≤ g.smallest := by
        rcases mem_cons.mp ((hmem g).mpr ⟨hg, hstrt, hs.le⟩) with rfl | hin
        · exact le_rfl
        · exact rel_of_pairwise_cons hsrt hin
      exact decide_eq_true (hle.trans_lt hs)

end Found

/-! ### What the open copies -/

section Hoisted

variable {v : Version} {k : Key} {seq : Seq} {repair : Repair}

theorem coveredAt_demotion {l0 : List LiveSst} {demotion : Demotion}
    (h : repair.demotion l0 = some demotion) :
    demotion.tables = repair.tables ∧ (CoveredAt demotion.rangeDeletes seq k ↔
      CoveredAt ((l0.take repair.tables).flatMap tombstones) seq k) := by
  rw [Repair.demotion, Option.ite_none_left_eq_some, Option.some.injEq] at h
  obtain ⟨-, rfl⟩ := h
  exact ⟨rfl, coveredAt_coalesced⟩

/-- Where a source read before the table at `position` of L0 holds the key. -/
def KeyAboveL0 (v : Version) (m : MemTable) (position : Nat) (k : Key) : Prop :=
  (∃ e ∈ m.entries, e.userKey = k) ∨
    ∃ newer g, position < newer ∧ (v.levels 0)[newer]? = some g ∧ g.smallest ≤ k ∧ k ≤ g.largest

/-- Where a source read before the level holds the key. -/
def KeyAboveLevel (v : Version) (m : MemTable) (level : Nat) (k : Key) : Prop :=
  (∃ e ∈ m.entries, e.userKey = k) ∨
    ∃ above, above < level ∧ ∃ g ∈ v.levels above, g.smallest ≤ k ∧ k ≤ g.largest

/-- The memtable holds a key of the closed range, or a range tombstone that reaches into it. -/
def MetByMemtable (m : MemTable) (t : RangeTombstone) : Prop :=
  (∃ e ∈ m.entries, t.start ≤ e.userKey ∧ e.userKey ≤ t.stop) ∨
    ∃ u ∈ m.rangeTombstones, u.start ≤ t.stop ∧ t.start < u.stop

/-- A range delete of a table that was not moved, met by the memtable or by the bounds of a
table read before its own. -/
def Buried (v : Version) (m : MemTable) (moved : Nat) (t : RangeTombstone) : Prop :=
  (∃ position f, moved ≤ position ∧ (v.levels 0)[position]? = some f ∧ t ∈ f.tombstones ∧
    (MetByMemtable m t ∨ MetInL0 (v.levels 0) position t)) ∨
  ∃ level, (1 ≤ level ∧ level < maxLevels) ∧ ∃ f ∈ v.levels level, t ∈ f.tombstones ∧
    (MetByMemtable m t ∨ ∃ above, above < level ∧ ∃ g ∈ v.levels above,
      g.smallest < t.stop ∧ t.start ≤ g.largest)

def hoisted (repair : Repair) (check : Bool) (v : Version) (m : MemTable) (latestSeq : Seq) :
    MemTable :=
  (hoistRangeDeletes (repair.demotion (v.levels 0)) check v m latestSeq).2

/-- What the batch covers is covered in the memtable afterwards, and nothing else is. -/
theorem coveredAt_hoisted {check : Bool} {latestSeq seq : Seq} :
    CoveredAt (hoisted repair check v m latestSeq).rangeTombstones seq k ↔
      CoveredAt m.rangeTombstones seq k ∨
      (repair.records ≠ [] ∧
        CoveredAt (((v.levels 0).take repair.tables).flatMap tombstones) seq k) ∨
      (check = true ∧ CoveredAt (buriedRangeDeletes v m
        (if repair.records = [] then 0 else repair.tables)) seq k) := by
  rw [hoisted]
  cases hdemotion : repair.demotion (v.levels 0) with
  | none =>
    have hr : repair.records = [] := by
      by_contra hne
      rw [Repair.demotion, if_neg hne] at hdemotion
      cases hdemotion
    simp only [hoistRangeDeletes, MemTable.coveredAt_deleteRanges, nil_append]
    cases check <;> simp [hr, CoveredAt]
  | some demotion =>
    have hr : repair.records ≠ [] := by
      intro hnil
      rw [Repair.demotion, if_pos hnil] at hdemotion
      cases hdemotion
    obtain ⟨ht, hcovered⟩ : demotion.tables = _ ∧
        (CoveredAt demotion.rangeDeletes seq k ↔ _) := coveredAt_demotion hdemotion
    simp only [hoistRangeDeletes, MemTable.coveredAt_deleteRanges, coveredAt_append, hcovered, ht]
    cases check <;> simp [hr, CoveredAt]

variable (hm : m.entries.Pairwise Entry.Before) (hruns : v.SortedRuns)
  (hordered : ∀ level, ∀ f ∈ v.levels level, f.smallest ≤ f.largest)

include hm hruns hordered

/-- The search finds the buried range deletes and no others. -/
theorem exists_found (moved : Nat) : ∃ found, buriedRangeDeletes v m moved = coalesced found ∧
    ∀ t, t ∈ found ↔ Buried v m moved t := by
  refine ⟨_, rfl, fun t => ?_⟩
  obtain ⟨ho, hf⟩ :=
    buriedInL0_whole (fun t => m.holdsKeyIn t.start t.stop) (v.levels 0) moved
  have hmet : m.holdsKeyIn t.start t.stop = true ↔ MetByMemtable m t := MemTable.holdsKeyIn_iff hm
  rw [mem_append, hf]
  simp only [mem_flatMap, Version.mem_deeper, buriedInLevel, mem_filter, Bool.or_eq_true, hmet,
    or_assoc, any_eq_true]
  refine or_congr_right (exists_congr fun level => and_congr_right fun hl =>
    exists_congr fun f => and_congr_right fun _ => and_congr_right fun _ => or_congr_right ?_)
  rw [ho.meets_iff fun position hposn => by simpa using hposn]
  constructor
  · rintro (⟨position, -, range, hr, hmeet⟩ | ⟨above, hin, hmeets⟩)
    · rw [getElem?_map, Option.map_eq_some_iff] at hr
      obtain ⟨g, hg, rfl⟩ := hr
      exact ⟨0, hl.1, g, mem_of_getElem? hg, hmeet⟩
    · obtain ⟨hlow, hlt⟩ := mem_drop_range.mp hin
      have hrun := hruns above hlow (hlt.trans hl.2)
      exact ⟨above, hlt, (levelMeets_iff hrun (hordered above)).mp hmeets⟩
  · rintro ⟨above, hlt, g, hg, hmeet⟩
    rcases Nat.eq_zero_or_pos above with rfl | hpos
    · obtain ⟨position, hlen, hget⟩ := getElem_of_mem hg
      refine .inl ⟨position, mem_range.mpr hlen, (g.smallest, g.largest), ?_, hmeet⟩
      rw [getElem?_map, getElem?_eq_getElem hlen, hget]
      rfl
    · have hrun := hruns above hpos (hlt.trans hl.2)
      exact .inr ⟨above, mem_drop_range.mpr ⟨hpos, hlt⟩,
        (levelMeets_iff hrun (hordered above)).mpr ⟨g, hg, hmeet⟩⟩

theorem coveredAt_buried {moved : Nat} : CoveredAt (buriedRangeDeletes v m moved) seq k ↔
    ∃ t, Buried v m moved t ∧ t.seq = seq ∧ t.Covers k := by
  obtain ⟨found, heq, hf⟩ := exists_found hm hruns hordered moved
  rw [heq, coveredAt_coalesced]
  simp only [CoveredAt, hf]

theorem coveredAt_hoisted_l0 (repair : Repair) (latestSeq : Seq)
    (hf : (v.levels 0)[position]? = some f) (ht : t ∈ f.tombstones) (hk : t.Covers k)
    (habv : KeyAboveL0 v m position k) :
    CoveredAt (hoisted repair true v m latestSeq).rangeTombstones t.seq k := by
  rw [coveredAt_hoisted, coveredAt_buried hm hruns hordered]
  by_cases hmvd : (if repair.records = [] then 0 else repair.tables) ≤ position
  · refine .inr (.inr ⟨rfl, t, .inl ⟨position, f, hmvd, hf, ht, ?_⟩, rfl, hk⟩)
    rcases habv with ⟨e, he, rfl⟩ | ⟨newer, g, hlt, hg, hlow, hh⟩
    · exact .inl (.inl ⟨e, he, hk.1, hk.2.le⟩)
    · exact .inr ⟨newer, g, hlt, hg, hlow.trans_lt hk.2, hk.1.trans hh⟩
  · split_ifs at hmvd with hr
    · exact absurd (Nat.zero_le _) hmvd
    · refine .inr (.inl ⟨hr, t, mem_flatMap.mpr ⟨f, ?_, ht⟩, rfl, hk⟩)
      exact mem_of_getElem? ((getElem?_take_of_lt (not_le.mp hmvd)).trans hf)

theorem coveredAt_hoisted_level (repair : Repair) (latestSeq : Seq) (hlow : 1 ≤ level)
    (hh : level < maxLevels) (hf : f ∈ v.levels level) (ht : t ∈ f.tombstones)
    (hk : t.Covers k) (habv : KeyAboveLevel v m level k) :
    CoveredAt (hoisted repair true v m latestSeq).rangeTombstones t.seq k := by
  rw [coveredAt_hoisted, coveredAt_buried hm hruns hordered]
  refine .inr (.inr ⟨rfl, t, .inr ⟨level, ⟨hlow, hh⟩, f, hf, ht, ?_⟩, rfl, hk⟩)
  rcases habv with ⟨e, he, rfl⟩ | ⟨above, hlt, g, hg, hlow, hh⟩
  · exact .inl (.inl ⟨e, he, hk.1, hk.2.le⟩)
  · exact .inr ⟨above, hlt, g, hg, hlow.trans_lt hk.2, hk.1.trans hh⟩

/-! ### No version is hidden anew -/

theorem coveredAt_table_of_buried {moved : Nat} (h : CoveredAt (buriedRangeDeletes v m moved) seq k)
    : ∃ f ∈ v.tables, CoveredAt f.tombstones seq k := by
  rw [coveredAt_buried hm hruns hordered] at h
  obtain ⟨t, ⟨position, f, -, hf, ht, -⟩ | ⟨level, hl, f, hf, ht, -⟩, hc⟩ := h
  · exact ⟨f, mem_append_left _ (mem_reverse.mpr (mem_of_getElem? hf)), t, ht, hc⟩
  · exact ⟨f, mem_append_right _ (mem_flatMap.mpr ⟨level, Version.mem_deeper.mpr hl, hf⟩), t,
      ht, hc⟩

/-- What the open looks for is found exactly, and the tree over L0 answers as a scan of the
tables added to it, in whatever order they were. -/
theorem buriedRangeDeletes_exact (moved : Nat) :
    (∃ found, buriedRangeDeletes v m moved = coalesced found ∧
      ∀ t, t ∈ found ↔ Buried v m moved t) ∧
    ∀ (ranges : List (Key × Key)) (added : List Nat),
      (∀ position ∈ added, position < ranges.length) → ∀ start stop,
        ((added.foldl LevelZero.add (LevelZero.new ranges)).meets start stop = true ↔
          ∃ position ∈ added, ∃ range, ranges[position]? = some range ∧ range.1 < stop ∧
            start ≤ range.2) := by
  refine ⟨exists_found hm hruns hordered moved, fun ranges added hadded start stop => ?_⟩
  have hover := (LevelZero.over_new ranges).foldl_add added
  rw [hover.meets_iff (by simpa using hadded)]
  simp

omit hm hruns hordered in
theorem coveredAt_allTombstones : CoveredAt (⟨m, [], v⟩ : ReadView).allTombstones seq k ↔
      CoveredAt m.rangeTombstones seq k ∨ ∃ f ∈ v.tables, CoveredAt f.tombstones seq k := by
  have hall : (⟨m, [], v⟩ : ReadView).allTombstones =
      m.rangeTombstones ++ v.tables.flatMap tombstones := by
    simp [ReadView.allTombstones, ReadView.sources, ReadView.memtables, Source.tombstones,
      flatMap_map]
  rw [hall, coveredAt_append]
  refine or_congr_right ?_
  simp only [CoveredAt, mem_flatMap]
  constructor
  · rintro ⟨t, ⟨f, hf, ht⟩, h⟩
    exact ⟨f, hf, t, ht, h⟩
  · rintro ⟨f, hf, t, ht, h⟩
    exact ⟨t, ⟨f, hf, ht⟩, h⟩

theorem coveredAt_allTombstones_hoisted (repair : Repair) (check : Bool) (latestSeq : Seq) :
    CoveredAt (⟨hoisted repair check v m latestSeq, [], v⟩ : ReadView).allTombstones seq k ↔
      CoveredAt (⟨m, [], v⟩ : ReadView).allTombstones seq k := by
  rw [coveredAt_allTombstones, coveredAt_allTombstones, coveredAt_hoisted, or_assoc]
  refine or_congr_right (or_iff_right_of_imp ?_)
  rintro (⟨-, t, ht, h⟩ | ⟨-, hburied⟩)
  · obtain ⟨f, hf, ht⟩ := mem_flatMap.mp ht
    exact ⟨f, mem_append_left _ (mem_reverse.mpr (mem_of_mem_take hf)), t, ht, h⟩
  · exact coveredAt_table_of_buried hm hruns hordered hburied

omit hm hruns hordered

theorem referenceChain_congr {es : List Entry} {ts us : List RangeTombstone} {r : Seq}
    (h : ∀ seq, CoveredAt ts seq k ↔ CoveredAt us seq k) :
    referenceChain es ts k r = referenceChain es us k r := by
  have hhidden : ∀ ts : List RangeTombstone, ∀ e,
      HiddenAt ts k r e ↔ ∃ seq, e.seq < seq ∧ seq ≤ r ∧ CoveredAt ts seq k := by
    intro ts e
    constructor
    · rintro ⟨t, ht, hlt, hle, hk⟩
      exact ⟨t.seq, hlt, hle, t, ht, rfl, hk⟩
    · rintro ⟨seq, hlt, hle, t, ht, rfl, hk⟩
      exact ⟨t, ht, hlt, hle, hk⟩
  rw [referenceChain, referenceChain]
  congr 1
  funext e
  rw [Bool.not_eq_eq_eq_not, Bool.not_not, decide_eq_decide, hhidden, hhidden]
  simp only [h]

/-! ### After the open -/

/-- Once the batch is in the memtable, no range delete is only behind an older key it covers:
for each there is one of its sequence over the key in the memtable. What the entries and the
range tombstones of all sources say of a key is what they said before. -/
theorem hoistRangeDeletes_honours (hm : m.entries.Pairwise Entry.Before) (hruns : v.SortedRuns)
    (hbounds : ∀ level, ∀ f ∈ v.levels level, f.smallest ≤ f.largest ∧
      ∀ e ∈ f.reader.entries, f.smallest ≤ e.userKey ∧ e.userKey ≤ f.largest)
    (repair : Repair) (latestSeq : Seq) :
    ((⟨m, [], v⟩ : ReadView).groups.Pairwise fun above below =>
      ∀ s ∈ above, ∀ e ∈ s.entries, ∀ u ∈ below, ∀ t ∈ u.tombstones, t.Covers e.userKey → e.seq <
        t.seq → ∃ copy ∈ (hoistRangeDeletes (repair.demotion (v.levels 0)) true v m
            latestSeq).2.rangeTombstones,
          copy.seq = t.seq ∧ copy.Covers e.userKey) ∧
    ∀ check k r,
      let before : ReadView := ⟨m, [], v⟩
      let after : ReadView :=
        ⟨(hoistRangeDeletes (repair.demotion (v.levels 0)) check v m latestSeq).2, [], v⟩
      referenceLookup after.allEntries after.allTombstones k r =
        referenceLookup before.allEntries before.allTombstones k r ∧
      ∀ op, referenceGet after.allEntries after.allTombstones k r op =
        referenceGet before.allEntries before.allTombstones k r op := by
  have hordered : ∀ level, ∀ f ∈ v.levels level, f.smallest ≤ f.largest :=
    fun level f hf => (hbounds level f hf).1
  have hwith : ∀ level, ∀ f ∈ v.levels level, ∀ e ∈ f.reader.entries,
      f.smallest ≤ e.userKey ∧ e.userKey ≤ f.largest := fun level f hf => (hbounds level f hf).2
  constructor
  · have hgrps : (⟨m, [], v⟩ : ReadView).groups = [.memtable m] ::
        ((v.levels 0).reverse.map (fun f => [.table f]) ++
          ((List.range maxLevels).drop 1).map fun level => (v.levels level).map .table) := rfl
    rw [hgrps]
    refine pairwise_cons.mpr ⟨?_, pairwise_append.mpr ⟨?_, ?_, ?_⟩⟩
    · intro below hbel s hs e he u hu t ht hk _
      obtain rfl := mem_singleton.mp hs
      rcases mem_append.mp hbel with hl0 | hdeep
      · obtain ⟨f, hf, rfl⟩ := mem_map.mp hl0
        obtain rfl := mem_singleton.mp hu
        obtain ⟨position, hlen, hget⟩ := getElem_of_mem (mem_reverse.mp hf)
        exact coveredAt_hoisted_l0 hm hruns hordered repair latestSeq
          ((getElem?_eq_getElem hlen).trans (congrArg some hget)) ht hk (.inl ⟨e, he, rfl⟩)
      · obtain ⟨level, hlvl, rfl⟩ := mem_map.mp hdeep
        obtain ⟨f, hf, rfl⟩ := mem_map.mp hu
        obtain ⟨hlow, hhigh⟩ := Version.mem_deeper.mp hlvl
        exact coveredAt_hoisted_level hm hruns hordered repair latestSeq hlow hhigh hf ht hk
          (.inl ⟨e, he, rfl⟩)
    · rw [pairwise_map, pairwise_reverse, pairwise_iff_getElem]
      intro older newer holder hnewer hlt s hs e he u hu t ht hk _
      obtain rfl := mem_singleton.mp hs
      obtain rfl := mem_singleton.mp hu
      have hbnd := hwith 0 _ (getElem_mem hnewer) e he
      exact coveredAt_hoisted_l0 hm hruns hordered repair latestSeq (getElem?_eq_getElem holder) ht hk
        (.inr ⟨newer, _, hlt, getElem?_eq_getElem hnewer, hbnd⟩)
    · rw [pairwise_map]
      refine ((pairwise_lt_range.sublist (drop_sublist 1 _)).imp_of_mem ?_)
      intro level level' _ hlevel' hlt s hs e he u hu t ht hk _
      obtain ⟨g, hg, rfl⟩ := mem_map.mp hs
      obtain ⟨f, hf, rfl⟩ := mem_map.mp hu
      obtain ⟨hlow, hhigh⟩ := Version.mem_deeper.mp hlevel'
      exact coveredAt_hoisted_level hm hruns hordered repair latestSeq hlow hhigh hf ht hk
        (.inr ⟨level, hlt, g, hg, hwith level g hg e he⟩)
    · intro above habv below hbel s hs e he u hu t ht hk _
      obtain ⟨g, hg, rfl⟩ := mem_map.mp habv
      obtain rfl := mem_singleton.mp hs
      obtain ⟨level, hlvl, rfl⟩ := mem_map.mp hbel
      obtain ⟨f, hf, rfl⟩ := mem_map.mp hu
      obtain ⟨hlow, hhigh⟩ := Version.mem_deeper.mp hlvl
      have hg := mem_reverse.mp hg
      exact coveredAt_hoisted_level hm hruns hordered repair latestSeq hlow hhigh hf ht hk
        (.inr ⟨0, by omega, g, hg, hwith 0 g hg e he⟩)
  · intro check k r before after
    have hchn : referenceChain after.allEntries after.allTombstones k r =
        referenceChain before.allEntries before.allTombstones k r :=
      referenceChain_congr fun seq =>
        coveredAt_allTombstones_hoisted hm hruns hordered repair check latestSeq
    refine ⟨by rw [referenceLookup, referenceLookup, hchn], fun op => ?_⟩
    rw [referenceGet, referenceGet, decidingChain, decidingChain, hchn]

end Hoisted

/-- A key in L0, and a newer range delete over it in the bottom level. -/
def buriedTop : LiveSst :=
  ⟨2, ⟨1, [3], [3], 100, 1, none, none⟩, ⟨[⟨[3], 2, .value, [7]⟩], ⟨[], RangeTombstoneSet.sorted_nil⟩⟩⟩

def buriedBottom : LiveSst :=
  ⟨5, ⟨2, [1], [9], 100, 0, some 5, none⟩,
    ⟨[], ⟨[⟨[1], [9], 5⟩], pairwise_singleton _ _⟩⟩⟩

def buriedVersion : Version :=
  ⟨fun level => if level = 0 then [buriedTop] else if level = 6 then [buriedBottom] else [],
    3, 5, 0, 2⟩

theorem mem_buriedVersion (h : f ∈ buriedVersion.levels level) :
    f = buriedTop ∨ f = buriedBottom := by
  simp only [buriedVersion] at h
  split_ifs at h
  · exact .inl (mem_singleton.mp h)
  · exact .inr (mem_singleton.mp h)
  · cases h

theorem sortedRuns_buriedVersion : buriedVersion.SortedRuns := by
  intro level _ _
  simp only [buriedVersion]
  split_ifs
  · exact pairwise_singleton _ _
  · exact pairwise_singleton _ _
  · exact .nil

/-- The range delete below the key is found. -/
theorem buriedRangeDeletes_exact_bottom : ∃ found,
    buriedRangeDeletes buriedVersion (MemTable.new 0) 0 = coalesced found ∧
      ⟨[1], [9], 5⟩ ∈ found := by
  have hordered : ∀ level, ∀ f ∈ buriedVersion.levels level, f.smallest ≤ f.largest := by
    intro level f hf
    rcases mem_buriedVersion hf with rfl | rfl <;> decide
  obtain ⟨found, heq, hfnd⟩ :=
    (buriedRangeDeletes_exact (m := MemTable.new 0) .nil sortedRuns_buriedVersion hordered 0).1
  refine ⟨found, heq, (hfnd _).mpr (.inr ⟨6, by decide, buriedBottom, mem_cons_self,
    mem_cons_self, .inr ⟨0, by decide, buriedTop, mem_cons_self, by decide, by decide⟩⟩)⟩

/-- Nothing but the key at the exclusive end of the range delete. -/
def endKey : MemTable := { MemTable.new 0 with entries := [⟨[9], 1, .value, []⟩] }

/-- A key at the exclusive end is enough. -/
theorem buried_of_end_key :
    buriedRangeDeletes (Version.new.addFile 6 buriedBottom) endKey 0 = [⟨[1], [9], 5⟩] ∧
      endKey.rangeTombstones = [] ∧
      ∀ e ∈ endKey.entries, ¬ (⟨[1], [9], 5⟩ : RangeTombstone).Covers e.userKey := by
  decide

/-- And it is honoured once copied. -/
theorem hoistRangeDeletes_honours_bottom : buriedVersion.SortedRuns ∧ ∃ copy ∈
    (hoistRangeDeletes (Repair.none.demotion (buriedVersion.levels 0)) true buriedVersion
        (MemTable.new 0) 2).2.rangeTombstones, copy.seq = 5 ∧ copy.Covers [3] := by
  refine ⟨sortedRuns_buriedVersion, ?_⟩
  have hbds : ∀ level, ∀ f ∈ buriedVersion.levels level, f.smallest ≤ f.largest ∧
      ∀ e ∈ f.reader.entries, f.smallest ≤ e.userKey ∧ e.userKey ≤ f.largest := by
    intro level f hf
    rcases mem_buriedVersion hf with rfl | rfl <;> decide
  have hcopied := (hoistRangeDeletes_honours (m := MemTable.new 0) .nil sortedRuns_buriedVersion
    hbds Repair.none 2).1
  exact pairwise_iff_getElem.mp hcopied 1 7 (by decide) (by decide) (by decide)
    (.table buriedTop) mem_cons_self ⟨[3], 2, .value, [7]⟩ (by decide) (.table buriedBottom)
    mem_cons_self ⟨[1], [9], 5⟩ (by decide) (by decide) (by decide)

end RegolithStore
