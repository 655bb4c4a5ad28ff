import Mathlib.Data.List.Perm.Basic
import RegolithStore.Manifest.Rebuild
import RegolithStore.Store.Read

/-! What the repair of an overlapping level keeps. Everything through the deepest overlapping
level stands in L0 afterwards, in the order reads of the old layout met it. The records the repair
leaves for the log list the moved tables without their counts, so a replay of them gives the
tables of L0 none. -/

namespace RegolithStore

open Lib List Function ReplayState Version SsTableMeta

namespace Repair

variable {deepest : Nat} (levels : Nat → List SsTableMeta) (deepestLevel : Nat)

/-- The tables in the order the releases that left the overlap read them: through the deepest
overlapping level the newest installed first, the sorted runs below by key. -/
def installedWalk : List SsTableMeta :=
  ((List.range (deepestLevel + 1)).flatMap fun level => (levels level).reverse) ++
    ((List.range maxLevels).drop (deepestLevel + 1)).flatMap fun level =>
      stableSort smallestKey (levels level)

def liftedL0 : List SsTableMeta :=
  (((List.range (deepestLevel + 1)).drop 1).reverse.flatMap levels) ++ levels 0

def lifted (deepestLevel level : Nat) : List SsTableMeta :=
  if level = 0 then liftedL0 levels deepestLevel
  else if level ≤ deepestLevel then [] else levels level

/-- The records of a repair: everything it moves is taken out, and L0 is listed again. -/
def movedRecords : List ManifestRecord :=
  ((listed levels (deepestLevel + 1)).map fun p => .removeFile p.1 p.2.fileId) ++
    (liftedL0 levels deepestLevel).map (.addFile 0)

theorem prepare_moves {levels levels' : Nat → List SsTableMeta} {repair : Repair}
    (h : prepare levels = .ok (repair, levels')) (hmoves : repair.records ≠ []) :
    (((List.range maxLevels).drop 1).reverse).find? (fun level => overlaps (levels level)) =
      some repair.deepestLevel ∧
    repair.records = movedRecords levels repair.deepestLevel ∧
    levels' = lifted levels repair.deepestLevel := by
  rw [prepare] at h
  split at h
  case h_1 =>
    obtain ⟨rfl, -⟩ := Prod.mk.inj (Except.ok.inj h)
    exact absurd rfl hmoves
  case h_2 deepestLevel hf =>
    dsimp only at h
    split at h
    case h_1 => cases h
    case h_2 =>
      cases h
      exact ⟨hf, rfl, rfl⟩

theorem deepest_of_find {overlapping : Nat → Bool}
    (h : (((List.range maxLevels).drop 1).reverse).find? overlapping = some deepest) :
    1 ≤ deepest ∧ deepest < maxLevels ∧
      ∀ level, deepest < level → level < maxLevels → overlapping level = false := by
  obtain ⟨hlow, hh⟩ := mem_deeper.mp (mem_reverse.mp (mem_of_find?_eq_some h))
  refine ⟨hlow, hh, fun level hdeep hl => ?_⟩
  obtain ⟨-, front, back, hs, hf⟩ := find?_eq_some_iff_append.mp h
  have hmem : level ∈ front ++ deepest :: back :=
    hs ▸ mem_reverse.mpr (mem_deeper.mpr ⟨by omega, hl⟩)
  have hdown : (front ++ deepest :: back).Pairwise (· > ·) := hs ▸ by decide
  rcases mem_append.mp hmem with hin | hin
  · simpa using hf level hin
  · rcases mem_cons.mp hin with rfl | hin
    · omega
    · have := rel_of_pairwise_cons (pairwise_append.mp hdown).2.1 hin
      omega

theorem range_maxLevels (h : deepest < maxLevels) :
    List.range maxLevels = List.range (deepest + 1) ++ (List.range maxLevels).drop (deepest +
      1) := by
  have ht : List.range (deepest + 1) = (List.range maxLevels).take (deepest + 1) := by
    rw [take_range, Nat.min_eq_left h]
  rw [ht, take_append_drop]

/-- L0 after the repair is walked as the old layout was. -/
theorem walk_lifted (h : deepest < maxLevels) : (arrange 0 (lifted levels deepest 0)).reverse ++
      ((List.range maxLevels).drop 1).flatMap (fun level => arrange level (lifted levels deepest level))
      = installedWalk levels deepest := by
  have hd : (List.range maxLevels).drop 1 =
      (List.range (deepest + 1)).drop 1 ++ (List.range maxLevels).drop (deepest + 1) := by
    conv_lhs => rw [range_maxLevels h]
    rw [drop_append_of_le_length (by simp)]
  have hm : ((List.range (deepest + 1)).drop 1).flatMap
      (fun level => arrange level (lifted levels deepest level)) = [] := by
    rw [flatMap_eq_nil_iff]
    intro level hl
    rw [mem_drop_range] at hl
    rw [lifted, if_neg (by omega), if_pos (by omega)]
    simp [arrange, stableSort]
  have hb : ((List.range maxLevels).drop (deepest + 1)).flatMap
      (fun level => arrange level (lifted levels deepest level)) =
      ((List.range maxLevels).drop (deepest + 1)).flatMap
        fun level => stableSort smallestKey (levels level) := by
    refine flatMap_congr fun level hl => ?_
    have := mem_drop_range.mp hl
    rw [lifted, if_neg (by omega), if_neg (by omega), arrange, if_neg (by omega)]
  have hf : (liftedL0 levels deepest).reverse =
      (List.range (deepest + 1)).flatMap fun level => (levels level).reverse := by
    have hz : List.range (deepest + 1) = 0 :: (List.range (deepest + 1)).drop 1 := by
      simp [range_succ_eq_map]
    rw [liftedL0, reverse_append, reverse_flatMap, reverse_reverse]
    conv_rhs => rw [hz, flatMap_cons]
    rfl
  rw [hd, flatMap_append, hm, nil_append, hb, installedWalk, ← hf]
  rfl

theorem installedWalk_perm (h : deepest < maxLevels) :
    (installedWalk levels deepest).Perm ((listed levels maxLevels).map Prod.snd) := by
  have hl : (listed levels maxLevels).map Prod.snd = (List.range maxLevels).flatMap levels := by
    simp [listed, map_flatMap, comp_def]
  rw [hl, range_maxLevels h, flatMap_append]
  refine List.Perm.append (List.Perm.flatMap_left _ fun level _ => reverse_perm _)
    (List.Perm.flatMap_left _ fun level _ => ?_)
  exact perm_insertionSort _ _

end Repair

/-! ### Replaying the records of a repair -/

variable (counts : UInt64 → Option Deletions) {files : List (Nat × SsTableMeta)} {m : SsTableMeta}
  {level : Nat}

/-- The counts without those of `ids`. -/
def cleared (ids : List UInt64) (id : UInt64) :
    Option Deletions :=
  if id ∈ ids then none else counts id

@[simp] theorem cleared_nil : cleared counts [] = counts := by
  funext id
  simp [cleared]

theorem cleared_cons (id : UInt64) (ids : List UInt64) :
    cleared (update counts id none) ids = cleared counts (id :: ids) := by
  funext other
  rcases eq_or_ne other id with rfl | hne
  · simp [cleared]
  · simp [cleared, hne]

theorem ReplayState.replayAll_removeFiles (s : ReplayState) (files : List (Nat × SsTableMeta)) :
    s.replayAll (files.map fun p => .removeFile p.1 p.2.fileId) =
      { s with
        surviving := fun level => (s.surviving level).filter fun m =>
          (level, m.fileId) ∉ files.map fun p => (p.1, p.2.fileId)
        counts := cleared s.counts (files.map fun p => p.2.fileId) } := by
  induction files generalizing s with
  | nil => simp [replayAll]
  | cons p files ih =>
    rw [map_cons, ← singleton_append, replayAll_append, ih]
    simp only [replayAll, foldl_cons, foldl_nil, ReplayState.replay, cleared_cons, map_cons]
    congr 1
    funext level
    rcases eq_or_ne level p.1 with rfl | hne
    · rw [update_self, filter_filter]
      refine filter_congr fun m _ => ?_
      by_cases hid : m.fileId = p.2.fileId <;> simp [hid]
    · rw [update_of_ne hne]
      refine filter_congr fun m _ => ?_
      simp [hne]

theorem ReplayState.replayAll_addFiles (s : ReplayState) (level : Nat) (files : List SsTableMeta) :
    s.replayAll (files.map (.addFile level)) =
      { s with surviving := update s.surviving level (s.surviving level ++ files) } := by
  induction files generalizing s with
  | nil => simp [replayAll]
  | cons m files ih =>
    rw [map_cons, ← singleton_append, replayAll_append, ih]
    simp [replayAll, ReplayState.replay]

namespace Repair

variable {levels : Nat → List SsTableMeta} {deepest : Nat}

theorem mem_listed :
    m ∈ (listed levels (deepest + 1)).map Prod.snd ↔ m ∈ liftedL0 levels deepest := by
  have hlvs : ∀ level, level < deepest + 1 ↔ level ∈ ((List.range (deepest + 1)).drop 1).reverse ∨
      level = 0 := by
    intro level
    rw [mem_reverse, mem_drop_range]
    omega
  constructor
  · intro hm
    obtain ⟨p, hp, rfl⟩ := mem_map.mp hm
    obtain ⟨hl, hmem⟩ := mem_leveled.mp hp
    refine mem_append.mpr ?_
    rcases (hlvs p.1).mp hl with hin | hz
    · exact .inl (mem_flatMap.mpr ⟨p.1, hin, hmem⟩)
    · exact .inr (hz ▸ hmem)
  · intro hm
    rcases mem_append.mp hm with hin | hz
    · obtain ⟨level, hl, hmem⟩ := mem_flatMap.mp hin
      exact mem_map.mpr ⟨(level, m), mem_leveled.mpr ⟨(hlvs level).mpr (.inl hl), hmem⟩, rfl⟩
    · exact mem_map.mpr ⟨(0, m), mem_leveled.mpr ⟨(hlvs 0).mpr (.inr rfl), hz⟩, rfl⟩

theorem mem_ids_listed {id : UInt64} :
    id ∈ (listed levels (deepest + 1)).map (fun p => p.2.fileId) ↔
      id ∈ (liftedL0 levels deepest).map fileId := by
  have hids : (listed levels (deepest + 1)).map (fun p => p.2.fileId) =
      ((listed levels (deepest + 1)).map Prod.snd).map fileId := by
    rw [map_map]
    rfl
  rw [hids, mem_map, mem_map]
  exact exists_congr fun m => and_congr_left fun _ => mem_listed

/-- What the records of a repair leave when they are replayed: the levels the repair left,
and no counts for the tables of L0. -/
theorem replayAll_records (s : ReplayState) (deepest : Nat) :
    s.replayAll ((movedRecords s.surviving deepest).map .bare) =
      { s with
        surviving := update (lifted s.surviving deepest) 0
          ((liftedL0 s.surviving deepest).map SsTableMeta.bare)
        counts := cleared s.counts ((liftedL0 s.surviving deepest).map fileId) } := by
  have hr : (movedRecords s.surviving deepest).map ManifestRecord.bare =
      ((listed s.surviving (deepest + 1)).map fun p => .removeFile p.1 p.2.fileId) ++
        ((liftedL0 s.surviving deepest).map SsTableMeta.bare).map (.addFile 0) := by
    rw [movedRecords, map_append, map_map, map_map, map_map]
    rfl
  have hgone : ∀ level, level ≤ deepest → ((s.surviving level).filter fun m =>
      (level, m.fileId) ∉ (listed s.surviving (deepest + 1)).map fun p => (p.1, p.2.fileId)) = [] := by
    intro level hl
    rw [filter_eq_nil_iff]
    intro m hm
    have hlst : (level, m.fileId) ∈
        (listed s.surviving (deepest + 1)).map fun p => (p.1, p.2.fileId) :=
      mem_map.mpr ⟨(level, m), mem_leveled.mpr ⟨Nat.lt_succ_of_le hl, hm⟩, rfl⟩
    simpa using hlst
  have hk : ∀ level, deepest < level → ((s.surviving level).filter fun m =>
      (level, m.fileId) ∉ (listed s.surviving (deepest + 1)).map fun p => (p.1, p.2.fileId)) =
        s.surviving level := by
    intro level hl
    rw [filter_eq_self]
    intro m _
    rw [decide_eq_true_eq]
    intro hmem
    obtain ⟨p, hp, heq⟩ := mem_map.mp hmem
    have hlt := (mem_leveled.mp hp).1
    rw [(Prod.mk.inj heq).1] at hlt
    omega
  have hcounts : cleared s.counts ((listed s.surviving (deepest + 1)).map fun p => p.2.fileId) =
      cleared s.counts ((liftedL0 s.surviving deepest).map fileId) := by
    funext id
    simp only [cleared, mem_ids_listed]
  rw [hr, replayAll_append, replayAll_removeFiles, replayAll_addFiles, hcounts]
  dsimp only
  rw [hgone 0 (Nat.zero_le _), nil_append]
  congr 1
  funext level
  rcases eq_or_ne level 0 with rfl | hne
  · simp only [update_self]
  · rw [update_of_ne hne, update_of_ne hne, lifted, if_neg hne]
    split_ifs with hle
    · exact hgone level hle
    · exact hk level (Nat.lt_of_not_le hle)

theorem overlaps_lifted
    (hdeepest : ∀ level, deepest < level → level < maxLevels → overlaps (levels level) = false) (hlow : 1 ≤ level) (hh : level < maxLevels) :
    overlaps (lifted levels deepest level) = false := by
  rw [lifted, if_neg (by omega)]
  split_ifs with hle
  · rfl
  · exact hdeepest level (by omega) hh

theorem prepare_of_runs
    (h : ∀ level, 1 ≤ level → level < maxLevels → overlaps (levels level) = false) :
    prepare levels = .ok (none, levels) := by
  have hn : (((List.range maxLevels).drop 1).reverse).find?
      (fun level => overlaps (levels level)) = .none := by
    rw [find?_eq_none]
    intro level hl
    obtain ⟨hlow, hh⟩ := mem_deeper.mp (mem_reverse.mp hl)
    rw [h level hlow hh]
    exact Bool.false_ne_true
  simp only [prepare, hn]

theorem exists_of_mem_lifted {deepest level : Nat}
    (hdeepest : deepest < maxLevels) (hl : level < maxLevels)
    (h : m ∈ lifted levels deepest level) : ∃ l, l < maxLevels ∧ m ∈ levels l := by
  rw [lifted] at h
  split_ifs at h with hz hle
  · obtain ⟨p, hp, heq⟩ := mem_map.mp (mem_listed.mpr h)
    obtain ⟨hlt, hmem⟩ := mem_leveled.mp hp
    exact ⟨p.1, by omega, heq ▸ hmem⟩
  · cases h
  · exact ⟨level, hl, h⟩

end Repair

/-! ### The counts and the readers -/

theorem joinCounts_append (files rest : List (Nat × SsTableMeta)) :
    joinCounts counts (files ++ rest) = joinCounts counts files ++
      joinCounts (cleared counts (files.map fun p => p.2.fileId)) rest := by
  induction files generalizing counts with
  | nil => simp [joinCounts]
  | cons p files ih =>
    rw [cons_append, joinCounts, joinCounts, ih, cleared_cons, cons_append, map_cons]

theorem joinCounts_of_none {counts : UInt64 → Option Deletions}
    (h : ∀ p ∈ files, counts p.2.fileId = none) :
    joinCounts counts files = files.map fun p => (p.1, p.2.bare) := by
  induction files generalizing counts with
  | nil => rfl
  | cons p files ih =>
    have hr : ∀ q ∈ files, update counts p.2.fileId none q.2.fileId = none := by
      intro q hq
      rcases eq_or_ne q.2.fileId p.2.fileId with heq | hne
      · rw [heq, update_self]
      · rw [update_of_ne hne, h q (.tail _ hq)]
    rw [joinCounts, ih hr, h p mem_cons_self]
    rfl

theorem bare_joinCounts (files : List (Nat × SsTableMeta)) :
    (joinCounts counts files).map (fun p => (p.1, p.2.bare)) =
      files.map fun p => (p.1, p.2.bare) := by
  induction files generalizing counts with
  | nil => rfl
  | cons p files ih =>
    rw [joinCounts, map_cons, ih]
    rfl

section Readers

variable (openTable : UInt64 → Option Seq → Except IoError SsTableReader)

def readerOf (m : SsTableMeta) : SsTableReader :=
  match openTable m.fileId m.globalSeq with
  | .ok reader => reader
  | .error _ => ⟨[], ⟨[], RangeTombstoneSet.sorted_nil⟩⟩

def liveTable (lastSeq : Seq) (m : SsTableMeta) : LiveSst := ⟨lastSeq, m, readerOf openTable m⟩

theorem openTables_eq (lastSeq : Seq)
    (h : ∀ p ∈ files, ∃ reader, openTable p.2.fileId p.2.globalSeq = .ok reader) :
    openTables openTable lastSeq files =
      .ok (files.map fun p => (p.1, liveTable openTable lastSeq p.2)) := by
  induction files with
  | nil => rfl
  | cons p files ih =>
    obtain ⟨reader, hreader⟩ := h p mem_cons_self
    have hr := ih fun q hq => h q (.tail _ hq)
    rw [openTables] at hr ⊢
    rw [mapM_cons, hr, hreader, map_cons, liveTable, readerOf, hreader]
    rfl

variable (levels : Nat → List SsTableMeta)

/-- The tables of `levels` as replay rebuilds them, counts and all. -/
def rebuiltTables :
    List (Nat × SsTableMeta) :=
  joinCounts counts (Repair.listed (fun level => arrange level (levels level)) maxLevels)

variable (s : ReplayState)

def versionOfTables (files : List (Nat × SsTableMeta)) : Version :=
  versionOf s (files.map fun p => (p.1, liveTable openTable s.lastSeq p.2))

theorem levels_versionOfTables (files : List (Nat × SsTableMeta)) (level : Nat) :
    (versionOfTables openTable s files).levels level =
      ((files.filter fun p => p.1 = level).map Prod.snd).map (liveTable openTable s.lastSeq) := by
  simp only [versionOfTables, versionOf, filter_map, map_map]
  rfl

theorem bare_levels (levels : Nat → List SsTableMeta) (hlvl : level < maxLevels) :
    ((versionOfTables openTable s (rebuiltTables s.counts levels)).levels level).map
        (fun f => f.metadata.bare) =
      (arrange level (levels level)).map SsTableMeta.bare := by
  have hf : ∀ files : List (Nat × SsTableMeta),
      ((files.filter fun p => p.1 = level).map Prod.snd).map SsTableMeta.bare =
        ((files.map fun p => (p.1, p.2.bare)).filter fun p => p.1 = level).map Prod.snd := by
    intro files
    rw [filter_map, map_map, map_map]
    rfl
  have hl : (fun f : LiveSst => f.metadata.bare) ∘ liveTable openTable s.lastSeq =
      SsTableMeta.bare := rfl
  rw [levels_versionOfTables, map_map, hl, hf, rebuiltTables, bare_joinCounts, ← hf]
  congr 1
  exact (filter_leveled _ maxLevels level).trans (if_pos hlvl)

theorem bare_tables (levels : Nat → List SsTableMeta) :
    (versionOfTables openTable s (rebuiltTables s.counts levels)).tables.map
        (fun f => f.metadata.bare) =
      ((arrange 0 (levels 0)).reverse ++ ((List.range maxLevels).drop 1).flatMap
        fun level => arrange level (levels level)).map SsTableMeta.bare := by
  rw [Version.tables, map_append, map_append, map_reverse, map_reverse,
    bare_levels openTable s levels (by decide), map_flatMap, map_flatMap]
  congr 1
  exact flatMap_congr fun level hl =>
    bare_levels openTable s levels (mem_deeper.mp hl).2

variable {openTable} {p : Nat × SsTableMeta}

/-- What follows the batches, as one version. -/
theorem finishReplay_eq {r : ReplayedBatches} {repair : Repair} {levels : Nat → List SsTableMeta}
    (hprep : Repair.prepare r.state.surviving = .ok (repair, levels))
    (hruns : ∀ level, 1 ≤ level → level < maxLevels → overlaps (levels level) = false)
    (ho : ∀ level, level < maxLevels → ∀ m ∈ levels level,
      ∃ reader, openTable m.fileId m.globalSeq = .ok reader)
    (stampLen : Nat) (salt : Option Salt) :
    let version := versionOfTables openTable r.state (rebuiltTables r.state.counts levels)
    finishReplay openTable stampLen salt r = .ok ⟨version, r.validLen, stampLen, salt, r.keyIds,
      repair, repair.demotion (version.levels 0), r.state.rangeDeletesChecked⟩ ∧
    version.levelsAreSortedRuns = true := by
  intro version
  have hlst : Repair.listed (fun level => if level = 0 then levels 0
      else stableSort smallestKey (levels level)) maxLevels =
      Repair.listed (fun level => arrange level (levels level)) maxLevels := by
    refine leveled_congr fun level _ => ?_
    rw [arrange]
    split_ifs with h
    · rw [h]
    · rfl
  have hreaders : ∀ p ∈ rebuiltTables r.state.counts levels,
      ∃ reader, openTable p.2.fileId p.2.globalSeq = .ok reader := by
    intro p hp
    have hbare : (p.1, p.2.bare) ∈
        (Repair.listed (fun level => arrange level (levels level)) maxLevels).map
          fun p => (p.1, p.2.bare) := by
      rw [← bare_joinCounts r.state.counts]
      exact mem_map_of_mem hp
    obtain ⟨q, hq, heq⟩ := mem_map.mp hbare
    obtain ⟨hlvl, hmem⟩ := mem_leveled.mp hq
    have hin : q.2 ∈ levels q.1 := by
      simp only [arrange] at hmem
      split_ifs at hmem
      · exact hmem
      · exact mem_stableSort.mp hmem
    obtain ⟨reader, hreader⟩ := ho q.1 hlvl q.2 hin
    have hmeta : q.2.bare = p.2.bare := (Prod.mk.inj heq).2
    exact ⟨reader, (congrArg (fun m : SsTableMeta => openTable m.fileId m.globalSeq) hmeta).symm.trans
      hreader⟩
  have hovl : version.findOverlap = none := by
    rw [Version.findOverlap_eq_none]
    intro level hlow hh
    have hsrt := overlaps_eq_false.mp (hruns level hlow hh)
    have hbare := (findOverlapping_map_eq_none SsTableMeta.bare smallestKey
      largestKey (stableSort smallestKey (levels level))).mpr hsrt
    have hl := bare_levels openTable r.state levels hh
    rw [arrange, if_neg (by omega)] at hl
    rw [← hl] at hbare
    exact (findOverlapping_map_eq_none (fun f : LiveSst => f.metadata.bare) smallestKey
      largestKey (version.levels level)).mp hbare
  have hopn := openTables_eq openTable r.state.lastSeq hreaders
  refine ⟨?_, by rw [Version.levelsAreSortedRuns, hovl, Option.isNone_none]⟩
  rw [rebuiltTables] at hopn
  simp only [finishReplay, hprep, Except.bind, hlst, hopn]
  split
  case h_1 _ _ _ hs => cases hovl.symm.trans hs
  case h_2 => rfl

/-! ### Replayed once more -/

/-- The tables below L0 as replay rebuilds them, once L0 took its counts. -/
def deeperTables :
    List (Nat × SsTableMeta) :=
  joinCounts (cleared counts ((levels 0).map fileId))
    (((List.range maxLevels).drop 1).flatMap fun level =>
      (arrange level (levels level)).map fun m => (level, m))

theorem rebuiltTables_eq : rebuiltTables counts levels =
      joinCounts counts ((levels 0).map fun m => (0, m)) ++ deeperTables counts levels := by
  have hl : Repair.listed (fun level => arrange level (levels level)) maxLevels =
      ((levels 0).map fun m => (0, m)) ++ ((List.range maxLevels).drop 1).flatMap fun level =>
        (arrange level (levels level)).map fun m => (level, m) := rfl
  rw [rebuiltTables, hl, joinCounts_append, map_map]
  rfl

theorem level_of_mem_joinCounts {counts : UInt64 → Option Deletions} (h : p ∈ joinCounts counts files) :
    ∃ q ∈ files, q.1 = p.1 := by
  have hbare : (p.1, p.2.bare) ∈ files.map fun p => (p.1, p.2.bare) := by
    rw [← bare_joinCounts counts]
    exact mem_map_of_mem h
  obtain ⟨q, hq, heq⟩ := mem_map.mp hbare
  exact ⟨q, hq, (Prod.mk.inj heq).1⟩

theorem level_of_mem_deeperTables {counts : UInt64 → Option Deletions}
    {levels : Nat → List SsTableMeta} (h : p ∈ deeperTables counts levels) : p.1 ≠ 0 := by
  obtain ⟨q, hq, hl⟩ := level_of_mem_joinCounts h
  obtain ⟨level, hmem, hq⟩ := mem_flatMap.mp hq
  obtain ⟨m, -, rfl⟩ := mem_map.mp hq
  have := (mem_deeper.mp hmem).1
  omega

theorem deeperTables_congr {counts counts' : UInt64 → Option Deletions}
    {levels levels' : Nat → List SsTableMeta} (hcounts : cleared counts' ((levels' 0).map fileId) =
      cleared counts ((levels 0).map fileId))
    (hlvs : ∀ level, level ≠ 0 → levels' level = levels level) :
    deeperTables counts' levels' = deeperTables counts levels := by
  rw [deeperTables, deeperTables, hcounts]
  congr 1
  refine flatMap_congr fun level hl => ?_
  have := (mem_deeper.mp hl).1
  rw [hlvs level (by omega)]

/-- Listed again in L0 without counts, the tables are those of before without the counts of L0. -/
theorem rebuiltTables_cleared : rebuiltTables (cleared counts ((levels 0).map fileId))
        (update levels 0 ((levels 0).map SsTableMeta.bare)) =
      (joinCounts counts ((levels 0).map fun m => (0, m))).map (fun p => (p.1, p.2.bare)) ++
        deeperTables counts levels := by
  have hids : ((levels 0).map SsTableMeta.bare).map fileId = (levels 0).map fileId := by
    rw [map_map]
    rfl
  rw [rebuiltTables_eq, update_self]
  congr 1
  · have hn : ∀ p ∈ ((levels 0).map SsTableMeta.bare).map fun m => (0, m),
        cleared counts ((levels 0).map fileId) p.2.fileId = none := by
      intro p hp
      obtain ⟨m, hm, rfl⟩ := mem_map.mp hp
      exact if_pos (hids ▸ mem_map_of_mem hm)
    rw [joinCounts_of_none hn, bare_joinCounts, map_map, map_map, map_map]
    rfl
  · refine deeperTables_congr ?_ fun level hl => update_of_ne hl _ _
    rw [update_self, hids]
    funext id
    simp only [cleared]
    split_ifs <;> rfl

/-- The version is the same without the counts of L0 exactly when L0 has none. -/
theorem versionOfTables_bare_iff {front deeper : List (Nat × SsTableMeta)}
    (hfrt : ∀ p ∈ front, p.1 = 0) (hdeep : ∀ p ∈ deeper, p.1 ≠ 0) :
    versionOfTables openTable s (front.map (fun p => (p.1, p.2.bare)) ++ deeper) =
        versionOfTables openTable s (front ++ deeper) ↔
      ∀ p ∈ front, p.2.deletions = none := by
  have hl : ∀ files : List (Nat × SsTableMeta), (∀ p ∈ files, p.1 = 0) →
      (versionOfTables openTable s (files ++ deeper)).levels 0 =
        files.map fun p => liveTable openTable s.lastSeq p.2 := by
    intro files hf
    have hin : files.filter (fun p => p.1 = 0) = files :=
      filter_eq_self.mpr fun p hp => decide_eq_true (hf p hp)
    have hout : deeper.filter (fun p => p.1 = 0) = [] :=
      filter_eq_nil_iff.mpr fun p hp => by simpa using hdeep p hp
    rw [levels_versionOfTables, filter_append, hin, hout, append_nil, map_map]
    rfl
  constructor
  · intro heq p hp
    have hbare : ∀ p ∈ front.map (fun p => (p.1, p.2.bare)), p.1 = 0 := by
      intro p hp
      obtain ⟨q, hq, rfl⟩ := mem_map.mp hp
      exact hfrt q hq
    have hl0 := congrFun (congrArg Version.levels heq) 0
    rw [hl _ hbare, hl _ hfrt, map_map] at hl0
    have hs := congrArg LiveSst.metadata (map_inj_left.mp hl0 p hp)
    exact (congrArg SsTableMeta.deletions hs).symm
  · intro hn
    have hs : front.map (fun p => (p.1, p.2.bare)) = front.map id := by
      refine map_congr_left fun p hp => ?_
      exact Prod.ext rfl (show p.2.bare = p.2 by rw [SsTableMeta.bare, ← hn p hp])
    rw [hs, map_id]

/-- No table of the levels through the deepest overlapping one takes counts recorded for it. -/
def Repair.Uncounted (s : ReplayState) (deepestLevel : Nat) : Prop :=
  ∀ p ∈ joinCounts s.counts ((Repair.liftedL0 s.surviving deepestLevel).map fun m => (0, m)),
    p.2.deletions = Option.none

theorem Repair.uncounted_of_none {s : ReplayState} {deepestLevel : Nat}
    (h : ∀ m ∈ Repair.liftedL0 s.surviving deepestLevel, s.counts m.fileId = Option.none) :
    Repair.Uncounted s deepestLevel := by
  rw [Repair.Uncounted, joinCounts_of_none (forall_mem_map.mpr h)]
  exact forall_mem_map.mpr fun _ _ => rfl

/-- A repair moves every table once and keeps the order of the walk; the log it leaves gives
the tables it lists again no counts, so a replay of it holds what memory does exactly when no
table through the deepest overlapping level takes any. (A rewrite of the manifest in the call
that logs the repair lists the tables anew, their counts with them.) -/
theorem replay_of_repair_iff {r : ReplayedBatches} {repair : Repair}
    {levels : Nat → List SsTableMeta}
    (hprepare : Repair.prepare r.state.surviving = .ok (repair, levels))
    (hmoves : repair.records ≠ [])
    (hopen : ∀ level, level < maxLevels → ∀ m ∈ r.state.surviving level,
      ∃ reader, openTable m.fileId m.globalSeq = .ok reader)
    (stampLen : Nat) (salt : Option Salt) (stop : Nat) (keyIds : List UInt32) :
    ∃ replay replay', finishReplay openTable stampLen salt r = .ok replay ∧ replay.repair = repair ∧
      finishReplay openTable stampLen salt
        ⟨r.state.replayAll (repair.records.map .bare), stop, keyIds⟩ = .ok replay' ∧
      replay.version.levelsAreSortedRuns = true ∧
      (replay.version.tables.map fun f => f.metadata.bare) =
        (Repair.installedWalk r.state.surviving repair.deepestLevel).map SsTableMeta.bare ∧
      (replay.version.tables.map fun f => f.metadata.bare).Perm
        ((Repair.listed r.state.surviving maxLevels).map fun p => p.2.bare) ∧
      (∀ level, level < maxLevels →
        (replay'.version.levels level).map (fun f => f.metadata.bare) =
          (replay.version.levels level).map fun f => f.metadata.bare) ∧
      (replay'.version = replay.version ↔ Repair.Uncounted r.state repair.deepestLevel) := by
  obtain ⟨hfind, hrecs, rfl⟩ := Repair.prepare_moves hprepare hmoves
  obtain ⟨-, hhigh, hdeepest⟩ := Repair.deepest_of_find hfind
  set s := r.state
  set lifted := Repair.lifted s.surviving repair.deepestLevel with hlifted
  have hruns : ∀ level, 1 ≤ level → level < maxLevels → overlaps (lifted level) = false :=
    fun _ => Repair.overlaps_lifted hdeepest
  have hreaders : ∀ level, level < maxLevels → ∀ m ∈ lifted level,
      ∃ reader, openTable m.fileId m.globalSeq = .ok reader := by
    intro level hlvl m hm
    obtain ⟨l, hl, hmem⟩ := Repair.exists_of_mem_lifted hhigh hlvl hm
    exact hopen l hl m hmem
  -- The levels the log is replayed to are those of the repair, L0 without counts.
  set again := update lifted 0 ((lifted 0).map SsTableMeta.bare) with hagain
  have hsta : s.replayAll (repair.records.map .bare) =
      { s with
        surviving := again, counts := cleared s.counts ((lifted 0).map fileId) } := by
    rw [hrecs]
    exact Repair.replayAll_records s repair.deepestLevel
  have hruns' : ∀ level, 1 ≤ level → level < maxLevels → overlaps (again level) = false := by
    intro level hlow hlvl
    rw [hagain, update_of_ne (by omega)]
    exact hruns level hlow hlvl
  have hreaders' : ∀ level, level < maxLevels → ∀ m ∈ again level,
      ∃ reader, openTable m.fileId m.globalSeq = .ok reader := by
    intro level hlvl m hm
    rcases eq_or_ne level 0 with rfl | hne
    · rw [hagain, update_self] at hm
      obtain ⟨listed, hlst, rfl⟩ := mem_map.mp hm
      exact hreaders 0 hlvl listed hlst
    · rw [hagain, update_of_ne hne] at hm
      exact hreaders level hlvl m hm
  obtain ⟨hrpl, hsrt⟩ := finishReplay_eq hprepare hruns hreaders stampLen salt
  have hprepare' : Repair.prepare (s.replayAll (repair.records.map .bare)).surviving =
      .ok (Repair.none, again) := by
    rw [hsta]
    exact Repair.prepare_of_runs hruns'
  obtain ⟨hreplay', -⟩ := finishReplay_eq
    (r := ⟨s.replayAll (repair.records.map .bare), stop, keyIds⟩) hprepare' hruns' hreaders'
    stampLen salt
  have hwalk := (bare_tables openTable s lifted).trans
    (congrArg (List.map SsTableMeta.bare) (Repair.walk_lifted s.surviving hhigh))
  refine ⟨_, _, hrpl, rfl, hreplay', hsrt, hwalk, ?_, fun level hlvl => ?_, ?_⟩
  · rw [hwalk]
    have hperm := (Repair.installedWalk_perm s.surviving hhigh).map SsTableMeta.bare
    rwa [map_map] at hperm
  · rw [bare_levels openTable _ again hlvl, bare_levels openTable s lifted hlvl]
    rcases eq_or_ne level 0 with rfl | hne
    · rw [hagain, update_self]
      exact map_map
    · rw [hagain, update_of_ne hne]
  · have hagainTables : versionOfTables openTable (s.replayAll (repair.records.map .bare))
        (rebuiltTables (s.replayAll (repair.records.map .bare)).counts again) =
        versionOfTables openTable s
          ((joinCounts s.counts ((lifted 0).map fun m => (0, m))).map (fun p => (p.1, p.2.bare)) ++
            deeperTables s.counts lifted) := by
      rw [hsta]
      exact congrArg (versionOfTables openTable s) (rebuiltTables_cleared s.counts lifted)
    have hfrt : ∀ p ∈ joinCounts s.counts ((lifted 0).map fun m => (0, m)), p.1 = 0 := by
      intro p hp
      obtain ⟨q, hq, hlvl⟩ := level_of_mem_joinCounts hp
      obtain ⟨m, -, rfl⟩ := mem_map.mp hq
      exact hlvl.symm
    rw [hagainTables, rebuiltTables_eq]
    exact versionOfTables_bare_iff s hfrt fun p => level_of_mem_deeperTables

end Readers

/-! ### A level left overlapping -/

/-- Two tables of L1 that overlap, the counts of the first as given. -/
def overlappedState (deletions : Option Deletions) : ReplayState :=
  { ReplayState.new with
    surviving := fun level =>
      if level = 1 then [⟨1, [1], [5], 100, 5, none, none⟩, ⟨2, [3], [7], 100, 5, none, none⟩] else []
    counts := fun id => if id = 1 then deletions else none }

def emptyReader (_ : UInt64) (_ : Option Seq) : Except IoError SsTableReader :=
  .ok ⟨[], ⟨[], RangeTombstoneSet.sorted_nil⟩⟩

def countsOfL0 (state : ReplayState) : Option (List (Option Deletions)) :=
  (finishReplay emptyReader 0 none ⟨state, 0, []⟩).toOption.map fun replay =>
    (replay.version.levels 0).map fun f => f.metadata.deletions

/-- Two tables that overlap, neither counted. -/
theorem replay_of_repair_iff_uncounted : ∃ replay replay', finishReplay emptyReader 0 none
      ⟨overlappedState none, 0, []⟩ = .ok replay ∧ finishReplay emptyReader 0 none
        ⟨(overlappedState none).replayAll (replay.repair.records.map .bare), 0, []⟩ = .ok replay' ∧
      (replay.version.tables.map fun f => f.id) = [2, 1] ∧ replay'.version = replay.version := by
  have hprep : ∃ p, Repair.prepare (overlappedState none).surviving = .ok p ∧ p.1.records ≠ [] ∧
      Repair.installedWalk (overlappedState none).surviving p.1.deepestLevel =
        [⟨2, [3], [7], 100, 5, none, none⟩, ⟨1, [1], [5], 100, 5, none, none⟩] :=
    ⟨_, rfl, by decide, rfl⟩
  obtain ⟨⟨repair, levels⟩, hprep, hmoves, hwalk⟩ := hprep
  obtain ⟨replay, replay', hrpl, hrepair, hreplay', -, htbl, -, -, hiff⟩ :=
    replay_of_repair_iff (r := ⟨overlappedState none, 0, []⟩) hprep hmoves
      (fun _ _ m _ => ⟨_, (rfl : emptyReader m.fileId m.globalSeq = _)⟩) 0 none 0 []
  refine ⟨replay, replay', hrpl, hrepair ▸ hreplay', ?_,
    hiff.mpr (Repair.uncounted_of_none fun m _ => ite_self none)⟩
  rw [hwalk] at htbl
  have hids := congrArg (List.map fileId) htbl
  rwa [map_map] at hids

/-- The counts of a moved table are in memory, and in no record of the log. -/
theorem repair_drops_counts :
    countsOfL0 (overlappedState (some ⟨2, 3, 9⟩)) = some [some ⟨2, 3, 9⟩, none] ∧
    ∃ replay, finishReplay emptyReader 0 none ⟨overlappedState (some ⟨2, 3, 9⟩), 0, []⟩ = .ok replay ∧
      countsOfL0 ((overlappedState (some ⟨2, 3, 9⟩)).replayAll (replay.repair.records.map .bare)) =
        some [none, none] := by
  refine ⟨by decide +kernel, _, rfl, by decide +kernel⟩

end RegolithStore
