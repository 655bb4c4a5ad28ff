import RegolithStore.Lib.Leveled
import RegolithStore.Manifest.Mirror

/-! What replay makes of a state that mirrors a version: the version, table by table. An
image of the version leaves such a state too, so a rewritten manifest and the log it
replaces are replayed to the same. -/

namespace RegolithStore

open Lib List Function SsTableMeta Version LiveSst ReplayState

/-- The two versions list the same tables by their metadata, and hold the same counters. -/
structure Version.Rebuilds (w v : Version) : Prop where
  levels : ∀ level, (w.levels level).map metadata = (v.levels level).map metadata
  lastSeq : w.lastSeq = v.lastSeq
  nextFileId : w.nextFileId = v.nextFileId
  minWalId : w.minWalId = v.minWalId

theorem Version.listedTables_eq (v : Version) : v.listedTables = leveled v.levels maxLevels := rfl

section

variable {v : Version} {s : ReplayState} {files : List (Nat × SsTableMeta)}
  {openTable : UInt64 → Option Seq → Except IoError SsTableReader}

theorem Version.Kept.nodup_listedTables (hk : v.Kept) :
    (v.listedTables.map fun p => p.2.id).Nodup :=
  nodup_leveled hk.nodup (fun _ _ _ _ ha hb heq => hk.apart (id_mem_ids ha)
    (heq ▸ id_mem_ids hb)) maxLevels

theorem Version.Kept.filter_listedTables (hk : v.Kept) (level : Nat) :
    (v.listedTables.filter fun p => p.1 = level).map Prod.snd = v.levels level := by
  rw [listedTables_eq, filter_leveled]
  split_ifs with hl
  · rfl
  · exact (hk.beyond level (not_lt.mp hl)).symm

theorem arrange_arrange (level : Nat) (files : List SsTableMeta) :
    arrange level (arrange level files) = arrange level files := by
  simp only [arrange]
  split_ifs
  · rfl
  · exact stableSort_eq_self (pairwise_stableSort files)

theorem ReplayState.replayAll_pushTable (s : ReplayState) (level : Nat) (m : SsTableMeta) :
    s.replayAll ((pushTable level m).map .bare) =
      { s with
        surviving := update s.surviving level (s.surviving level ++ [m.bare])
        counts := m.deletions.elim s.counts fun d => update s.counts m.fileId (some d) } := by
  rw [pushTable]
  cases m.deletions <;> rfl

theorem ReplayState.replayAll_tables {files : List (Nat × LiveSst)} {s s' : ReplayState}
    (hnodup : (files.map fun p => p.2.id).Nodup) (hn : ∀ p ∈ files, s.counts p.2.id = none)
    (hs' : s' = s.replayAll ((files.flatMap fun p => pushTable p.1 p.2.metadata).map .bare)) :
    (∀ level, s'.surviving level = s.surviving level ++
      (files.filter fun p => p.1 = level).map fun p => p.2.metadata.bare) ∧
    (∀ p ∈ files, s'.counts p.2.id = p.2.metadata.deletions) ∧
    (∀ id, id ∉ files.map (fun p => p.2.id) → s'.counts id = s.counts id) ∧
    s'.lastSeq = s.lastSeq ∧ s'.nextFileId = s.nextFileId ∧ s'.minWalId = s.minWalId := by
  induction files generalizing s with
  | nil =>
    subst hs'
    refine ⟨fun level => ?_, nofun, fun _ _ => rfl, rfl, rfl, rfl⟩
    exact (append_nil _).symm
  | cons p files ih =>
    rw [map_cons, nodup_cons] at hnodup
    rw [flatMap_cons, map_append, replayAll_append, replayAll_pushTable] at hs'
    have hcounts : ∀ id, id ≠ p.2.id → (p.2.metadata.deletions.elim s.counts fun d =>
        update s.counts p.2.id (some d)) id = s.counts id := by
      intro id hne
      cases p.2.metadata.deletions with
      | none => rfl
      | some d => exact update_of_ne hne _ _
    have hself : (p.2.metadata.deletions.elim s.counts fun d =>
        update s.counts p.2.id (some d)) p.2.id = p.2.metadata.deletions := by
      cases p.2.metadata.deletions with
      | none => exact hn p mem_cons_self
      | some d => exact update_self _ _ _
    have hfr : ∀ q ∈ files, q.2.id ≠ p.2.id := fun q hq heq =>
      hnodup.1 (heq ▸ mem_map_of_mem hq)
    obtain ⟨ht, hf, hothers, hscalars⟩ := ih hnodup.2
      (fun q hq => (hcounts _ (hfr q hq)).trans (hn q (.tail _ hq))) hs'
    refine ⟨fun level => ?_, fun q hq => ?_, fun id hid => ?_, hscalars⟩
    · rw [ht level]
      rcases eq_or_ne p.1 level with rfl | hne
      · simp
      · simp [hne, hne.symm]
    · rcases mem_cons.mp hq with rfl | hq
      · exact (hothers _ hnodup.1).trans hself
      · exact hf q hq
    · rw [map_cons, mem_cons, not_or] at hid
      exact (hothers id hid.2).trans (hcounts id hid.1)

theorem sound_pushTable {level : Nat} {m : SsTableMeta} (hl : level < maxLevels)
    (hglobal : m.globalSeq ≠ some 0) : ∀ r ∈ pushTable level m, r.Sound := by
  intro r hr
  rw [pushTable, mem_cons] at hr
  rcases hr with rfl | hr
  · exact ⟨hl, hglobal⟩
  · cases hd : m.deletions with
    | none => simp [hd] at hr
    | some d =>
      rw [hd, Option.map_some, Option.toList_some, mem_singleton] at hr
      exact hr ▸ trivial

theorem Version.Kept.sound_imageRecords (hk : v.Kept) {nextFileId minWalId : UInt64} {lastSeq : Seq}
    {checked : Bool} : ∀ r ∈ Manifest.imageRecords nextFileId lastSeq minWalId checked
      (v.listedTables.map fun p => (p.1, p.2.metadata)), r.Sound := by
  intro r hr
  rw [Manifest.imageRecords, mem_append, mem_append, mem_flatMap] at hr
  rcases hr with (hr | hr) | ⟨q, hq, hr⟩
  · simp only [mem_cons, not_mem_nil, or_false] at hr
    rcases hr with rfl | rfl | rfl <;> trivial
  · cases checked with
    | false => cases hr
    | true => exact mem_singleton.mp hr ▸ trivial
  · obtain ⟨p, hp, rfl⟩ := mem_map.mp hq
    obtain ⟨hl, hp⟩ := mem_leveled.mp hp
    exact sound_pushTable hl (hk.globalSeq p.1 p.2 hp) r hr

/-- So does the image of a whole version. -/
theorem Mirrors.image (h : Mirrors v s) (hk : v.Kept) (checked : Bool) :
    Mirrors v (ReplayState.new.replayAll ((Manifest.imageRecords v.nextFileId v.lastSeq v.minWalId
      checked (v.listedTables.map fun p => (p.1, p.2.metadata))).map .bare)) := by
  set start : ReplayState :=
    { ReplayState.new with
      lastSeq := raisedLastSeq 0 v.lastSeq, nextFileId := v.nextFileId, minWalId := v.minWalId
      rangeDeletesChecked := checked } with hs
  have hh : ReplayState.new.replayAll
      (([.setNextFileId v.nextFileId, .setLastSeq v.lastSeq, .setMinWalId v.minWalId] ++
        (if checked then [.rangeDeletesChecked] else []) : List ManifestRecord).map .bare) =
        start := by
    cases checked <;> rfl
  rw [Manifest.imageRecords, map_append, replayAll_append, hh, flatMap_map]
  obtain ⟨ht, hfiles, hothers, hl, hn, hwal⟩ := replayAll_tables
    hk.nodup_listedTables (fun _ _ => rfl) (rfl : _ = start.replayAll _)
  refine ⟨fun level => ?_, fun level f hf => ?_, fun id d hid => ?_, ?_, hn, hwal⟩
  · have hbare : ((v.listedTables.filter fun p => p.1 = level).map fun p => p.2.metadata.bare) =
        (v.levels level).map fun f => f.metadata.bare := by
      rw [← hk.filter_listedTables level, map_map]
      rfl
    rw [ht level, hbare, show start.surviving level = [] from rfl, nil_append, h.tables,
      arrange_arrange]
  · have hlvl : level < maxLevels := by
      by_contra hge
      rw [hk.beyond level (not_lt.mp hge)] at hf
      cases hf
    exact hfiles (level, f) (mem_leveled.mpr ⟨hlvl, hf⟩)
  · by_contra hno
    have hout : id ∉ v.listedTables.map fun p => p.2.id := by
      intro hin
      obtain ⟨p, hp, rfl⟩ := mem_map.mp hin
      exact hno ⟨p.1, id_mem_ids (mem_leveled.mp hp).2⟩
    rw [hothers id hout] at hid
    cases hid
  · rw [hl]
    exact max_eq_right (Nat.zero_le _)

theorem overlaps_eq (files : List SsTableMeta) :
    overlaps files = (findOverlapping smallestKey largestKey
      (stableSort smallestKey files)).isSome := by
  have hs : (if files.IsChain fun a b => a.smallestKey ≤ b.smallestKey then files
      else stableSort smallestKey files) = stableSort smallestKey files := by
    split_ifs with hc
    · have : IsTrans SsTableMeta fun a b => a.smallestKey ≤ b.smallestKey := ⟨fun _ _ _ => le_trans⟩
      exact (stableSort_eq_self (isChain_iff_pairwise.mp hc)).symm
    · rfl
  simp only [overlaps, hs]

theorem overlaps_eq_false {files : List SsTableMeta} :
    overlaps files = false ↔ findOverlapping smallestKey largestKey
      (stableSort smallestKey files) = none := by
  rw [overlaps_eq, Option.isSome_eq_false_iff, Option.isNone_iff_eq_none]

theorem Mirrors.prepare (h : Mirrors v s) (ho : v.findOverlap = none) :
    Repair.prepare s.surviving = .ok (Repair.none, s.surviving) := by
  have hn : (((List.range maxLevels).drop 1).reverse).find?
      (fun level => overlaps (s.surviving level)) = none := by
    rw [find?_eq_none]
    intro level hl
    obtain ⟨hlow, hh⟩ := mem_deeper.mp (mem_reverse.mp hl)
    have harrange : stableSort smallestKey (s.surviving level) =
        (v.levels level).map fun f => f.metadata.bare := by
      rw [h.tables level, arrange, if_neg (by omega)]
    have hmap := (findOverlapping_map_eq_none (fun f : LiveSst => f.metadata.bare)
      smallestKey largestKey (v.levels level)).mpr
        (findOverlap_eq_none.mp ho level hlow hh)
    rw [overlaps_eq_false.mpr (harrange ▸ hmap)]
    exact Bool.false_ne_true
  simp only [Repair.prepare, hn]

theorem joinCounts_of_nodup {counts : UInt64 → Option Deletions}
    (h : (files.map fun p => p.2.fileId).Nodup) : joinCounts counts files = files.map fun p =>
      (p.1, { p.2 with deletions := (counts p.2.fileId).filter fun d => d.fits p.2.numEntries }) := by
  induction files generalizing counts with
  | nil => rfl
  | cons p files ih =>
    rw [map_cons, nodup_cons] at h
    rw [joinCounts, map_cons, ih h.2]
    congr 1
    refine map_congr_left fun q hq => ?_
    have hne : q.2.fileId ≠ p.2.fileId := fun heq => h.1 (heq ▸ mem_map_of_mem hq)
    rw [update_of_ne hne]

/-- Joining the counts gives the version's tables. -/
theorem Mirrors.joinCounts (h : Mirrors v s) (hk : v.Kept) :
    joinCounts s.counts (Repair.listed (fun level => if level = 0 then s.surviving 0
      else stableSort smallestKey (s.surviving level)) maxLevels) =
      v.listedTables.map fun p => (p.1, p.2.metadata) := by
  have hl : Repair.listed (fun level => if level = 0 then s.surviving 0
      else stableSort smallestKey (s.surviving level)) maxLevels =
      v.listedTables.map fun p => (p.1, p.2.metadata.bare) := by
    rw [listedTables_eq, leveled_map (fun f : LiveSst => f.metadata.bare)]
    refine leveled_congr fun level _ => ?_
    rw [h.tables level, arrange]
    split_ifs with h0
    · rw [h0]
    · rfl
  have hnodup : ((v.listedTables.map fun p => (p.1, p.2.metadata.bare)).map
      fun p => p.2.fileId).Nodup := by
    rw [map_map]
    exact hk.nodup_listedTables
  rw [hl, joinCounts_of_nodup hnodup, map_map]
  refine map_congr_left fun p hp => ?_
  have hp := (mem_leveled.mp hp).2
  have hcounts : (s.counts p.2.id).filter (fun d => d.fits p.2.metadata.numEntries) =
      p.2.metadata.deletions := by
    rw [h.counts p.1 p.2 hp]
    cases hd : p.2.metadata.deletions with
    | none => rfl
    | some d => rw [Option.filter_some, if_pos (hk.fits p.1 p.2 hp d hd)]
  exact congrArg (fun d => (p.1, { p.2.metadata with deletions := d })) hcounts

theorem openTables_ok (lastSeq : Seq)
    (h : ∀ p ∈ files, ∃ reader, openTable p.2.fileId p.2.globalSeq = .ok reader) :
    ∃ opened, openTables openTable lastSeq files = .ok opened ∧
      opened.map (fun p => (p.1, p.2.metadata)) = files := by
  induction files with
  | nil => exact ⟨[], rfl, rfl⟩
  | cons p files ih =>
    obtain ⟨reader, hreader⟩ := h p mem_cons_self
    obtain ⟨opened, ho, hf⟩ := ih fun q hq => h q (.tail _ hq)
    refine ⟨(p.1, ⟨lastSeq, p.2, reader⟩) :: opened, ?_, by rw [map_cons, hf]⟩
    rw [openTables] at ho ⊢
    rw [mapM_cons, ho, hreader]
    rfl

theorem versionOf_rebuilds (h : Mirrors v s) (hk : v.Kept) {opened : List (Nat × LiveSst)}
    (ho : opened.map (fun p => (p.1, p.2.metadata)) =
      v.listedTables.map fun p => (p.1, p.2.metadata)) : (versionOf s opened).Rebuilds v := by
  refine ⟨fun level => ?_, h.lastSeq, h.nextFileId, h.minWalId⟩
  have hf : ∀ files : List (Nat × LiveSst),
      ((files.filter fun p => p.1 = level).map Prod.snd).map metadata =
        ((files.map fun p => (p.1, p.2.metadata)).filter fun p => p.1 = level).map Prod.snd := by
    intro files
    rw [filter_map, map_map, map_map]
    rfl
  rw [← hk.filter_listedTables level, hf, ← ho, ← hf]
  rfl

theorem Version.Rebuilds.findOverlap {w v : Version} (h : w.Rebuilds v)
    (hv : v.findOverlap = none) : w.findOverlap = none := by
  rw [findOverlap_eq_none] at hv ⊢
  intro level hlow hh
  have hmap := (findOverlapping_map_eq_none metadata smallestKey
    largestKey (v.levels level)).mpr (hv level hlow hh)
  rw [← h.levels level] at hmap
  exact (findOverlapping_map_eq_none metadata smallestKey largestKey (w.levels level)).mp hmap

/-- A state that mirrors a version without overlaps, all of whose tables open, is replayed to
that version. -/
theorem finishReplay_of_mirrors {r : ReplayedBatches} (h : Mirrors v r.state) (hk : v.Kept) (hovl : v.findOverlap = none)
    (ho : ∀ level, ∀ f ∈ v.levels level,
      ∃ reader, openTable f.id f.metadata.globalSeq = .ok reader)
    (stampLen : Nat) (salt : Option Salt) :
    ∃ replay, finishReplay openTable stampLen salt r = .ok replay ∧ replay.version.Rebuilds v ∧
      replay.validLen = r.validLen ∧ replay.stampLen = stampLen ∧ replay.salt = salt ∧
      replay.repair = Repair.none := by
  have hreaders : ∀ p ∈ v.listedTables.map (fun p => (p.1, p.2.metadata)),
      ∃ reader, openTable p.2.fileId p.2.globalSeq = .ok reader := by
    intro p hp
    obtain ⟨q, hq, rfl⟩ := mem_map.mp hp
    exact ho q.1 q.2 (mem_leveled.mp hq).2
  obtain ⟨opened, hopn, ht⟩ := openTables_ok r.state.lastSeq hreaders
  have hr := versionOf_rebuilds h hk ht
  have hf : (versionOf r.state opened).findOverlap = none := hr.findOverlap hovl
  refine ⟨⟨versionOf r.state opened, r.validLen, stampLen, salt, r.keyIds, Repair.none,
    Repair.none.demotion ((versionOf r.state opened).levels 0), r.state.rangeDeletesChecked⟩, ?_,
    hr, rfl, rfl, rfl, rfl⟩
  simp only [finishReplay, h.prepare hovl, Except.bind, h.joinCounts hk, hopn, hf]

end

end RegolithStore
