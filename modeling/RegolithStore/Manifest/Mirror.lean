import RegolithStore.Manifest.VersionSet

/-! Replay mirrors the version. The log keeps each level in the order its tables arrived and the
counts by file id; the version keeps each level sorted and the counts in the tables. The two agree
as long as a table is added under an id no listed table has, removed and counted at the level that
lists it, and never given counts that cannot be its own. -/

namespace RegolithStore

open Lib List Function ReplayState Version

variable {l : Nat} {id : UInt64} {β : Type*} {g : LiveSst}

/-- The metadata as a record carries it: without the counts. -/
def SsTableMeta.bare (m : SsTableMeta) : SsTableMeta := { m with deletions := none }

/-- A level's tables as replay orders them, from the order they arrived in. -/
def arrange (level : Nat) (files : List SsTableMeta) : List SsTableMeta :=
  if level = 0 then files else stableSort SsTableMeta.smallestKey files

def Version.ids (v : Version) (level : Nat) : List UInt64 := (v.levels level).map LiveSst.id

/-- What the callers of `apply` keep of every version. -/
structure Version.Kept (v : Version) : Prop where
  nodup : ∀ level, (v.ids level).Nodup
  apart : ∀ {l l' : Nat} {id : UInt64}, id ∈ v.ids l → id ∈ v.ids l' → l = l'
  beyond : ∀ level, maxLevels ≤ level → v.levels level = []
  fits : ∀ level, ∀ f ∈ v.levels level, ∀ d, f.metadata.deletions = some d →
    d.fits f.metadata.numEntries = true
  globalSeq : ∀ level, ∀ f ∈ v.levels level, f.metadata.globalSeq ≠ some 0

/-- What the caller of `apply` promises of an edit, where the version it meets is `v`. -/
def VersionEdit.Promised (v : Version) : VersionEdit → Prop
  | addFile _ f => (∀ l, f.id ∉ v.ids l) ∧ f.metadata.globalSeq ≠ some 0 ∧
      ∀ d, f.metadata.deletions = some d → d.fits f.metadata.numEntries = true
  | removeFile level fileId => ∀ l, l ≠ level → fileId ∉ v.ids l
  | countFile level fileId d => ∃ f ∈ v.levels level, f.id = fileId ∧
      d.fits f.metadata.numEntries = true
  | _ => True

def Version.Promises : Version → List VersionEdit → Prop
  | _, [] => True
  | v, e :: es => e.Promised v ∧ (e.apply v).Promises es

/-- The state replay reaches and the version it will make of it. -/
structure Mirrors (v : Version) (s : ReplayState) : Prop where
  tables : ∀ level, (v.levels level).map (fun f => f.metadata.bare) =
    arrange level (s.surviving level)
  counts : ∀ level, ∀ f ∈ v.levels level, s.counts f.id = f.metadata.deletions
  listed : ∀ id d, s.counts id = some d → ∃ level, id ∈ v.ids level
  lastSeq : s.lastSeq = v.lastSeq
  nextFileId : s.nextFileId = v.nextFileId
  minWalId : s.minWalId = v.minWalId

theorem arrange_concat (level : Nat) (files : List SsTableMeta) (m : SsTableMeta) :
    arrange level (files ++ [m]) = if level = 0 then arrange level files ++ [m]
      else insertRun SsTableMeta.smallestKey m (arrange level files) := by
  simp only [arrange]
  split_ifs
  · rfl
  · exact stableSort_concat files m

theorem arrange_filter (level : Nat) (files : List SsTableMeta) (p : SsTableMeta → Bool) :
    arrange level (files.filter p) = (arrange level files).filter p := by
  simp only [arrange]
  split_ifs
  · rfl
  · exact stableSort_filter files p

section Edit

variable {v : Version} {s : ReplayState} {fileId : UInt64} {level : Nat} {f : LiveSst}
  {d : Deletions} {edits : List VersionEdit} {e : VersionEdit}

theorem Version.levels_addFile (v : Version) (level : Nat) (f : LiveSst) :
    (v.addFile level f).levels level =
      if level = 0 then v.levels level ++ [f] else insertRun LiveSst.smallest f (v.levels level) := by
  simp [Version.addFile]

theorem Version.levels_addFile_of_ne (v : Version) {level : Nat} (h : l ≠ level) (f : LiveSst) :
    (v.addFile level f).levels l = v.levels l := by
  simp [Version.addFile, h]

theorem Mirrors.addFile_tables (h : Mirrors v s) (level : Nat) (f : LiveSst) (l : Nat) :
    ((v.addFile level f).levels l).map (fun g => g.metadata.bare) =
      arrange l ((s.replay (.addFile level f.metadata.bare)).surviving l) := by
  rcases eq_or_ne l level with rfl | hl
  · simp only [replay, update_self]
    rw [levels_addFile, arrange_concat, ← h.tables l]
    split_ifs
    · rw [map_append, map_singleton]
    · exact map_insertRun LiveSst.smallest SsTableMeta.smallestKey (fun g => g.metadata.bare)
        (fun _ => rfl) f _
  · simp only [replay, update_of_ne hl]
    rw [v.levels_addFile_of_ne hl, h.tables l]

/-! What an edit makes of the ids. -/

theorem Version.id_mem_ids (h : f ∈ v.levels level) : f.id ∈ v.ids level :=
  mem_map_of_mem h

theorem Version.ids_addFile_perm (v : Version) (level : Nat) (f : LiveSst) :
    ((v.addFile level f).ids level).Perm (f.id :: v.ids level) := by
  rw [Version.ids, levels_addFile]
  split_ifs
  · rw [map_append, map_singleton]
    exact perm_append_singleton _ _
  · exact (insertRun_perm f _).map _

theorem Version.mem_ids_addFile {level : Nat} :
    id ∈ (v.addFile level f).ids l ↔ id ∈ v.ids l ∨ l = level ∧ id = f.id := by
  rcases eq_or_ne l level with rfl | hl
  · rw [(v.ids_addFile_perm l f).mem_iff, mem_cons]
    tauto
  · simp [Version.ids, v.levels_addFile_of_ne hl, hl]

theorem Version.ids_removeFile (v : Version) (level : Nat) (fileId : UInt64) (l : Nat) :
    (v.removeFile level fileId).ids l =
      if l = level then (v.ids l).filter fun id => id ≠ fileId else v.ids l := by
  simp only [Version.ids, Version.removeFile]
  split_ifs with hl
  · rw [hl, update_self, filter_map]
    rfl
  · rw [update_of_ne hl]

theorem Version.mem_ids_removeFile {level : Nat} {fileId : UInt64} :
    id ∈ (v.removeFile level fileId).ids l ↔ id ∈ v.ids l ∧ (l = level → id ≠ fileId) := by
  rw [ids_removeFile]
  split_ifs with hl
  · simp [hl]
  · simp [hl]

theorem Version.map_countFirst (proj : LiveSst → β) (fileId : UInt64) (d : Deletions)
    (hproj : ∀ f : LiveSst, proj { f with metadata := { f.metadata with deletions := some d } } =
      proj f) (files : List LiveSst) :
    (countFirst fileId d files).map proj = files.map proj := by
  induction files with
  | nil => rfl
  | cons f files ih =>
    rw [countFirst]
    split_ifs
    · rw [map_cons, map_cons, hproj]
    · rw [map_cons, map_cons, ih]

theorem Version.map_levels_countFile (proj : LiveSst → β) (d : Deletions)
    (hproj : ∀ f : LiveSst, proj { f with metadata := { f.metadata with deletions := some d } } =
      proj f) (v : Version) (level : Nat) (fileId : UInt64) (l : Nat) :
    ((v.countFile level fileId d).levels l).map proj = (v.levels l).map proj := by
  rw [Version.countFile]
  cases (v.levels level).find? fun f => f.id = fileId with
  | none => rfl
  | some slot =>
    dsimp only
    rcases eq_or_ne l level with rfl | hl
    · rw [update_self, map_countFirst proj fileId d hproj]
    · rw [update_of_ne hl]

theorem Version.ids_countFile (v : Version) (level : Nat) (fileId : UInt64) (d : Deletions)
    (l : Nat) : (v.countFile level fileId d).ids l = v.ids l :=
  map_levels_countFile LiveSst.id d (fun _ => rfl) v level fileId l

theorem Version.mem_countFirst {files : List LiveSst} (hnodup : (files.map LiveSst.id).Nodup) (hg : g ∈ countFirst fileId d files) : (∃ f ∈ files, f.id = fileId ∧
      g = { f with metadata := { f.metadata with deletions := some d } }) ∨
      g ∈ files ∧ g.id ≠ fileId := by
  induction files with
  | nil => cases hg
  | cons f files ih =>
    rw [map_cons, nodup_cons] at hnodup
    rw [countFirst] at hg
    split_ifs at hg with hid
    · rcases mem_cons.mp hg with rfl | hg
      · exact .inl ⟨f, mem_cons_self, hid, rfl⟩
      · refine .inr ⟨mem_cons_of_mem _ hg, fun hgid => hnodup.1 ?_⟩
        exact mem_map.mpr ⟨g, hg, hgid.trans hid.symm⟩
    · rcases mem_cons.mp hg with rfl | hg
      · exact .inr ⟨mem_cons_self, hid⟩
      · rcases ih hnodup.2 hg with ⟨f', hf', h⟩ | ⟨hg, hne⟩
        · exact .inl ⟨f', mem_cons_of_mem _ hf', h⟩
        · exact .inr ⟨mem_cons_of_mem _ hg, hne⟩

theorem Version.levels_countFile (hf : f ∈ v.levels level) (hid : f.id = fileId) (d : Deletions) :
    (v.countFile level fileId d).levels =
      update v.levels level (countFirst fileId d (v.levels level)) := by
  rw [Version.countFile]
  cases hfind : (v.levels level).find? fun f => f.id = fileId with
  | none =>
    have := find?_eq_none.mp hfind f hf
    simp [hid] at this
  | some slot => rfl

theorem Version.Kept.mem_countFile (hk : v.Kept) {level : Nat} {f : LiveSst}
    (hf : f ∈ v.levels level) (hid : f.id = fileId)
    (hg : g ∈ (v.countFile level fileId d).levels l) :
    (l = level ∧ g = { f with metadata := { f.metadata with deletions := some d } }) ∨
      g ∈ v.levels l ∧ g.id ≠ fileId := by
  rw [levels_countFile hf hid] at hg
  rcases eq_or_ne l level with rfl | hl
  · rw [update_self] at hg
    rcases mem_countFirst (hk.nodup l) hg with ⟨f', hf', hid', rfl⟩ | hg
    · have hff : f' = f := inj_on_of_nodup_map (hk.nodup l) hf' hf (hid'.trans hid.symm)
      exact .inl ⟨rfl, hff ▸ rfl⟩
    · exact .inr hg
  · rw [update_of_ne hl] at hg
    refine .inr ⟨hg, fun hgid => hl (hk.apart (id_mem_ids hg) ?_)⟩
    rw [hgid, ← hid]
    exact id_mem_ids hf

/-! The records of an edit keep the replay state in step with the version. -/

variable (h : Mirrors v s)

include h

/-- A table added, and its records. -/
theorem Mirrors.addFile (hfr : ∀ l, f.id ∉ v.ids l) :
    Mirrors (v.addFile level f) (s.replayAll ((pushTable level f.metadata).map .bare)) := by
  have hn : s.counts f.id = none := by
    cases hc : s.counts f.id with
    | none => rfl
    | some d =>
      obtain ⟨l, hl⟩ := h.listed f.id d hc
      exact absurd hl (hfr l)
  have ht := h.addFile_tables level f
  have hmem : ∀ l g, g ∈ (v.addFile level f).levels l → g = f ∨ g ∈ v.levels l ∧ g.id ≠ f.id := by
    intro l g hg
    rcases mem_addFile.mp hg with hg | ⟨-, rfl⟩
    · exact .inr ⟨hg, fun hid => hfr l (hid ▸ id_mem_ids hg)⟩
    · exact .inl rfl
  cases hd : f.metadata.deletions with
  | none =>
    have hr : s.replayAll ((pushTable level f.metadata).map .bare) =
        s.replay (.addFile level f.metadata.bare) := by
      rw [pushTable, hd]
      rfl
    rw [hr]
    refine ⟨ht, fun l g hg => ?_, fun id d hc => ?_, h.lastSeq, h.nextFileId, h.minWalId⟩
    · rcases hmem l g hg with rfl | ⟨hg, -⟩
      · exact hn.trans hd.symm
      · exact h.counts l g hg
    · obtain ⟨l, hl⟩ := h.listed id d hc
      exact ⟨l, mem_ids_addFile.mpr (.inl hl)⟩
  | some counted =>
    have hr : s.replayAll ((pushTable level f.metadata).map .bare) =
        (s.replay (.addFile level f.metadata.bare)).replay (.tableCounts f.id counted) := by
      rw [pushTable, hd]
      rfl
    rw [hr]
    refine ⟨ht, fun l g hg => ?_, fun id d hc => ?_, h.lastSeq, h.nextFileId, h.minWalId⟩
    · simp only [replay]
      rcases hmem l g hg with rfl | ⟨hg, hne⟩
      · rw [update_self, hd]
      · rw [update_of_ne hne, h.counts l g hg]
    · simp only [replay] at hc
      rcases eq_or_ne id f.id with rfl | hne
      · exact ⟨level, mem_ids_addFile.mpr (.inr ⟨rfl, rfl⟩)⟩
      · rw [update_of_ne hne] at hc
        obtain ⟨l, hl⟩ := h.listed id d hc
        exact ⟨l, mem_ids_addFile.mpr (.inl hl)⟩

theorem Mirrors.removeFile (hthere : ∀ l, l ≠ level → fileId ∉ v.ids l) :
    Mirrors (v.removeFile level fileId) (s.replay (.removeFile level fileId)) := by
  refine ⟨fun l => ?_, fun l g hg => ?_, fun id d hc => ?_, h.lastSeq, h.nextFileId, h.minWalId⟩
  · simp only [replay, Version.removeFile]
    rcases eq_or_ne l level with rfl | hl
    · rw [update_self, update_self, arrange_filter, ← h.tables l, filter_map]
      rfl
    · rw [update_of_ne hl, update_of_ne hl, h.tables l]
  · obtain ⟨hg, hne⟩ := mem_removeFile.mp hg
    have hne : g.id ≠ fileId := by
      intro hid
      rcases eq_or_ne l level with hl | hl
      · exact hne hl hid
      · exact hthere l hl (hid ▸ id_mem_ids hg)
    simp only [replay]
    rw [update_of_ne hne, h.counts l g hg]
  · simp only [replay] at hc
    rcases eq_or_ne id fileId with rfl | hne
    · simp at hc
    · rw [update_of_ne hne] at hc
      obtain ⟨l, hl⟩ := h.listed id d hc
      exact ⟨l, mem_ids_removeFile.mpr ⟨hl, fun _ => hne⟩⟩

theorem Mirrors.countFile (hk : v.Kept) (hf : f ∈ v.levels level) (hid : f.id = fileId) : Mirrors
    (v.countFile level fileId d) (s.replay (.tableCounts fileId d)) := by
  have hscalars : (v.countFile level fileId d).lastSeq = v.lastSeq ∧
      (v.countFile level fileId d).nextFileId = v.nextFileId ∧
      (v.countFile level fileId d).minWalId = v.minWalId := by
    rw [Version.countFile]
    cases (v.levels level).find? fun f => f.id = fileId <;> exact ⟨rfl, rfl, rfl⟩
  refine ⟨fun l => ?_, fun l g hg => ?_, fun id e hc => ?_, h.lastSeq.trans hscalars.1.symm,
    h.nextFileId.trans hscalars.2.1.symm, h.minWalId.trans hscalars.2.2.symm⟩
  · rw [map_levels_countFile (fun g => g.metadata.bare) d (fun _ => rfl)]
    exact h.tables l
  · simp only [replay]
    rcases hk.mem_countFile hf hid hg with ⟨-, rfl⟩ | ⟨hg, hne⟩
    · have hself : LiveSst.id { f with metadata := { f.metadata with deletions := some d } } =
          fileId := hid
      rw [hself, update_self]
    · rw [update_of_ne hne, h.counts l g hg]
  · simp only [replay] at hc
    simp only [ids_countFile]
    rcases eq_or_ne id fileId with rfl | hne
    · exact ⟨level, hid ▸ id_mem_ids hf⟩
    · rw [update_of_ne hne] at hc
      exact h.listed id e hc

/-- One edit and its records keep the two in step. -/
theorem Mirrors.apply (hk : v.Kept) (he : e.Promised v) :
    Mirrors (e.apply v) (s.replayAll (e.toRecords.map .bare)) := by
  cases e with
  | addFile level f => exact h.addFile he.1
  | removeFile level fileId => exact h.removeFile he
  | countFile level fileId d =>
    obtain ⟨f, hf, hid, -⟩ := he
    exact h.countFile hk hf hid
  | setLastSeq seq =>
    refine ⟨h.tables, h.counts, h.listed, ?_, h.nextFileId, h.minWalId⟩
    exact congrArg (raisedLastSeq · seq) h.lastSeq
  | setNextFileId id => exact ⟨h.tables, h.counts, h.listed, h.lastSeq, rfl, h.minWalId⟩
  | setMinWalId id => exact ⟨h.tables, h.counts, h.listed, h.lastSeq, h.nextFileId, rfl⟩
  | reset nextFileId minWalId =>
    refine ⟨fun l => ?_, fun l g hg => ?_, fun id d hc => ?_, rfl, rfl, rfl⟩
    · by_cases hl : l = 0 <;> simp [VersionEdit.apply, VersionEdit.toRecords, ManifestRecord.bare,
        replayAll, replay, arrange, hl, stableSort]
    · cases hg
    · cases hc

omit h

/-! An edit the caller may make keeps what they promise. -/

theorem Version.Kept.addFile (hk : v.Kept) (hlvl : level < maxLevels)
    (he : (VersionEdit.addFile level f).Promised v) : (v.addFile level f).Kept := by
  obtain ⟨hfr, hglobal, hf⟩ := he
  have hmem : ∀ l g, g ∈ (v.addFile level f).levels l → g = f ∨ g ∈ v.levels l := by
    intro l g hg
    rcases mem_addFile.mp hg with hg | ⟨-, rfl⟩
    · exact .inr hg
    · exact .inl rfl
  refine ⟨fun l => ?_, fun {l l' id} hl hl' => ?_, fun l hl => ?_, fun l g hg => ?_,
    fun l g hg => ?_⟩
  · rcases eq_or_ne l level with rfl | hne
    · exact (v.ids_addFile_perm l f).nodup_iff.mpr (nodup_cons.mpr ⟨hfr l, hk.nodup l⟩)
    · rw [Version.ids, v.levels_addFile_of_ne hne]
      exact hk.nodup l
  · rcases mem_ids_addFile.mp hl with hold | ⟨hlv, hid⟩ <;>
      rcases mem_ids_addFile.mp hl' with hold' | ⟨hlv', hid'⟩
    · exact hk.apart hold hold'
    · exact absurd (hid' ▸ hold) (hfr l)
    · exact absurd (hid ▸ hold') (hfr l')
    · exact hlv.trans hlv'.symm
  · rw [v.levels_addFile_of_ne (by omega)]
    exact hk.beyond l hl
  · rcases hmem l g hg with rfl | hg
    · exact hf
    · exact hk.fits l g hg
  · rcases hmem l g hg with rfl | hg
    · exact hglobal
    · exact hk.globalSeq l g hg

theorem Version.Kept.removeFile (hk : v.Kept) (level : Nat) (fileId : UInt64) :
    (v.removeFile level fileId).Kept := by
  refine ⟨fun l => ?_, fun hl hl' => ?_, fun l hl => ?_, fun l g hg => ?_, fun l g hg => ?_⟩
  · rw [ids_removeFile]
    split_ifs
    · exact (hk.nodup l).filter _
    · exact hk.nodup l
  · exact hk.apart (mem_ids_removeFile.mp hl).1 (mem_ids_removeFile.mp hl').1
  · refine eq_nil_iff_forall_not_mem.mpr fun g hg => ?_
    have := (mem_removeFile.mp hg).1
    simp [hk.beyond l hl] at this
  · exact hk.fits l g (mem_removeFile.mp hg).1
  · exact hk.globalSeq l g (mem_removeFile.mp hg).1

theorem Version.Kept.countFile (hk : v.Kept)
    (he : (VersionEdit.countFile level fileId d).Promised v) :
    (v.countFile level fileId d).Kept := by
  obtain ⟨f, hf, hid, hfits⟩ := he
  refine ⟨fun l => ?_, fun hl hl' => ?_, fun l hl => ?_, fun l g hg => ?_, fun l g hg => ?_⟩
  · rw [ids_countFile]
    exact hk.nodup l
  · rw [ids_countFile] at hl hl'
    exact hk.apart hl hl'
  · have hids := ids_countFile v level fileId d l
    rw [Version.ids, Version.ids, hk.beyond l hl] at hids
    exact map_eq_nil_iff.mp hids
  · rcases hk.mem_countFile hf hid hg with ⟨-, rfl⟩ | ⟨hg, -⟩
    · rintro e ⟨⟩
      exact hfits
    · exact hk.fits l g hg
  · rcases hk.mem_countFile hf hid hg with ⟨-, rfl⟩ | ⟨hg, -⟩
    · exact hk.globalSeq level f hf
    · exact hk.globalSeq l g hg

/-- The level an edit names, where it names one, exists. -/
def VersionEdit.InRange (e : VersionEdit) : Prop := ∀ level, e.level? = some level → level < maxLevels

theorem Version.Kept.apply (hk : v.Kept) (hr : e.InRange)
    (he : e.Promised v) : (e.apply v).Kept := by
  cases e with
  | addFile level f => exact hk.addFile (hr level rfl) he
  | removeFile level fileId => exact hk.removeFile level fileId
  | countFile level fileId d => exact hk.countFile he
  | setLastSeq _ | setNextFileId _ | setMinWalId _ =>
    exact ⟨hk.nodup, hk.apart, hk.beyond, hk.fits, hk.globalSeq⟩
  | reset _ _ =>
    exact ⟨fun _ => nodup_nil, nofun, fun _ _ => rfl,
      nofun, nofun⟩

theorem VersionEdit.validate_eq_ok (h : validate edits = .ok ()) : ∀ e ∈ edits, e.InRange := by
  induction edits with
  | nil => simp
  | cons e edits ih =>
    rw [validate, forM_eq_forM, forM_cons] at h
    cases hlvl : e.level? with
    | none =>
      rw [hlvl] at h
      intro e' he'
      rcases mem_cons.mp he' with rfl | he'
      · simp [InRange, hlvl]
      · exact ih h e' he'
    | some level =>
      rw [hlvl, Option.elim_some, validateLevelIndex] at h
      split_ifs at h with hl
      · intro e' he'
        rcases mem_cons.mp he' with rfl | he'
        · rintro l hl'
          rw [hlvl] at hl'
          exact Option.some.inj hl' ▸ hl
        · exact ih h e' he'
      · cases h

theorem Mirrors.applyEdits (h : Mirrors v s) (hk : v.Kept)
    (hr : ∀ e ∈ edits, e.InRange) (hp : v.Promises edits) :
    Mirrors (v.applyEdits edits) (s.replayAll ((edits.flatMap VersionEdit.toRecords).map .bare)) ∧
      (v.applyEdits edits).Kept := by
  induction edits generalizing v s with
  | nil => exact ⟨h, hk⟩
  | cons e edits ih =>
    rw [flatMap_cons, map_append, replayAll_append, applyEdits_cons]
    exact ih (h.apply hk hp.1) (hk.apply (hr e mem_cons_self) hp.1)
      (fun e' he' => hr e' (.tail _ he')) hp.2

end Edit

end RegolithStore
