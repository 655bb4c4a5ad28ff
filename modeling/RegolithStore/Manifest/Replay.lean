import RegolithStore.Manifest.Batch

/-! Replay of a manifest (`replay_manifest`, `manifest/legacy_overlap.rs`). The first pass
walks the batches and keeps, level by level, the tables in the order they arrived, and the
counts by file id. A level below L0 whose tables overlap is moved to L0 with everything
above it; the other levels are sorted by smallest key. The second pass joins the counts and
opens a reader for each table that is left. -/

namespace RegolithStore

open Lib Function SsTableMeta

structure ReplayState where
  surviving : Nat → List SsTableMeta
  counts : UInt64 → Option Deletions
  lastSeq : Seq
  nextFileId : UInt64
  minWalId : UInt64
  rangeDeletesChecked : Bool

variable (s : ReplayState)

namespace ReplayState

def new : ReplayState := ⟨fun _ => [], fun _ => none, 0, 1, 0, false⟩

def replay : ManifestRecord → ReplayState
  | .addFile level m =>
    { s with surviving := update s.surviving level (s.surviving level ++ [m]) }
  | .removeFile level fileId =>
    { s with
      surviving := update s.surviving level
        ((s.surviving level).filter fun m => m.fileId ≠ fileId)
      counts := update s.counts fileId none }
  | .tableCounts fileId deletions =>
    { s with counts := update s.counts fileId (some deletions) }
  | .setLastSeq seq => { s with lastSeq := raisedLastSeq s.lastSeq seq }
  | .setNextFileId id => { s with nextFileId := id }
  | .setMinWalId id => { s with minWalId := id }
  | .reset nextFileId minWalId =>
    { s with
      surviving := fun _ => [], counts := fun _ => none, lastSeq := 0, nextFileId, minWalId }
  | .rangeDeletesChecked => { s with rangeDeletesChecked := true }

def replayAll (records : List ManifestRecord) : ReplayState :=
  records.foldl replay s

theorem replayAll_append (rs rs' : List ManifestRecord) :
    s.replayAll (rs ++ rs') = (s.replayAll rs).replayAll rs' := List.foldl_append

end ReplayState

/-- What the loop over the batches leaves: the state, the end of the last whole batch, and
the keys the batches were sealed under. -/
structure ReplayedBatches where
  state : ReplayState
  validLen : Nat
  keyIds : List UInt32

/-- A key seen once is listed once. -/
def pushKeyId (ids : List UInt32) (id : Option UInt32) : List UInt32 :=
  match id with
  | some id => if id ∈ ids then ids else ids ++ [id]
  | none => ids

section Batches

variable (checks : ManifestChecks) (data : Bytes) (sealing : Option ManifestSeal)

/-- The loop over the batches. The first that does not read back whole ends it; every one
takes a byte at least. -/
def replayFrom : Nat → ReplayedBatches → Except IoError ReplayedBatches
  | 0, r => .ok r
  | turns + 1, r =>
    if r.validLen < data.length then
      match Manifest.batchAt checks data r.validLen with
      | none => .ok r
      | some batch =>
        (Manifest.openRecords sealing r.validLen batch.records).bind fun opened =>
          (ManifestRecord.decodeAll opened.2).bind fun records =>
            replayFrom turns
              ⟨r.state.replayAll records, batch.stop, pushKeyId r.keyIds opened.1⟩
    else .ok r

end Batches

/-- `overlaps`: whether two tables of a level meet beyond a shared boundary key. -/
def overlaps (files : List SsTableMeta) : Bool :=
  let sorted :=
    if files.IsChain fun a b => a.smallestKey ≤ b.smallestKey then files
    else stableSort smallestKey files
  (findOverlapping smallestKey largestKey sorted).isSome

structure Repair where
  records : List ManifestRecord
  tables : Nat
  deepestLevel : Nat

namespace Repair

def none : Repair := ⟨[], 0, 0⟩

/-- The first table listed a second time below L0. -/
def firstRepeated : List UInt64 → List (Nat × SsTableMeta) → Option UInt64
  | _, [] => .none
  | seen, (level, m) :: rest =>
    if m.fileId ∈ seen ∧ 0 < level then some m.fileId else firstRepeated (m.fileId :: seen) rest

def listed (levels : Nat → List SsTableMeta) (count : Nat) : List (Nat × SsTableMeta) :=
  (List.range count).flatMap fun level => (levels level).map fun m => (level, m)

/-- Move everything through the deepest overlapping level into L0: deep levels, shallow
levels, then what L0 held. -/
def prepare (levels : Nat → List SsTableMeta) :
    Except IoError (Repair × (Nat → List SsTableMeta)) :=
  match (((List.range maxLevels).drop 1).reverse).find? fun level => overlaps (levels level) with
  | .none => .ok (none, levels)
  | some deepestLevel =>
    let moved := listed levels (deepestLevel + 1)
    match firstRepeated [] moved with
    | some fileId => .error ⟨.invalidData, s!"manifest lists table {fileId.toNat} more than once " ++
        "below level 0, which no release writes: the file is damaged"⟩
    | .none =>
      let l0 := (((List.range (deepestLevel + 1)).drop 1).reverse.flatMap levels) ++ levels 0
      .ok (⟨(moved.map fun p => .removeFile p.1 p.2.fileId) ++ l0.map (.addFile 0),
          (moved.filter fun p => 0 < p.1).length, deepestLevel⟩,
        fun level => if level = 0 then l0 else if level ≤ deepestLevel then [] else levels level)

end Repair

structure Demotion where
  tables : Nat
  deepestLevel : Nat
  rangeDeletes : List RangeTombstone

/-- What the repair moved, given the L0 it left: the moved tables are its oldest. -/
def Repair.demotion (r : Repair) (l0 : List LiveSst) : Option Demotion :=
  if r.records = [] then .none
  else some ⟨r.tables, r.deepestLevel, coalesced ((l0.take r.tables).flatMap LiveSst.tombstones)⟩

/-- Each table takes the counts recorded for it; those that cannot be its own are not
believed. -/
def joinCounts : (UInt64 → Option Deletions) → List (Nat × SsTableMeta) → List (Nat × SsTableMeta)
  | _, [] => []
  | counts, (level, m) :: rest =>
    (level, { m with deletions := (counts m.fileId).filter fun d => d.fits m.numEntries }) ::
      joinCounts (update counts m.fileId none) rest

structure ManifestReplay where
  version : Version
  validLen : Nat
  stampLen : Nat
  salt : Option Salt
  keyIds : List UInt32
  repair : Repair
  demotion : Option Demotion
  rangeDeletesChecked : Bool

section Replay

variable (checks : ManifestChecks) (openTable : UInt64 → Option Seq → Except IoError SsTableReader)

/-- A reader for every table; the first that does not open fails the replay. -/
def openTables (lastSeq : Seq) (files : List (Nat × SsTableMeta)) :
    Except IoError (List (Nat × LiveSst)) :=
  files.mapM fun p => (openTable p.2.fileId p.2.globalSeq).map fun reader =>
    (p.1, ⟨lastSeq, p.2, reader⟩)

def versionOf (opened : List (Nat × LiveSst)) : Version :=
  { levels := fun level => (opened.filter fun p => p.1 = level).map Prod.snd
    nextFileId := s.nextFileId
    lastSeq := s.lastSeq
    minWalId := s.minWalId
    uncounted := (opened.map fun p => Version.uncountedOf p.2).sum }

/-- What follows the batches: the repair, the sort, the counts and the readers. -/
def finishReplay (stampLen : Nat) (salt : Option Salt) (r : ReplayedBatches) :
    Except IoError ManifestReplay :=
  (Repair.prepare r.state.surviving).bind fun p =>
    let sorted := fun level => if level = 0 then p.2 0 else stableSort smallestKey (p.2 level)
    (openTables openTable r.state.lastSeq
      (joinCounts r.state.counts (Repair.listed sorted maxLevels))).bind fun opened =>
        let version := versionOf r.state opened
        match version.findOverlap with
        | some (level, left, right) => .error ⟨.invalidData,
            s!"manifest lists tables {left.id.toNat} and {right.id.toNat} at level {level} with " ++
            "overlapping key ranges"⟩
        | none => .ok ⟨version, r.validLen, stampLen, salt, r.keyIds, p.1,
            p.1.demotion (version.levels 0), r.state.rangeDeletesChecked⟩

def sealingOf (keyring : Option Keyring) (salt : Option Salt) : Option ManifestSeal :=
  match keyring, salt with
  | some keyring, some salt => some ⟨keyring, salt⟩
  | _, _ => none

def replayManifest (data : Bytes) (keyring : Option Keyring) : Except IoError ManifestReplay :=
  (Manifest.stampLen checks data keyring).bind fun stamp =>
    (replayFrom checks data (sealingOf keyring stamp.2) data.length
      ⟨ReplayState.new, stamp.1, []⟩).bind (finishReplay openTable stamp.1 stamp.2)

end Replay

end RegolithStore
