import RegolithStore.Lib.Runs
import RegolithStore.Manifest.Tail

/-! The version set (`manifest.rs`, `VersionSet`): the current version and its manifest.
`apply` logs an edit batch, syncs it when it must be, installs the version it leaves, and
rewrites the manifest from that version once the log has grown too long. Every call on the
host may fail. The set is modelled with the file as the host holds it: its bytes, how many
of them a completed sync covered, and, while a rename is not durable, the file it replaced. -/

namespace RegolithStore

open Lib

/-- A file and how many of its bytes a completed sync covered. -/
structure SyncedFile where
  bytes : Bytes
  synced : Nat

structure VersionSet where
  current : Version
  manifestPath : String
  manifestBytes : Nat
  /-- Whether `manifest_writer` is there. -/
  writer : Bool
  droppedTail : Option DroppedTail
  keyring : Option Keyring
  sealing : Option ManifestSeal
  sealedUnder : List UInt32
  demotion : Option Demotion
  unlogged : List ManifestRecord
  rangeDeletesChecked : Bool
  syncCheckRecord : Bool
  manifest : SyncedFile
  /-- What a crash may still bring back in the manifest's place. -/
  replaced : Option SyncedFile

/-- How the host calls of a rewrite go: the salt it draws, writing and syncing the
temporary file, the rename, the sync of the directory, and opening the new log. -/
structure RewriteCalls where
  salt : Except IoError Salt
  aeadNonce : AeadNonce
  temporary : Option IoError
  rename : Option IoError
  parent : Option IoError
  reopen : Option IoError

structure ApplyCalls where
  aeadNonce : AeadNonce
  append : Option WriteFault
  sync : Option IoError
  rewrite : RewriteCalls

def manifestCompactFactor : Nat := 4
def manifestCompactFloor : Nat := 64 * 1024
def approxAddFileRecordBytes : Nat := 256

def Version.listedTables (v : Version) : List (Nat × LiveSst) :=
  (List.range maxLevels).flatMap fun level => (v.levels level).map fun f => (level, f)

namespace VersionSet

def compactThreshold (liveFiles : Nat) : Nat :=
  max manifestCompactFloor
    ((manifestStampLen + liveFiles * approxAddFileRecordBytes) * manifestCompactFactor)

def writerUnavailable (vs : VersionSet) : IoError :=
  ⟨.other, s!"{vs.manifestPath} is not writable; reopen the database before updating the MANIFEST"⟩

/-- How a manifest written whole is sealed. -/
def freshSealing (keyring : Option Keyring) (salt : Except IoError Salt) :
    Except IoError (Option ManifestSeal) :=
  match keyring with
  | some keyring => salt.map fun salt => some ⟨keyring, salt⟩
  | none => .ok none

variable (checks : ManifestChecks)

/-- The manifest of the current version, written from scratch. -/
def image (vs : VersionSet) (sealing : Option ManifestSeal) (aeadNonce : AeadNonce) :
    Except IoError (Bytes × Option UInt32) :=
  Manifest.encodeImage checks vs.current.nextFileId vs.current.lastSeq vs.current.minWalId
    vs.rangeDeletesChecked (vs.current.listedTables.map fun p => (p.1, p.2.metadata)) sealing
    aeadNonce

/-- The rename and what follows it: the log is closed first, and opened again at the end. -/
def replaceManifest (vs : VersionSet) (calls : RewriteCalls) (sealing : Option ManifestSeal)
    (image : Bytes) (sealedUnder : Option UInt32) : Except IoError Unit × VersionSet :=
  match hostCall calls.rename with
  | .error e => (.error e, { vs with writer := false })
  | .ok () =>
    match hostCall calls.parent with
    | .error e => (.error e, { vs with
        writer := false, manifest := ⟨image, image.length⟩, replaced := some vs.manifest })
    | .ok () =>
      let vs := { vs with
        manifest := ⟨image, image.length⟩, manifestBytes := image.length, sealing
        sealedUnder := sealedUnder.toList, unlogged := [], replaced := none }
      match hostCall calls.reopen with
      | .error e => (.error e, { vs with writer := false })
      | .ok () => (.ok (), { vs with writer := true })

def compactManifest (vs : VersionSet) (calls : RewriteCalls) : Except IoError Unit × VersionSet :=
  if !vs.writer then (.error vs.writerUnavailable, vs)
  else
    match freshSealing vs.keyring calls.salt with
    | .error e => (.error e, vs)
    | .ok sealing =>
      match vs.image checks sealing calls.aeadNonce with
      | .error e => (.error e, vs)
      | .ok (image, sealedUnder) =>
        match hostCall calls.temporary with
        | .error e => (.error e, vs)
        | .ok () => vs.replaceManifest calls sealing image sealedUnder

/-- The records a batch of edits is logged as, those the open left for it in front. -/
def batchRecords (vs : VersionSet) (edits : List VersionEdit) : List ManifestRecord :=
  vs.unlogged ++ edits.flatMap VersionEdit.toRecords

/-- The batch records that the range deletes were checked. -/
def recordsCheck (vs : VersionSet) : Bool := vs.unlogged.any (· = .rangeDeletesChecked)

def requiresSync (vs : VersionSet) (edits : List VersionEdit) : Bool :=
  (vs.batchRecords edits).any ManifestRecord.requiresSync ||
    vs.recordsCheck && vs.syncCheckRecord

/-- Append the encoded batch, and sync it when it must be. A failure leaves the writer out. -/
def appendBatch (vs : VersionSet) (encoded : Bytes) (sync : Bool) (calls : ApplyCalls) :
    Except IoError Unit × VersionSet :=
  match writeAll vs.manifest.bytes encoded calls.append with
  | (.error e, bytes) =>
    (.error e, { vs with writer := false, manifest := ⟨bytes, vs.manifest.synced⟩ })
  | (.ok (), bytes) =>
    if sync then
      match hostCall calls.sync with
      | .error e => (.error e, { vs with writer := false, manifest := ⟨bytes, vs.manifest.synced⟩ })
      | .ok () => (.ok (), { vs with manifest := ⟨bytes, bytes.length⟩ })
    else (.ok (), { vs with manifest := ⟨bytes, vs.manifest.synced⟩ })

def install (vs : VersionSet) (version : Version) (encodedLen : Nat) (recordsCheck : Bool)
    (sealedUnder : Option UInt32) : VersionSet :=
  { vs with
    current := version
    manifestBytes := vs.manifestBytes + encodedLen
    rangeDeletesChecked := vs.rangeDeletesChecked || recordsCheck
    sealedUnder := pushKeyId vs.sealedUnder sealedUnder }

def rewriteDue (vs : VersionSet) (recordedMove : Bool) : Bool :=
  (recordedMove && vs.keyring.isSome && vs.sealing.isNone) ||
    decide (compactThreshold vs.current.listedTables.length < vs.manifestBytes)

def apply (vs : VersionSet) (edits : List VersionEdit) (calls : ApplyCalls) :
    Except IoError Unit × VersionSet :=
  match VersionEdit.validate edits with
  | .error e => (.error e, vs)
  | .ok () =>
    match Manifest.encodeRecords checks (vs.batchRecords edits) vs.manifestBytes vs.sealing
        calls.aeadNonce with
    | .error e => (.error e, vs)
    | .ok (encoded, sealedUnder) =>
      -- The records the open left are taken before the writer is.
      let taken := { vs with unlogged := [] }
      if !vs.writer then (.error vs.writerUnavailable, taken)
      else
        match taken.appendBatch encoded (vs.requiresSync edits) calls with
        | (.error e, vs) => (.error e, vs)
        | (.ok (), appended) =>
          let installed := appended.install (vs.current.applyEdits edits) encoded.length
            vs.recordsCheck sealedUnder
          if installed.rewriteDue (vs.unlogged ≠ []) then
            installed.compactManifest checks calls.rewrite
          else (.ok (), installed)

end VersionSet

def nextIdPastTables (nextFileId : UInt64) (highestTable : Option UInt64) : UInt64 :=
  match highestTable with
  | some id => max nextFileId (if id = ⊤ then ⊤ else id + 1)
  | none => nextFileId

namespace VersionSet

variable (checks : ManifestChecks)

/-- A manifest that does not say the range deletes were checked gets the record with the
first edit. -/
def checkOwed (rangeDeletesChecked : Bool) : List ManifestRecord :=
  if rangeDeletesChecked then [] else [.rangeDeletesChecked]

/-- The set of a manifest that holds only its stamp, created with `salt` when there is a
keyring. -/
def created (path : String) (keyring : Option Keyring) (salt : Salt) (version : Version)
    (droppedTail : Option DroppedTail) (unlogged : List ManifestRecord) : VersionSet :=
  let sealing := keyring.map fun keyring => ⟨keyring, salt⟩
  let stamp := Manifest.stampBytes checks (sealing.map ManifestSeal.salt)
  ⟨version, path, stamp.length, true, droppedTail, keyring, sealing, [], none, unlogged, false,
    false, ⟨stamp, stamp.length⟩, none⟩

/-- `open_with_policy` where no manifest exists. -/
def create (path : String) (dir : TableDir) (keyring : Option Keyring) (salt : Salt) : VersionSet :=
  created checks path keyring salt
    { Version.new with nextFileId := nextIdPastTables Version.new.nextFileId dir.highestTable }
    none (checkOwed false)

/-- `open_with_policy` of a manifest, whose damaged end is cut off and whose stamp is written
anew when a crash left it without one. -/
def openExisting (openTable : UInt64 → Option Seq → Except IoError SsTableReader) (path : String)
    (dir : TableDir) (file : SyncedFile) (keyring : Option Keyring) (salt : Salt)
    (calls : RewriteCalls) : Except IoError VersionSet :=
  (replayManifest checks openTable file.bytes keyring).bind fun replay =>
    (judgeEnd checks path dir file.bytes keyring replay).bind fun droppedTail =>
      let version := { replay.version with
        nextFileId := nextIdPastTables replay.version.nextFileId dir.highestTable }
      let unlogged := replay.repair.records ++ checkOwed replay.rangeDeletesChecked
      if replay.stampLen = 0 then
        .ok { created checks path keyring salt version droppedTail unlogged with
          demotion := replay.demotion, rangeDeletesChecked := replay.rangeDeletesChecked }
      else
        let sealing := sealingOf keyring replay.salt
        let set : VersionSet :=
          { current := version, manifestPath := path, manifestBytes := replay.validLen
            writer := true, droppedTail, keyring, sealing
            sealedUnder := replay.keyIds, demotion := replay.demotion, unlogged
            rangeDeletesChecked := replay.rangeDeletesChecked
            syncCheckRecord := !replay.rangeDeletesChecked
            manifest :=
              if replay.validLen < file.bytes.length then
                ⟨file.bytes.take replay.validLen, replay.validLen⟩
              else file
            replaced := none }
        -- A manifest written without encryption is sealed now, unless a record is owed.
        if keyring.isSome && sealing.isNone && unlogged.isEmpty then
          match set.compactManifest checks calls with
          | (.ok (), set) => .ok set
          | (.error e, _) => .error e
        else .ok set

end VersionSet

/-- What happens to an open set: an edit batch, or the key provider naming another current
key. -/
inductive VersionSetOp
  | apply (edits : List VersionEdit) (calls : ApplyCalls)
  | rotate (id : UInt32)

def Keyring.rotate (k : Keyring) (id : UInt32) : Keyring := { k with currentId := id }

namespace VersionSet

/-- The keyring is shared with what seals the batches. -/
def rotate (vs : VersionSet) (id : UInt32) : VersionSet :=
  { vs with
    keyring := vs.keyring.map fun k => k.rotate id
    sealing := vs.sealing.map fun s => { s with keyring := s.keyring.rotate id } }

def step (checks : ManifestChecks) (vs : VersionSet) : VersionSetOp → Option VersionSet
  | .apply edits calls =>
    match vs.apply checks edits calls with
    | (.ok (), vs) => some vs
    | (.error _, _) => none
  | .rotate id => some (vs.rotate id)

end VersionSet

end RegolithStore
