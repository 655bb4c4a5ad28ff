import RegolithStore.Manifest.Atomic
import RegolithStore.Store.View

/-! Flushing (`flush.rs`, `version_store.rs`). A flush takes the oldest frozen memtable,
records the file id of its table, writes the table, and in one section of the version store
applies the edit that adds it and asks for the memtable to be retired; the end of a section
publishes the version it left, with what it asked for. Each of these is one step, so that
rotations and the sections of compactions and ingests come between them, and every call on
the host may fail. A flush that fails is dropped, and a later one starts over. Which memtable
a file id was taken for is recorded beside the store. -/

namespace RegolithStore

open Lib

structure FlushJob where
  memtable : MemTable
  fileId : Option UInt64
  table : Option LiveSst

structure FlushStore where
  versions : VersionSet
  view : ReadView
  job : Option FlushJob
  nextIdentity : Nat
  /-- The file ids flushes took, and the memtables they took them for. -/
  taken : List (UInt64 × Nat)

inductive FlushOp
  /-- What the active memtable holds after more writes. -/
  | write (entries : List Entry) (rangeTombstones : List RangeTombstone)
  | rotate (seq : Seq) (wal : Option UInt64)
  | begin
  | takeFileId (calls : ApplyCalls)
  | writeTable (written : Except IoError UInt64)
  | install (calls : ApplyCalls)
  /-- A section of something else: a compaction, an ingest, a rotation. -/
  | «section» (edits : List VersionEdit) (calls : ApplyCalls)

def Version.listedIds (v : Version) : List UInt64 := v.listedTables.map fun p => p.2.id

namespace FlushStore

variable (checks : ManifestChecks) (s : FlushStore)

/-- The end of a section that left `versions`: what changed is published, and the memtable the
section retires leaves with it. -/
def endSection (versions : VersionSet) (retire : Option MemTable) : FlushStore :=
  { s with versions, view := s.view.publishVersion versions.current retire }

/-- `flush_oldest_inner` up to the file id. A memtable with nothing in it is only retired. -/
def begin : FlushStore :=
  match s.view.frozen.head? with
  | none => s
  | some memtable =>
    if memtable.isEmpty && memtable.rangeTombstones.isEmpty then
      { s with view := s.view.retireMemtable memtable }
    else { s with job := some ⟨memtable, none, none⟩ }

variable (memtable : MemTable)

def takeFileId (calls : ApplyCalls) : FlushStore :=
  let id := s.versions.current.nextFileId
  match s.versions.apply checks [.setNextFileId (id + 1)] calls with
  | (.ok (), versions) =>
    { s.endSection versions none with
      job := some ⟨memtable, some id, none⟩, taken := (id, memtable.identity) :: s.taken }
  | (.error _, versions) => { s.endSection versions none with job := none }

def writeTable (fileId : UInt64)
    (written : Except IoError UInt64) : FlushStore :=
  match written with
  | .error _ => { s with job := none }
  | .ok fileSize =>
    match memtable.flushTable ⟨fileId, fileSize⟩ with
    | none => { s with view := s.view.retireMemtable memtable, job := none }
    | some table => { s with job := some ⟨memtable, some fileId, some table⟩ }

/-- The section that installs the table. Only a section that got through `apply` retires the
memtable. -/
def install (table : LiveSst) (calls : ApplyCalls) :
    FlushStore :=
  match memtable.sealedSeq with
  | none => { s with job := none }
  | some seq =>
    match s.versions.apply checks (memtable.flushEdits table seq) calls with
    | (.ok (), versions) => { s.endSection versions (some memtable) with job := none }
    | (.error _, versions) => { s.endSection versions none with job := none }

/-- What another section may do: it lists no table under an id a flush took unless that table
was listed, and keeps the next file id above the ids it lists. -/
def allows (edits : List VersionEdit) : Bool :=
  let version := s.versions.current.applyEdits edits
  decide (s.versions.current.nextFileId ≤ version.nextFileId) &&
    version.listedIds.all fun id => decide (id < version.nextFileId) &&
      (!(s.taken.map Prod.fst).contains id || s.versions.current.listedIds.contains id)

/-- One step. A step that does not fit the flush under way is refused, and so is taking an id
past the last one. -/
def step : FlushOp → Option FlushStore
  | .write entries rangeTombstones =>
    some { s with view := { s.view with active := { s.view.active with entries, rangeTombstones } } }
  | .rotate seq wal =>
    some { s with
      view := s.view.rotate seq wal (.new s.nextIdentity), nextIdentity := s.nextIdentity + 1 }
  | .begin => if s.job.isNone then some s.begin else none
  | .takeFileId calls =>
    match s.job with
    | some ⟨memtable, none, _⟩ =>
      if s.versions.current.nextFileId = ⊤ then none else some (s.takeFileId checks memtable calls)
    | _ => none
  | .writeTable written =>
    match s.job with
    | some ⟨memtable, some fileId, none⟩ => some (s.writeTable memtable fileId written)
    | _ => none
  | .install calls =>
    match s.job with
    | some ⟨memtable, some _, some table⟩ => some (s.install checks memtable table calls)
    | _ => none
  | .section edits calls =>
    if s.allows edits then
      some (s.endSection (s.versions.apply checks edits calls).2 none)
    else none

/-- The sources of the published view are disjoint: it holds no memtable beside a table its
flush wrote, and no two tables of one memtable. -/
def Disjoint : Prop :=
  (∀ m ∈ s.view.frozen, ∀ p ∈ s.view.version.listedTables, (p.2.id, m.identity) ∉ s.taken) ∧
  ∀ p ∈ s.view.version.listedTables, ∀ q ∈ s.view.version.listedTables, ∀ identity,
    (p.2.id, identity) ∈ s.taken → (q.2.id, identity) ∈ s.taken → p.2.id = q.2.id

/-- A store just opened: nothing is frozen, nothing is being flushed, and the ids listed are
below the next one. -/
def opened (versions : VersionSet) (active : MemTable) : FlushStore :=
  ⟨versions, ⟨active, [], versions.current⟩, none, active.identity + 1, []⟩

end FlushStore

end RegolithStore
