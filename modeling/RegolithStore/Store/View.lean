import RegolithStore.Store.Version

/-! Memtables and published views (`memtable.rs`, `read_view.rs`). A memtable is modelled by
what it holds, its identity and what sealing it recorded; a view is the active memtable, the
frozen ones, oldest first, and the version. Every publication is one step from the view it
was built from. -/

namespace RegolithStore

open Lib

structure MemTable where
  /-- Which memtable it is. -/
  identity : Nat
  /-- In internal-key order. -/
  entries : List Entry
  rangeTombstones : List RangeTombstone
  sealedSeq : Option Seq
  /-- The id of the log that was sealed with it. -/
  sealedWal : Option UInt64

namespace MemTable

def new (identity : Nat) : MemTable := ⟨identity, [], [], none, none⟩

def isEmpty (m : MemTable) : Bool := m.entries.isEmpty

/-- The table a flush writes of the memtable; `none` when there is nothing to write. -/
def flushTable (m : MemTable) (file : OutputFile) : Option LiveSst :=
  writeTable (.fromVec m.rangeTombstones) file m.entries m.rangeTombstones

/-- The edit a flush installs its table with. -/
def flushEdits (m : MemTable) (table : LiveSst) (seq : Seq) : List VersionEdit :=
  [.addFile 0 table, .setLastSeq seq] ++
    (m.sealedWal.map fun id => .setMinWalId (id + 1)).toList

theorem levels_flushEdits (m : MemTable) (v : Version) (f : LiveSst) (seq : Seq) :
    (v.applyEdits (m.flushEdits f seq)).levels =
      Function.update v.levels 0 (v.levels 0 ++ [f]) := by
  rw [flushEdits, Version.applyEdits_append]
  cases m.sealedWal <;> rfl

end MemTable

structure ReadView where
  active : MemTable
  frozen : List MemTable
  version : Version

namespace ReadView

/-- `retire_memtable`: the memtable leaves the frozen list, by identity. -/
def retireMemtable (view : ReadView) (flushed : MemTable) : ReadView :=
  { view with frozen := view.frozen.filter fun m => m.identity ≠ flushed.identity }

/-- `publish_version`: the version, and the memtable it retires in the same publication. -/
def publishVersion (view : ReadView) (version : Version) (retired : Option MemTable) : ReadView :=
  match retired with
  | some flushed => { view.retireMemtable flushed with version }
  | none => { view with version }

/-- The publication of a flush's section. The memtable leaves with it when `apply` came back
without an error; when only the rewrite of the manifest failed, the table is installed and the
memtable stays. -/
def installFlush (view : ReadView) (m : MemTable) (table : LiveSst) (seq : Seq)
    (retired : Option MemTable) : ReadView :=
  view.publishVersion (view.version.applyEdits (m.flushEdits table seq)) retired

/-- A rotation: the active memtable is sealed behind the frozen ones, and `next` takes its
place. -/
def rotate (view : ReadView) (seq : Seq) (wal : Option UInt64) (next : MemTable) : ReadView :=
  { view with
    active := next
    frozen := view.frozen ++ [{ view.active with sealedSeq := some seq, sealedWal := wal }] }

end ReadView

end RegolithStore
