import RegolithStore.Compaction.Passes
import RegolithStore.Flush.Flusher
import RegolithStore.Ingest.Stage
import RegolithStore.Store.Committed
import RegolithStore.Store.HoldsKey

/-! The tree of an open engine, and everything that changes it: commits into the active memtable,
rotations, flushes of the oldest frozen one, the passes of every style of compaction, and the
install of ingested tables (`ingest.rs`, `flush.rs`, `compaction.rs`, `compaction/claims.rs`).

A pass that takes tables claims them and looks whether they are still there; a pass across L0
claims the pool, while no table is claimed. Both hold the compaction gate with others, an ingest
holds it alone. Its install takes a turn in the commit order: from there to its end no commit
and no rotation comes between, but flushes do. Each critical section is one step; claims are
taken all at once, as if no other pass came between the first and the last. What fails is
given up before it is installed, but for a flush whose rewrite of the manifest fails: its table
is installed, and its memtable stays to be flushed again. A pass or an ingest that fails there
has left the tree as one that does not. -/

namespace RegolithStore

open Lib

def meets (f : LiveSst) (lo hi : Key) : Bool := decide (f.smallest ≤ hi) && decide (lo ≤ f.largest)

/-- The deepest level with no table that meets the range on the way down, as long as no L0 table
holds a key of it. -/
def placement (v : Version) (lo hi : Key) (holds : LiveSst → Bool) : Nat :=
  if ((v.levels 0).filter fun f => meets f lo hi).any holds then 0
  else (((List.range maxLevels).drop 1).takeWhile fun level =>
    (overlapping (v.levels level) lo hi).isEmpty).getLast?.getD 0

/-- `ingest_behind`'s level. -/
def behindLevel (view : ReadView) (lo hi : Key) : Except IoError Nat :=
  let inMemory := (view.active :: view.frozen).any fun m => m.holdsKeyIn lo hi
  let inTables := (List.range maxLevels).any fun level =>
    (view.version.levels level).any fun f => meets f lo hi
  if inMemory || inTables then
    .error ⟨.invalidInput, "ingest_behind: input range overlaps existing data"⟩
  else .ok (maxLevels - 1)

/-- The L0 tables that meet the range, each with whether it holds a key of it. -/
def l0Holders (v : Version) (lo hi : Key) : List (UInt64 × Bool) :=
  ((v.levels 0).filter fun f => meets f lo hi).map fun f => (f.id, f.holdsKeyIn lo hi)

/-- What was probed before the ordered step is not probed again. -/
def probedHolds (probed : List (UInt64 × Bool)) (lo hi : Key) (f : LiveSst) : Bool :=
  match probed.find? fun p => decide (p.1 = f.id) with
  | some p => p.2
  | none => f.holdsKeyIn lo hi

/-- `pick_and_run_fifo`'s loop, oldest first, over `count` tables of which `removed` go. -/
def fifoLoop (limit : UInt64) (count : Nat) : UInt64 → Nat → List LiveSst → List UInt64
  | _, _, [] => []
  | total, removed, f :: fs =>
    if count - removed ≤ 1 then []
    else if total ≤ limit then []
    else
      let size := f.metadata.fileSize
      f.id :: fifoLoop limit count (if size ≤ total then total - size else 0) (removed + 1) fs

def pickFifo (limit : UInt64) (v : Version) : List UInt64 :=
  if limit = 0 then []
  else
    let total := (v.levels 0).foldl (fun sum f => sum + f.metadata.fileSize) 0
    if total ≤ limit then [] else fifoLoop limit (v.levels 0).length total 0 (v.levels 0)

namespace Tree

structure Config where
  opts : CompactionOptions
  universal : UniversalCompactionOptions
  fifoLimit : UInt64
  sizeIn : SizeInRange

/-- How a pass picks what it takes. The flags are what the pick sees of the claims. -/
inductive Picker
  | size (held : LiveSst → Bool) (level : Nat)
  | deletion (held : LiveSst → LiveSst → Bool) (oldestLive : Seq)
  | range (level : Nat) (start stop : Option Key)
  | universalSize
  | universalDeletion (oldestLive : Seq)
  | universalFull
  | reseal (level : Nat) (fileId : UInt64)

variable (c : Config)

namespace Picker

def job (v : Version) : Picker → Option Job
  | size held level => (pickSize v held level).toOption
  | deletion held oldestLive => pickLevel v held oldestLive c.sizeIn
  | range level start stop => if level + 1 < maxLevels then pickRange v level start stop else none
  | universalSize => (pickUniversalSize c.universal v).map universalJob
  | universalDeletion oldestLive => (pickUniversal v oldestLive c.sizeIn).map universalJob
  | universalFull => if 2 ≤ (v.levels 0).length then some (universalJob (v.levels 0)) else none
  | reseal level fileId => if level < maxLevels then
      ((v.levels level).find? fun f => f.id = fileId).map (resealJob level) else none

/-- It claims the pool, or runs where it holds the gate alone. -/
def alone : Picker → Bool
  | size .. | deletion .. => false
  | range .. | universalSize | universalDeletion .. | universalFull | reseal .. => true

def opts : Picker → CompactionOptions
  | universalSize | universalDeletion .. | universalFull => c.opts.universal
  | size .. | deletion .. | range .. | reseal .. => c.opts

end Picker

/-- How far a pass is. One that claimed tables is not alone; one that claimed the pool is. -/
inductive Pass
  | picked (job : Job) (opts : CompactionOptions)
  | claimed (job : Job) (opts : CompactionOptions)
  | running (job : Job) (opts : CompactionOptions) (alone : Bool)
  | written (job : Job) (outputs : List LiveSst) (alone : Bool)
  | dropping (ids : List UInt64)
  | done

namespace Pass

def alone : Pass → Bool
  | running _ _ alone | written _ _ alone => alone
  | dropping _ => true
  | picked .. | claimed .. | done => false

def holding : Pass → Bool
  | claimed .. | running .. | written .. | dropping _ => true
  | picked .. | done => false

def claims : Pass → List UInt64
  | claimed job _ | running job _ false | written job _ false => job.files.map LiveSst.id
  | running _ _ true | written _ _ true | picked .. | dropping _ | done => []

def isDone : Pass → Bool
  | done => true
  | picked .. | claimed .. | running .. | written .. | dropping _ => false

end Pass

inductive InstallPhase
  | queued
  /-- In the ordered step, waiting until the memtable is flushed, if there is one. -/
  | flushing (target : Option Nat)
  | placed (level : Nat)

structure Install where
  table : StagedTable
  behind : Bool
  /-- What was probed before the ordered step. -/
  probed : List (UInt64 × Bool)
  phase : InstallPhase

structure State where
  view : ReadView
  lastSeq : Seq
  nextIdentity : Nat
  usedIds : List UInt64
  passes : List Pass
  /-- An ingest holds the compaction gate. -/
  gateAlone : Bool
  install : Option Install

inductive Action
  | commit (ops : List WriteBatchOp)
  | rotate (wal : Option UInt64)
  | flush (file : OutputFile)
  /-- A flush whose rewrite of the manifest fails. -/
  | flushFails (file : OutputFile)
  | pick (picker : Picker)
  | pickFifo
  | claim (i : Nat)
  | check (i : Nat)
  | write (i : Nat) (live : List Seq) (file : Nat → OutputFile)
  | apply (i : Nat)
  | fail (i : Nat)
  | takeGate
  | releaseGate
  | queue (table : StagedTable) (behind : Bool)
  | enter (wal : Option UInt64)
  | place
  | install
  | giveUp

namespace State

variable (s : State)

def ordered : Bool :=
  match s.install with
  | some ⟨_, _, _, .flushing _⟩ | some ⟨_, _, _, .placed _⟩ => true
  | some ⟨_, _, _, .queued⟩ | none => false

variable (i : Nat)

def setPass (p : Pass) : State := { s with passes := s.passes.set i p }

def setPhase (u : Install) (phase : InstallPhase) : State :=
  { s with install := some { u with phase } }

def endInstall : State := { s with install := none }

def setVersion (v : Version) : State := { s with view := s.view.publishVersion v none }

/-- `seal`. -/
def rotate (wal : Option UInt64) : State :=
  { s with
    view := s.view.rotate s.lastSeq wal (.new s.nextIdentity)
    nextIdentity := s.nextIdentity + 1 }

/-- The sequences are left, and every range delete deletes something: the calls that write drop
those that do not. -/
def Takes (ops : List WriteBatchOp) : Prop :=
  s.lastSeq.Fits (ops.length + 1) ∧ ∀ t ∈ opTombstones ops (s.lastSeq + 1), t.start < t.stop

instance (ops : List WriteBatchOp) : Decidable (s.Takes ops) :=
  inferInstanceAs (Decidable (_ ∧ _))

def commit (ops : List WriteBatchOp) : State :=
  { s with
    view := s.view.commit ops (s.lastSeq + 1)
    lastSeq := s.lastSeq + UInt64.ofNat ops.length }

/-- `flush_oldest_inner`, of the oldest frozen memtable; one with nothing in it is only
retired. Where `rewritten` is false, `apply` fails after it has installed the table. -/
def flush (file : OutputFile) (rewritten : Bool) : Option State :=
  match s.view.frozen.head? with
  | none => none
  | some m =>
    match m.flushTable file, m.sealedSeq with
    | none, _ => some { s with view := s.view.retireMemtable m }
    | some f, some seq =>
      if f.id ∈ s.usedIds then none
      else some { s with
        view := s.view.installFlush m f seq (if rewritten then some m else none)
        usedIds := f.id :: s.usedIds }
    | some _, none => none

/-- A pass begins. One that is alone holds the pool from before its pick. -/
def pick (s : State) (picker : Picker) : Option State :=
  if s.gateAlone || picker.alone && s.passes.any Pass.holding then none
  else (picker.job c s.view.version).map fun job =>
    { s with passes := s.passes ++
        [if picker.alone then .running job (picker.opts c) true else .picked job (picker.opts c)] }

def pickFifo (s : State) : Option State :=
  if s.gateAlone || s.passes.any Pass.holding then none
  else some { s with
    passes := s.passes ++ [.dropping (RegolithStore.pickFifo c.fifoLimit s.view.version)] }

/-- `Claims::tables`: all of the job's tables, or the pass ends contended. -/
def claim : Option State :=
  match s.passes[i]? with
  | some (.picked job opts) =>
    if s.passes.any fun p => p.alone || job.files.any fun f => p.claims.contains f.id then
      some (s.setPass i .done)
    else some (s.setPass i (.claimed job opts))
  | _ => none

/-- `all_live`, of the version read once the claims are held. -/
def check : Option State :=
  match s.passes[i]? with
  | some (.claimed job opts) =>
    if Passes.allLive (s.view.version.levels job.level) job.inputs &&
        Passes.allLive (s.view.version.levels job.target) job.below then
      some (s.setPass i (.running job opts false))
    else some (s.setPass i .done)
  | _ => none

def write (live : List Seq) (file : Nat → OutputFile) : Option State :=
  match s.passes[i]? with
  | some (.running job opts alone) =>
    let outputs := job.perform opts s.view.version live file
    if live.Pairwise (· ≤ ·) ∧ (outputs.map LiveSst.id).Nodup ∧ ∀ o ∈ outputs, o.id ∉ s.usedIds then
      some { s.setPass i (.written job outputs alone) with
        usedIds := outputs.map LiveSst.id ++ s.usedIds }
    else none
  | _ => none

/-- The section that installs what a pass wrote, or removes what it drops. -/
def apply : Option State :=
  match s.passes[i]? with
  | some (.written job outputs _) =>
    some ((s.setVersion (s.view.version.applyEdits
      (job.installEdits s.view.version outputs))).setPass i .done)
  | some (.dropping ids) =>
    some ((s.setVersion (s.view.version.applyEdits (ids.map (.removeFile 0)))).setPass i .done)
  | _ => none

def queue (table : StagedTable) (behind : Bool) : Option State :=
  if s.gateAlone ∧ s.install.isNone ∧ table.fileId ∉ s.usedIds then
    let probed := if behind then [] else l0Holders s.view.version table.smallest table.largest
    some { s with
      install := some ⟨table, behind, probed, .queued⟩
      usedIds := table.fileId :: s.usedIds }
  else none

/-- The unit's turn: the memtable to flush, the active one sealed where it is the one. -/
def enter (wal : Option UInt64) : Option State :=
  match s.install with
  | some ⟨table, behind, probed, .queued⟩ =>
    let u : Install := ⟨table, behind, probed, .queued⟩
    let holds := fun m : MemTable => m.holdsKeyIn table.smallest table.largest
    if behind then
      match behindLevel s.view table.smallest table.largest with
      | .ok level => some (s.setPhase u (.placed level))
      | .error _ => some s.endInstall
    else if holds s.view.active then
      some ((s.rotate wal).setPhase u (.flushing (some s.view.active.identity)))
    else some (s.setPhase u (.flushing ((s.view.frozen.reverse.find? holds).map MemTable.identity)))
  | _ => none

/-- The level, once the memtable is flushed; what was flushed lies in L0. -/
def place : Option State :=
  match s.install with
  | some ⟨table, behind, probed, .flushing (some target)⟩ =>
    if target ∈ s.view.frozen.map MemTable.identity then none
    else some (s.setPhase ⟨table, behind, probed, .flushing (some target)⟩ (.placed 0))
  | some ⟨table, behind, probed, .flushing none⟩ =>
    some (s.setPhase ⟨table, behind, probed, .flushing none⟩
      (.placed (placement s.view.version table.smallest table.largest
        (probedHolds probed table.smallest table.largest))))
  | _ => none

/-- The sequence is drawn, the table is added at it, and it is published. -/
def installTable : Option State :=
  match s.install with
  | some ⟨table, _, _, .placed level⟩ =>
    if s.lastSeq.Fits 1 then
      let seq := s.lastSeq + 1
      some { (s.setVersion (s.view.version.applyEdits
          [.addFile level (table.installed seq), .setLastSeq seq])).endInstall with
        lastSeq := seq }
    else none
  | _ => none

end State

def step (s : State) : Action → Option State
  | .commit ops =>
    if s.ordered = false ∧ s.Takes ops then some (s.commit ops) else none
  | .rotate wal => if s.ordered then none else some (s.rotate wal)
  | .flush file => s.flush file true
  | .flushFails file => s.flush file false
  | .pick picker => s.pick c picker
  | .pickFifo => s.pickFifo c
  | .claim i => s.claim i
  | .check i => s.check i
  | .write i live file => s.write i live file
  | .apply i => s.apply i
  | .fail i => some (s.setPass i .done)
  | .takeGate =>
    if s.gateAlone || !s.passes.all Pass.isDone then none else some { s with gateAlone := true }
  | .releaseGate =>
    if s.gateAlone && s.install.isNone then some { s with gateAlone := false } else none
  | .queue table behind => s.queue table behind
  | .enter wal => s.enter wal
  | .place => s.place
  | .install => s.installTable
  | .giveUp => some s.endInstall

def opened (v : Version) (active : MemTable) (lastSeq : Seq) : State where
  view := ⟨active, [], v⟩
  lastSeq
  nextIdentity := active.identity + 1
  usedIds := ((List.range maxLevels).flatMap v.levels).map LiveSst.id
  passes := []
  gateAlone := false
  install := none

end Tree

end RegolithStore
