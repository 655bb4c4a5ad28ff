import RegolithStore.Compaction.Outputs
import RegolithStore.Compaction.Picker
import RegolithStore.Lib.Runs
import RegolithStore.Store.View

/-! Passes in flight at once (`compact_level`, `run_level_deletion_pass`,
`compaction/claims.rs`). A pass picks its tables from the version it reads, claims them
one compare-and-swap at a time in ascending id order, reads the version again and goes
on if they are all still there, writes its outputs, installs them with one edit batch
and lets its claims go one by one. Flushes and the steps of every other pass come in
between anywhere. Only level-style passes run, so the pool bit of the claims' word is
left out. A table is told from another by its id, which no two tables share. -/

namespace RegolithStore

open Lib Function

namespace Passes

/-- How far a pass is. Each list of ids is what is still to be claimed or let go. -/
inductive Phase
  | claiming (taken todo : List UInt64)
  | claimed
  | running
  | written (outputs : List LiveSst)
  | releasing (left : List UInt64)

structure Pass where
  job : Job
  phase : Phase

structure State where
  version : Version
  claimed : UInt64 → Bool
  passes : Nat → Option Pass
  usedIds : List UInt64

structure Config where
  opts : CompactionOptions
  sizeIn : SizeInRange

/-- The claim flags a pick sees: those of the moment, or any others while they change. -/
inductive Flags
  | now
  | seen (held : LiveSst → LiveSst → Bool)

inductive Action
  | flush (file : OutputFile) (m : MemTable)
  | pickSize (slot level : Nat) (flags : Flags)
  | pickDeletion (slot : Nat) (flags : Flags) (oldestLive : Seq)
  | claim (slot : Nat)
  | check (slot : Nat)
  | write (slot : Nat) (live : List Seq) (file : Nat → OutputFile)
  | install (slot : Nat)
  | fail (slot : Nat)
  | release (slot : Nat)

def Action.slot? : Action → Option Nat
  | .flush .. => none
  | .pickSize slot .. | .pickDeletion slot .. | .claim slot | .check slot | .write slot ..
  | .install slot | .fail slot | .release slot => some slot

def Flags.held (s : State) : Flags → LiveSst → LiveSst → Bool
  | now => fun _ f => s.claimed f.id
  | seen held => held

def claimOrder (job : Job) : List UInt64 := (job.files.map LiveSst.id).insertionSort (· ≤ ·)

def allLive (level tables : List LiveSst) : Bool :=
  tables.all fun f => level.any fun live => live.id == f.id

namespace State

def init (v : Version) : State where
  version := v
  claimed := fun _ => false
  passes := fun _ => none
  usedIds := ((List.range maxLevels).flatMap v.levels).map LiveSst.id

def setPhase (s : State) (slot : Nat) (job : Job) (phase : Phase) : State :=
  { s with passes := update s.passes slot (some ⟨job, phase⟩) }

def free (s : State) (slot : Nat) : State :=
  { s with passes := update s.passes slot none }

end State

open State

def step (c : Config) (s : State) : Action → Option State
  | .flush file m =>
    if m.entries.Pairwise Entry.Before ∧ (∀ t ∈ m.rangeTombstones, t.start < t.stop) ∧
        file.fileId ∉ s.usedIds then
      match m.flushTable file, m.sealedSeq with
      | none, _ => some s
      | some f, some seq => some { s with
          version := s.version.applyEdits (m.flushEdits f seq)
          usedIds := f.id :: s.usedIds }
      | some _, none => none
    else none
  | .pickSize slot level flags =>
    match s.passes slot, pickSize s.version (fun f => flags.held s f f) level with
    | none, .ok job => some (s.setPhase slot job (.claiming [] (claimOrder job)))
    | _, _ => none
  | .pickDeletion slot flags oldestLive =>
    match s.passes slot, pickLevel s.version (flags.held s) oldestLive c.sizeIn with
    | none, some job => some (s.setPhase slot job (.claiming [] (claimOrder job)))
    | _, _ => none
  | .claim slot =>
    match s.passes slot with
    | some ⟨job, .claiming _ []⟩ => some (s.setPhase slot job .claimed)
    | some ⟨job, .claiming taken (id :: todo)⟩ =>
      if s.claimed id then some (s.setPhase slot job (.releasing taken))
      else some { s.setPhase slot job (.claiming (taken ++ [id]) todo) with
        claimed := update s.claimed id true }
    | _ => none
  | .check slot =>
    match s.passes slot with
    | some ⟨job, .claimed⟩ =>
      if allLive (s.version.levels job.level) job.inputs &&
          allLive (s.version.levels job.target) job.below then
        some (s.setPhase slot job .running)
      else some (s.setPhase slot job (.releasing (claimOrder job)))
    | _ => none
  | .write slot live file =>
    match s.passes slot with
    | some ⟨job, .running⟩ =>
      let outputs := job.perform c.opts s.version live file
      if live.Pairwise (· ≤ ·) ∧ (outputs.map LiveSst.id).Nodup ∧
          ∀ o ∈ outputs, o.id ∉ s.usedIds then
        some { s.setPhase slot job (.written outputs) with
          usedIds := outputs.map LiveSst.id ++ s.usedIds }
      else none
    | _ => none
  | .install slot =>
    match s.passes slot with
    | some ⟨job, .written outputs⟩ =>
      some { s.setPhase slot job (.releasing (claimOrder job)) with
        version := s.version.applyEdits (job.edits outputs) }
    | _ => none
  | .fail slot =>
    match s.passes slot with
    | some ⟨job, .running⟩ | some ⟨job, .written _⟩ =>
      some (s.setPhase slot job (.releasing (claimOrder job)))
    | _ => none
  | .release slot =>
    match s.passes slot with
    | some ⟨_, .releasing []⟩ => some (s.free slot)
    | some ⟨job, .releasing (id :: left)⟩ =>
      some { s.setPhase slot job (.releasing left) with
        claimed := update s.claimed id false }
    | _ => none

theorem step_passes_of_ne {c : Config} {s s' : State} {a : Action} {slot : Nat}
    (ha : a.slot? ≠ some slot) (h : step c s a = some s') : s'.passes slot = s.passes slot := by
  have hset : ∀ (i : Nat) job phase, i ≠ slot →
      (s.setPhase i job phase).passes slot = s.passes slot :=
    fun i job phase hi => update_of_ne hi.symm _ _
  have hf : ∀ i, i ≠ slot → (s.free i).passes slot = s.passes slot :=
    fun i hi => update_of_ne hi.symm _ _
  cases a <;> simp only [Action.slot?, ne_eq, Option.some.injEq] at ha <;> grind [step]

end Passes

end RegolithStore
