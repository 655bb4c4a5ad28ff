import Mathlib.Logic.Function.Basic
import RegolithStore.Lib.HostFile
import RegolithStore.Store.Table

/-! Versions (`manifest.rs`): which tables stand at each level, and the edits that
turn one version into the next. L0 is in age order, oldest first; every deeper level
is one sorted run, ascending by smallest key, whose tables meet only at a shared
boundary key. `find_overlap` is the source's own test of that. An edit batch is
applied to a copy, edit by edit. -/

namespace RegolithStore

open Lib List Function

def maxLevels : Nat := 7

/-- The levels of a version are indexed below `maxLevels`; `validate_level_index` refuses
every other index before an edit is applied. -/
structure Version where
  levels : Nat → List LiveSst
  nextFileId : UInt64
  lastSeq : Seq
  minWalId : UInt64
  uncounted : Nat

variable (v : Version) (level : Nat)

namespace Version

def new : Version := ⟨fun _ => [], 1, 0, 0, 0⟩

def uncountedOf (f : LiveSst) : Nat := if f.metadata.deletions.isNone then 1 else 0

/-- At the end of L0; deeper, after every table with no larger smallest key. -/
def addFile (f : LiveSst) : Version :=
  { v with
    uncounted := v.uncounted + uncountedOf f
    levels := update v.levels level
      (if level = 0 then v.levels level ++ [f]
        else insertRun LiveSst.smallest f (v.levels level)) }

/-- The first level below L0 with two neighbours overlapping beyond a boundary key. -/
def findOverlap : Option (Nat × LiveSst × LiveSst) :=
  ((List.range maxLevels).drop 1).findSome? fun level =>
    (findOverlapping LiveSst.smallest LiveSst.largest (v.levels level)).map
      fun pair => (level, pair)

def levelsAreSortedRuns : Bool := v.findOverlap.isNone

def removeFile (fileId : UInt64) : Version :=
  { v with
    uncounted := v.uncounted -
      (((v.levels level).filter fun f => f.id = fileId).map uncountedOf).sum
    levels := update v.levels level ((v.levels level).filter fun f => f.id ≠ fileId) }

/-- The first table with that id gets the counts and keeps its place. -/
def countFirst (fileId : UInt64) (d : Deletions) : List LiveSst → List LiveSst
  | [] => []
  | f :: fs =>
    if f.id = fileId then { f with metadata := { f.metadata with deletions := some d } } :: fs
    else f :: countFirst fileId d fs

def countFile (fileId : UInt64) (d : Deletions) : Version :=
  match (v.levels level).find? fun f => f.id = fileId with
  | none => v
  | some slot =>
    { v with
      uncounted := v.uncounted - uncountedOf slot
      levels := update v.levels level (countFirst fileId d (v.levels level)) }

end Version

/-- The tables of one level below L0 whose key range meets `[first, last]`. -/
def overlapping (files : List LiveSst) (first last : Key) : List LiveSst :=
  meeting LiveSst.smallest LiveSst.largest files first last

/-- The tables of one level below L0 whose key range covers `key`. -/
def covering (files : List LiveSst) (key : Key) : List LiveSst := overlapping files key key

inductive VersionEdit
  | addFile (level : Nat) (file : LiveSst)
  | removeFile (level : Nat) (fileId : UInt64)
  | countFile (level : Nat) (fileId : UInt64) (deletions : Deletions)
  | setLastSeq (seq : Seq)
  | setNextFileId (id : UInt64)
  | setMinWalId (id : UInt64)
  | reset (nextFileId minWalId : UInt64)

/-- A stamp never lowers the value. -/
def raisedLastSeq (current stamp : Seq) : Seq := max current stamp

def validateLevelIndex : Except IoError Unit :=
  if level < maxLevels then .ok ()
  else .error ⟨.invalidData, s!"manifest level {level} out of range 0..{maxLevels}"⟩

namespace VersionEdit

def level? : VersionEdit → Option Nat
  | addFile level _ | removeFile level _ | countFile level _ _ => some level
  | _ => none

/-- The first edit naming a level out of range fails the batch. -/
def validate (edits : List VersionEdit) : Except IoError Unit :=
  edits.forM fun e => e.level?.elim (.ok ()) validateLevelIndex

def apply : VersionEdit → Version
  | addFile level file => v.addFile level file
  | removeFile level fileId => v.removeFile level fileId
  | countFile level fileId deletions => v.countFile level fileId deletions
  | setLastSeq seq => { v with lastSeq := raisedLastSeq v.lastSeq seq }
  | setNextFileId id => { v with nextFileId := id }
  | setMinWalId id => { v with minWalId := id }
  | reset nextFileId minWalId => ⟨fun _ => [], nextFileId, 0, minWalId, 0⟩

end VersionEdit

def Version.applyEdits (edits : List VersionEdit) : Version :=
  edits.foldl VersionEdit.apply v

namespace Version

variable {v : Version} {level l : Nat}

@[simp] theorem applyEdits_nil : v.applyEdits [] = v := rfl

@[simp] theorem applyEdits_cons (e : VersionEdit) (es : List VersionEdit) :
    v.applyEdits (e :: es) = (e.apply v).applyEdits es := rfl

theorem applyEdits_append (es es' : List VersionEdit) :
    v.applyEdits (es ++ es') = (v.applyEdits es).applyEdits es' := foldl_append

/-- Every level below L0 is a sorted run. -/
def SortedRuns : Prop :=
  ∀ level, 1 ≤ level → level < maxLevels →
    SortedRun LiveSst.smallest LiveSst.largest (v.levels level)

theorem mem_deeper {level : Nat} :
    level ∈ (List.range maxLevels).drop 1 ↔ 1 ≤ level ∧ level < maxLevels := mem_drop_range

theorem findOverlap_eq_none : v.findOverlap = none ↔ ∀ level, 1 ≤ level → level < maxLevels →
      findOverlapping LiveSst.smallest LiveSst.largest (v.levels level) = none := by
  simp only [findOverlap, findSome?_eq_none_iff, mem_deeper, Option.map_eq_none_iff, and_imp]

/-- Where every table's key range is ordered, `find_overlap` finds nothing exactly when
the levels are sorted runs. -/
theorem findOverlap_eq_none_iff (hv : ∀ level, ∀ f ∈ v.levels level, f.smallest ≤ f.largest) :
    v.findOverlap = none ↔ v.SortedRuns := by
  rw [findOverlap_eq_none]
  exact forall_congr' fun level => forall_congr' fun _ => forall_congr' fun _ =>
    findOverlapping_eq_none (hv level)

theorem mem_addFile {f g : LiveSst} :
    g ∈ (v.addFile level f).levels l ↔ g ∈ v.levels l ∨ l = level ∧ g = f := by
  rcases eq_or_ne l level with rfl | h
  · simp only [addFile, update_self, true_and]
    split_ifs
    · simp
    · rw [mem_insertRun, or_comm]
  · simp [addFile, h]

theorem mem_removeFile {fileId : UInt64} {g : LiveSst} :
    g ∈ (v.removeFile level fileId).levels l ↔ g ∈ v.levels l ∧ (l = level → g.id ≠ fileId) := by
  rcases eq_or_ne l level with rfl | h
  · simp [removeFile]
  · simp [removeFile, h]

theorem levels_removeFiles (level : Nat) (ids : List UInt64) :
    (v.applyEdits (ids.map (.removeFile level))).levels =
      update v.levels level ((v.levels level).filter fun f => f.id ∉ ids) := by
  induction ids generalizing v with
  | nil => simp
  | cons id ids ih =>
    rw [map_cons, applyEdits_cons, ih]
    simp only [VersionEdit.apply, removeFile, update_self, update_idem,
      filter_filter, mem_cons, not_or]
    congr 2
    funext f
    simp [Bool.and_comm]

theorem levels_addFiles {level : Nat} (hl : level ≠ 0) (v : Version) (files : List LiveSst) :
    (v.applyEdits (files.map (.addFile level))).levels =
      update v.levels level
        (files.foldl (fun run f => insertRun LiveSst.smallest f run) (v.levels level)) := by
  induction files generalizing v with
  | nil => simp
  | cons f files ih =>
    rw [map_cons, applyEdits_cons, ih]
    simp [VersionEdit.apply, addFile, hl]

theorem levels_addFiles_zero (files : List LiveSst) :
    (v.applyEdits (files.map (.addFile 0))).levels =
      update v.levels 0 (v.levels 0 ++ files) := by
  induction files generalizing v with
  | nil => simp
  | cons f files ih =>
    rw [map_cons, applyEdits_cons, ih]
    simp [VersionEdit.apply, addFile]

end Version

end RegolithStore
