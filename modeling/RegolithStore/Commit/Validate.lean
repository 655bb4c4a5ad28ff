import RegolithStore.Commit.RangeRule
import RegolithStore.Wal.Operations

/-! The check of an optimistic commit (`txn.rs`, `write_check.rs`, `replaced.rs`,
`content.rs`): its reads, then its validated scans, then its written keys in operation
order, each judged on its own; the first that fails decides. An item an earlier check found
clean at a horizon is looked at only if something landed on it above the horizon. -/

namespace RegolithStore

open Lib

structure RangeCheck where
  lo : Key
  hi : Key
  observedSeq : Seq

/-- Reads and exempt keys are sorted and without repeats, which is what lets the source
find a key in them by binary search. -/
structure ValidationSet where
  reads : List ConflictKey
  writesAt : Option Seq
  blindMergesCommute : Bool
  exempt : List Key
  ranges : List RangeCheck
  reads_sorted : reads.Pairwise fun a b => a.key < b.key
  exempt_sorted : exempt.Pairwise (· < ·)

theorem noneExempt_sorted : ([] : List Key).Pairwise (· < ·) := .nil

inductive Mark
  | clean
  | commuted
  | dirty
  deriving DecidableEq

/-- The check at the horizon: one mark for each read, each scan and each operation, in that
order, or none where every item is clean. -/
structure Early where
  horizon : Seq
  marks : List Mark

namespace Early

def mark (early : Early) (index : Nat) : Mark := early.marks.getD index .clean

def isClean (early : Early) : Bool := early.marks.isEmpty

end Early

inductive ValidateError
  | contentMismatch
  | read (err : ReadError)
  deriving DecidableEq

inductive ItemVerdict
  | pass
  | commuted
  | elided
  | conflict (conflict : Conflict)
  deriving DecidableEq

inductive Verdict
  | accept (mergesCommuted writesElided : Nat)
  | conflict (conflict : Conflict)
  deriving DecidableEq

namespace WriteBatchOp

def pointKey? : WriteBatchOp → Option Key
  | put key _ | delete key | merge key _ => some key
  | deleteRange .. => none

def isPoint : WriteBatchOp → Bool
  | put .. | delete .. => true
  | merge .. | deleteRange .. => false

def isRange : WriteBatchOp → Bool
  | deleteRange .. => true
  | put .. | delete .. | merge .. => false

end WriteBatchOp

/-- `Replaced::contains` of the batch: its leading puts and deletes, then its range
deletes. -/
def replacedBy (ops : List WriteBatchOp) (key : Key) : Bool :=
  let points := ops.takeWhile WriteBatchOp.isPoint
  let ranges := (ops.dropWhile WriteBatchOp.isPoint).takeWhile WriteBatchOp.isRange
  (points.any fun op => decide (op.pointKey? = some key)) ||
    ranges.any fun
      | .deleteRange start stop => decide (start ≤ key ∧ key < stop)
      | _ => false

/-- What the batch leaves the key, by its last put or delete; `none` where a merge or a range
delete of the batch has a say. -/
def intendedOf (key : Key) : Option (Option Value) → List WriteBatchOp → Option (Option Value)
  | intended, [] => intended
  | intended, .put k value :: ops =>
    intendedOf key (if k = key then some (some value) else intended) ops
  | intended, .delete k :: ops => intendedOf key (if k = key then some none else intended) ops
  | intended, .merge k _ :: ops => if k = key then none else intendedOf key intended ops
  | intended, .deleteRange start stop :: ops =>
    if start ≤ key ∧ key < stop then none else intendedOf key intended ops

inductive WriteCheck
  | clean
  | commuted
  | elided
  | conflict (seq : Seq) (theirs : WriteKind)

def checkNewest (observedSeq : Seq) (newest : Option (Seq × WriteKind))
    (matchesCommitted : WriteKind → Bool) : WriteCheck :=
  match newest with
  | none => .clean
  | some (seq, theirs) =>
    if seq ≤ observedSeq then .clean
    else if matchesCommitted theirs then .elided
    else .conflict seq theirs

namespace ReadView

variable (view : ReadView)

def committedEquals (key : Key) (intended : Option Value) : Bool := view.lookupInView key ⊤ = intended

def writeMatchesCommitted (key : Key) (ops : List WriteBatchOp) (newest : WriteKind) : Bool :=
  if newest = .merge then false
  else match intendedOf key none ops with
    | none => false
    | some intended => view.committedEquals key intended

/-- Whether the put contradicts a value left under the key after `floor`. -/
def contentMismatch (key : Key) (value : Value) (floor : Seq) : Bool :=
  match view.latestVersionInView key with
  | some (seq, .put) =>
    if seq ≤ floor then false
    else match view.lookupInView key ⊤ with
      | some committed => decide (committed ≠ value)
      | none => false
  | _ => false

/-- A key the batch only merges into, where blind merges commute, conflicts only with a
replacement. -/
def checkWrite (key : Key) (blind : Bool) (observedSeq : Seq) (matchesCommitted : WriteKind → Bool) :
    WriteCheck :=
  if blind then
    match view.landedAbove key observedSeq with
    | .replaced seq kind => checkNewest observedSeq (some (seq, kind)) fun _ => false
    | .operands => .commuted
    | .nothing => .clean
  else checkNewest observedSeq (view.latestVersionInView key) matchesCommitted

end ReadView

namespace ValidationSet

variable (checks : ValidationSet)

/-- Every read but a presence-only one is validated in place of a write of its key. -/
def readStandsFor (key : Key) : Bool :=
  (checks.reads.find? fun read => decide (read.key = key)).any fun read => !read.presenceOnly

def blind (ops : List WriteBatchOp) (mine : Access) (key : Key) : Bool :=
  decide (mine = .merge) && (checks.blindMergesCommute && !replacedBy ops key)

end ValidationSet

section Items

variable (op : Option CommitOperator) (checks : ValidationSet) (ops : List WriteBatchOp)
  (early : Early) (view : ReadView) (ceiling : Seq)

/-- Whether the item has to be looked at: it was dirty at the horizon, or something landed on
its key above it. -/
def landed (key : Key) (mark : Mark) : Bool :=
  decide (mark = .dirty) || (!decide (ceiling ≤ early.horizon) &&
    view.landedAboveHorizon key early.horizon (decide (view.version.lastSeq ≤ early.horizon)))

def judgeRead (check : ConflictKey) (mark : Mark) : Except ValidateError ItemVerdict :=
  if !landed early view ceiling check.key mark then .ok .pass
  else match view.latestVersionInView check.key with
    | none => .ok .pass
    | some latest =>
      if latest.1 ≤ check.observedSeq then .ok .pass
      else match view.readChanged op check latest ⊤ with
        | .error err => .error (.read err)
        | .ok none => .ok .pass
        | .ok (some (seq, theirs)) =>
          .ok (.conflict ⟨check.key, check.access, theirs, check.observedSeq, seq⟩)

def judgeRange (range : RangeCheck) (mark : Mark) : Except ValidateError ItemVerdict :=
  let written :=
    if mark = .dirty then view.writtenInRangeOf range.lo range.hi range.observedSeq ⊤ false
    else if ceiling ≤ early.horizon then none
    else view.writtenInRangeOf range.lo range.hi (max early.horizon range.observedSeq) ⊤
      (decide (view.version.lastSeq ≤ early.horizon))
  match written with
  | some (key, seq, theirs) => .ok (.conflict ⟨key, .scannedRange, theirs, range.observedSeq, seq⟩)
  | none => .ok .pass

/-- One written key; `value` is a put's bytes. -/
def judgeWrite (observedSeq : Seq) (key : Key) (mine : Access) (value : Option Value) (mark : Mark) :
    Except ValidateError ItemVerdict :=
  if key ∈ checks.exempt then
    -- an exempt put is looked up only if something committed since the snapshot
    if decide (observedSeq < ceiling) && landed early view ceiling key mark &&
        value.any fun value => view.contentMismatch key value observedSeq
    then .error .contentMismatch
    else .ok .pass
  else if checks.readStandsFor key then .ok .pass
  else if !landed early view ceiling key mark then
    .ok (if mark = .commuted then .commuted else .pass)
  else match view.checkWrite key (checks.blind ops mine key) observedSeq
      (view.writeMatchesCommitted key ops) with
    | .clean => .ok .pass
    | .commuted => .ok .commuted
    | .elided => .ok .elided
    | .conflict seq theirs => .ok (.conflict ⟨key, mine, theirs, observedSeq, seq⟩)

/-- The operations in order, from the item `index` on; a repeat of the key merged last is
passed over. -/
def judgeOps (observedSeq : Seq) :
    Nat → Option Key → List WriteBatchOp → List (Except ValidateError ItemVerdict)
  | _, _, [] => []
  | index, lastMerged, .put key value :: rest =>
    judgeWrite checks ops early view ceiling observedSeq key .put (some value) (early.mark index) ::
      judgeOps observedSeq (index + 1) lastMerged rest
  | index, lastMerged, .delete key :: rest =>
    judgeWrite checks ops early view ceiling observedSeq key .delete none (early.mark index) ::
      judgeOps observedSeq (index + 1) lastMerged rest
  | index, lastMerged, .merge key _ :: rest =>
    (if lastMerged = some key then .ok .pass
      else judgeWrite checks ops early view ceiling observedSeq key .merge none (early.mark index)) ::
      judgeOps observedSeq (index + 1) (some key) rest
  | index, lastMerged, .deleteRange .. :: rest =>
    .ok .pass :: judgeOps observedSeq (index + 1) lastMerged rest

def itemVerdicts : List (Except ValidateError ItemVerdict) :=
  checks.reads.mapIdx (fun index check => judgeRead op early view ceiling check (early.mark index)) ++
  checks.ranges.mapIdx (fun index range =>
    judgeRange early view ceiling range (early.mark (checks.reads.length + index))) ++
  match checks.writesAt with
  | none => []
  | some observedSeq => judgeOps checks ops early view ceiling observedSeq
      (checks.reads.length + checks.ranges.length) none ops

end Items

/-- The first item that fails decides; what commuted and what was elided is counted. -/
def verdictOf (commuted elided : Nat) : List (Except ValidateError ItemVerdict) →
    Except ValidateError Verdict
  | [] => .ok (.accept commuted elided)
  | .error err :: _ => .error err
  | .ok (.conflict conflict) :: _ => .ok (.conflict conflict)
  | .ok .pass :: rest => verdictOf commuted elided rest
  | .ok .commuted :: rest => verdictOf (commuted + 1) elided rest
  | .ok .elided :: rest => verdictOf commuted (elided + 1) rest

def validate (op : Option CommitOperator) (checks : ValidationSet) (ops : List WriteBatchOp)
    (early : Early) (view : ReadView) (ceiling : Seq) : Except ValidateError Verdict :=
  verdictOf 0 0 (itemVerdicts op checks ops early view ceiling)

end RegolithStore
