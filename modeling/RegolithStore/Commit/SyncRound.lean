import RegolithStore.Lib.Runs
import RegolithStore.Wal.Frame
import RegolithStore.Wal.Gate

/-! The writes and the sync rounds of one log (`write_unit.rs`, `round.rs`, `wal_gate.rs`), each
atomic access of a thread one step. A thread writes a run of records: it counts in at the gate,
looks at whether each record is written or discarded, writes those that are not, counts out and
marks them written. The holder of the round looks for the end of the written prefix, settles the
gate below it and syncs, or rolls a failed log back: it stops both frontiers and the tip,
publishes what is publishable, moves the gate on, and once no write is in flight cuts the log
where the first slot that was not publishable lies. A decision made before that is settled after
it as a failed slot, and keeps the place it was given; one made from the tip the rollback put in
its place meanwhile is of the new epoch. Slots with no record in the log are left out. -/

namespace RegolithStore

open Lib

structure LogSlot where
  place : Place
  immediate : Bool
  written : Bool
  failed : Bool
  /-- All its bytes are in the log. -/
  rests : Bool
  /-- A rollback cut it out of the log, or it was decided from a state one discarded. -/
  discarded : Bool
  deriving DecidableEq

namespace LogSlot

def placedAt (place : Place) (immediate : Bool) : LogSlot :=
  ⟨place, immediate, false, false, false, false⟩

/-- `publishable_slot`, for a slot that has a record. -/
def publishable (durable : Nat) (slot : LogSlot) : Bool :=
  slot.failed || (slot.written && (!slot.immediate || decide (slot.place.stop ≤ durable)))

def isDone (slot : LogSlot) : Bool := slot.written || slot.failed

end LogSlot

/-- A thread that writes records, by where it is: the slots it means to write, those it found
not written, those it wrote, and the side it is counted on. -/
inductive Writer
  | idle
  | counted (run : List Nat)
  | checking (side : Nat) (kept rest : List Nat)
  | writing (side : Nat) (kept : List Nat)
  | leaving (side : Nat) (wrote : List Nat)
  | leftSide (wrote : List Nat)
  | marking (wrote : List Nat)
  deriving DecidableEq

namespace Writer

/-- The slots a thread that is counted in may still write. -/
def reserved : Writer → List Nat
  | counted run => run
  | checking _ kept rest => kept ++ rest
  | writing _ kept => kept
  | idle | leaving .. | leftSide _ | marking _ => []

/-- The slots it found not written, and will write or is writing. -/
def kept : Writer → List Nat
  | checking _ kept _ | writing _ kept => kept
  | idle | counted _ | leaving .. | leftSide _ | marking _ => []

/-- The slots whose bytes are on their way to the log. -/
def inFlight : Writer → List Nat
  | writing _ kept => kept
  | idle | counted _ | checking .. | leaving .. | leftSide _ | marking _ => []

def wrote : Writer → List Nat
  | leaving _ wrote | leftSide wrote | marking wrote => wrote
  | idle | counted _ | checking .. | writing .. => []

def side? : Writer → Option Nat
  | checking side _ _ | writing side _ | leaving side _ => some side
  | idle | counted _ | leftSide _ | marking _ => none

def isCounted : Writer → Bool
  | counted _ | checking .. | writing .. | leaving .. | leftSide _ => true
  | idle | marking _ => false

def afterChecks (side : Nat) (kept : List Nat) : Writer :=
  if kept = [] then leaving side [] else writing side kept

end Writer

inductive Settling
  | start
  | waiting (turned : Nat)
  | drained (turned : Nat)
  | looking
  | storing
  | turning
  deriving DecidableEq

inductive Round
  | free
  | loaded (last through : Nat)
  | scanning (next last through : Nat)
  | settling (through : Nat) (pc : Settling)
  | settled (upto : Nat)
  | synced
  | rolling
  | judged
  | turned
  | cut
  deriving DecidableEq

namespace Round

def isFrozen : Round → Bool
  | rolling | judged | turned | cut => true
  | free | loaded .. | scanning .. | settling .. | settled _ | synced => false

/-- The gate was turned for a sync and its side has not been changed yet. -/
def isTurning : Round → Bool
  | settling _ .turning => true
  | _ => false

end Round

structure SyncState where
  /-- The slots behind the decided frontier that have a place in the log, in ring order. -/
  slots : List LogSlot
  /-- The slot at the frontier, once its decision is installed. -/
  pending : Option LogSlot
  published : Nat
  /-- The tip's next offset and epoch. -/
  nextOff : Nat
  epoch : Nat
  gate : Gate
  writers : List Writer
  round : Round
  durable : Nat
  poisoned : Bool
  /-- The furthest offset a settle returned that no rollback has cut below. -/
  settledTo : Nat
  deriving DecidableEq

inductive SyncAction
  | install (len : Nat) (immediate : Bool)
  | decide
  | publish
  | enter (thread : Nat) (run : List Nat)
  | join (thread : Nat)
  | check (thread : Nat)
  | wrote (thread : Nat) (fails : Bool)
  | leaveSide (thread : Nat)
  | leaveWord (thread : Nat)
  | mark (thread : Nat)
  | poison
  | loadTip
  | loadPublished
  | scan
  | settle
  | park
  | sync (fails : Bool)
  | endRound
  | judge
  | turnGate
  | cutLog
  | resume (own : Option Nat)
  deriving DecidableEq

def SyncAction.installs : SyncAction → Bool
  | .install .. => true
  | _ => false

namespace SyncState

/-- A log just created, with `threads` threads that write to it; its stamp is synced where the
log is sealed. -/
def new (threads stampLen : Nat) (synced : Bool) : SyncState :=
  ⟨[], none, 0, stampLen, 0, .new, List.replicate threads .idle, .free,
    if synced then stampLen else 0, false, 0⟩

variable (s : SyncState)

/-- A decision is installed: its record is placed at the tip's next offset. A thread may have
read the tip while a rollback held it. -/
def install (len : Nat) (immediate : Bool) : Option SyncState :=
  if s.pending.isNone ∧ 0 < len then
    some { s with pending := some (.placedAt ⟨s.nextOff, len, s.epoch⟩ immediate) }
  else none

/-- The pipeline's `settle`: a decision made from a state a rollback discarded fails its slot. -/
def decideNext : Option SyncState :=
  s.pending.bind fun slot =>
    if s.round.isFrozen then none
    else if slot.place.epoch ≠ s.epoch then
      some { s with
        slots := s.slots ++ [{ slot with failed := true, discarded := true }], pending := none }
    else some { s with slots := s.slots ++ [slot], pending := none, nextOff := slot.place.stop }

def publishNext : Option SyncState :=
  s.slots[s.published]?.bind fun slot =>
    if s.round.isFrozen = false ∧ slot.publishable s.durable then
      some { s with published := s.published + 1 }
    else none

variable (thread : Nat)

def setWriter (w : Writer) : SyncState :=
  { s with writers := s.writers.set thread w }

/-- `count_in`: the records of a run are all of the epoch the gate is at. -/
def enter (run : List Nat) : Option SyncState :=
  if s.writers[thread]? = some .idle ∧
      run.all fun i => s.slots[i]?.any fun slot => decide (slot.place.epoch = s.gate.epoch) then
    (s.gate.enterWord s.gate.epoch).map fun gate =>
      { s.setWriter thread (.counted run) with gate }
  else none

def join : Option SyncState :=
  match s.writers[thread]? with
  | some (.counted run) =>
    s.gate.enterSide.map fun p => { s.setWriter thread (.checking p.2 [] run) with gate := p.1 }
  | _ => none

/-- One look of the `take_while` over the records. -/
def check : Option SyncState :=
  match s.writers[thread]? with
  | some (.checking side kept []) => some (s.setWriter thread (.afterChecks side kept))
  | some (.checking side kept (i :: rest)) =>
    some (s.setWriter thread
      (if s.slots[i]?.all LogSlot.isDone then .afterChecks side kept
      else .checking side (kept ++ [i]) rest))
  | _ => none

def restAll (slots : List LogSlot) (is : List Nat) : List LogSlot :=
  is.foldl (fun slots i => slots.modify i fun slot => { slot with rests := true }) slots

/-- The write returns; one that fails poisons the log. -/
def wrote (fails : Bool) : Option SyncState :=
  match s.writers[thread]? with
  | some (.writing side kept) =>
    if fails then some { s.setWriter thread (.leaving side []) with poisoned := true }
    else some { s.setWriter thread (.leaving side kept) with slots := restAll s.slots kept }
  | _ => none

def leaveSide : Option SyncState :=
  match s.writers[thread]? with
  | some (.leaving side wrote) =>
    some { s.setWriter thread (.leftSide wrote) with gate := s.gate.leaveSide side }
  | _ => none

def leaveWord : Option SyncState :=
  match s.writers[thread]? with
  | some (.leftSide wrote) =>
    some { s.setWriter thread (.marking wrote) with gate := s.gate.leaveWord }
  | _ => none

/-- `WRITTEN` is marked on one slot after the other, out of the gate. -/
def mark : Option SyncState :=
  match s.writers[thread]? with
  | some (.marking []) => some (s.setWriter thread .idle)
  | some (.marking (i :: rest)) =>
    some { s.setWriter thread (.marking rest) with
      slots := s.slots.modify i fun slot => { slot with written := true } }
  | _ => none

/-- What the round does once it knows how far the log is written. -/
def beginSettle (through : Nat) : SyncState :=
  if s.durable < through ∧ s.poisoned = false then
    { s with round := .settling through .start }
  else { s with round := .synced }

/-- One step of the loop of `sync_written`: the prefix ends where the first record lies that is
not written. -/
def scanNext (next last through : Nat) : Option SyncState :=
  if next < last then
    s.slots[next]?.map fun slot =>
      if slot.written then { s with round := .scanning (next + 1) last through }
      else s.beginSettle slot.place.offset
  else some (s.beginSettle through)

def settledAt (upto : Nat) : SyncState :=
  { s with round := .settled upto, settledTo := max s.settledTo upto }

def settleStep (through : Nat) : Settling → SyncState
  | .start =>
    if s.gate.turned ≠ 0 then { s with round := .settling through (.waiting s.gate.turned) }
    else { s with round := .settling through .looking }
  | .waiting turned =>
    if onSide s.gate.sides (1 - currentSide s.gate.sides) = 0 then
      { s with round := .settling through (.drained turned) }
    else { s with round := .settling through .start }
  | .drained turned => { s with gate := s.gate.forgetTurn }.settledAt (min turned through)
  | .looking =>
    if onSide s.gate.sides (currentSide s.gate.sides) = 0 then s.settledAt through
    else { s with round := .settling through .storing }
  | .storing =>
    { s with gate := { s.gate with turned := through }, round := .settling through .turning }
  | .turning => { s with gate := s.gate.flip, round := .settling through .start }

def parkRound : Option SyncState :=
  match s.round with
  | .settling _ (.waiting _) =>
    if onSide s.gate.sides (1 - currentSide s.gate.sides) = 0 then none
    else some { s with round := .free }
  | _ => none

def syncSettled (fails : Bool) (upto : Nat) : SyncState :=
  if upto ≤ s.durable ∨ s.poisoned then { s with round := .synced }
  else if fails then { s with round := .synced, poisoned := true }
  else { s with round := .synced, durable := max s.durable upto }

/-- The slots a rollback keeps: those published, and those that are publishable. -/
def kept : Nat :=
  s.published + ((s.slots.drop s.published).takeWhile (LogSlot.publishable s.durable)).length

def cutAt : Nat :=
  max (((s.slots.drop s.published).head?.map fun slot => slot.place.offset).getD s.nextOff)
    s.durable

def cutLog : SyncState :=
  { s with
    slots := s.slots.take s.published ++
      (s.slots.drop s.published).map fun slot => { slot with rests := false, discarded := true }
    nextOff := s.cutAt
    gate := s.gate.forgetTurn
    poisoned := false
    settledTo := min s.settledTo s.cutAt
    round := .cut }

/-- The discarded slots are failed, what the rollback logs itself is in the log, and both
frontiers go on from there. -/
def resume (own : Option Nat) : SyncState :=
  let slots := (s.slots.map fun slot => { slot with failed := slot.failed || slot.discarded }) ++
    own.toList.map fun len =>
      { LogSlot.placedAt ⟨s.nextOff, len, s.epoch⟩ false with written := true, rests := true }
  { s with
    slots
    published := slots.length
    nextOff := s.nextOff + own.getD 0
    round := .free }

def step : SyncAction → Option SyncState
  | .install len immediate => s.install len immediate
  | .decide => s.decideNext
  | .publish => s.publishNext
  | .enter thread run => s.enter thread run
  | .join thread => s.join thread
  | .check thread => s.check thread
  | .wrote thread fails => s.wrote thread fails
  | .leaveSide thread => s.leaveSide thread
  | .leaveWord thread => s.leaveWord thread
  | .mark thread => s.mark thread
  | .poison => some { s with poisoned := true }
  | .loadTip =>
    if s.round = .free then some { s with round := .loaded s.slots.length s.nextOff } else none
  | .loadPublished =>
    match s.round with
    | .loaded last through =>
      if s.poisoned then some { s with round := .synced }
      else some { s with round := .scanning s.published last through }
    | _ => none
  | .scan =>
    match s.round with
    | .scanning next last through => s.scanNext next last through
    | _ => none
  | .settle =>
    match s.round with
    | .settling through pc => some (s.settleStep through pc)
    | _ => none
  | .park => s.parkRound
  | .sync fails =>
    match s.round with
    | .settled upto => some (s.syncSettled fails upto)
    | _ => none
  | .endRound =>
    if s.round = .synced then
      if s.poisoned then some { s with round := .rolling, epoch := s.epoch + 1 }
      else some { s with round := .free }
    else none
  | .judge =>
    if s.round = .rolling then some { s with published := s.kept, round := .judged } else none
  | .turnGate =>
    if s.round = .judged then some { s with gate := s.gate.turn s.epoch, round := .turned }
    else none
  | .cutLog => if s.round = .turned ∧ s.gate.isClear then some s.cutLog else none
  | .resume own =>
    if s.round = .cut ∧ own.all fun len => decide (0 < len) then some (s.resume own) else none

end SyncState

end RegolithStore
