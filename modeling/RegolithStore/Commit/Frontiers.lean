import RegolithStore.Lib.Runs
import RegolithStore.Wal.Frame
import Mathlib.Logic.Function.Basic

/-! The two frontiers of the commit ring while threads decide, write and publish and a failed log
is rolled back (`pipeline.rs`, `round.rs`, `ordered.rs`, `ring.rs`). A thread that decides reads
the decided frontier, loads the tip and installs its decision if its slot is still the next; one
that publishes looks at whether publication is frozen, reads the published frontier, judges the
slot, raises the horizon and passes the frontier. A rollback freezes the decided frontier, puts a
marker of the next epoch in the tip's place, freezes publication, publishes what is publishable
itself and discards the rest. Each read or write of what threads share is a step of its own. How
a write passes the log's gate is not looked into here: a write is in flight, then returned, then
marked, and a round that settles the writes below a prefix goes on or parks. What a slot is
decided to hold is left open. -/

namespace RegolithStore

open Lib Function

/-- What the next slot is decided from. Logs and memtables are named by what tells them apart. -/
structure TipState where
  nextSeq : Nat
  nextOff : Nat
  log : Nat
  memtable : Nat
  epoch : Nat
  /-- A rollback put it in place, to replace it when it is done. -/
  marker : Bool
  deriving DecidableEq

structure RingSlot where
  base : Nat
  ops : Nat
  place : Option Place
  immediate : Bool
  after : TipState
  applied : Bool
  written : Bool
  failed : Bool
  /-- All bytes of its record are in the log. -/
  rests : Bool
  /-- A rollback discarded it, or it was decided from a state one discarded. -/
  discarded : Bool
  deriving DecidableEq

namespace RingSlot

variable (slot : RingSlot)

def commits : Bool := decide (0 < slot.ops)

def stop : Nat := slot.base + slot.ops

def lastSeq : Nat := slot.base + slot.ops - 1

/-- Its record is in the log and marked, and durable when that was asked for. -/
def isWritten (durable : Nat → Nat) : Bool :=
  match slot.place with
  | none => true
  | some place => slot.written && (!slot.immediate || decide (place.stop ≤ durable slot.after.log))

/-- `publishable_slot`. -/
def publishable (durable : Nat → Nat) : Bool :=
  !slot.commits || slot.failed || slot.isWritten durable

/-- The read horizon once the slot is published. A failed slot took no sequence that still
exists. -/
def raise (horizon : Nat) : Nat :=
  if slot.commits && !slot.failed then max horizon slot.lastSeq else horizon

def isIn (log : Nat) : Bool := slot.place.isSome && decide (slot.after.log = log)

end RingSlot

/-- `take_place`: a slot with no operations takes nothing. -/
def TipState.take (tip : TipState) (ops : Nat) (len : Option Nat) (immediate : Bool) : RingSlot :=
  if ops = 0 then
    ⟨0, 0, none, false, { tip with marker := false }, false, false, false, false, false⟩
  else
    let place : Option Place := len.map fun len => ⟨tip.nextOff, len, tip.epoch⟩
    let after := { tip with
      nextSeq := tip.nextSeq + ops
      nextOff := (place.map Place.stop).getD tip.nextOff
      marker := false }
    ⟨tip.nextSeq, ops, place, immediate && len.isSome, after, false, false, false, false, false⟩

/-- A thread that decides, by where it is: the frontier it read, and the tip it loaded then. -/
inductive Decider
  | idle
  | reading (index : Nat)
  | holding (index : Nat) (tip : TipState)
  deriving DecidableEq

inductive Publisher
  | idle
  | unfrozen
  | looking (index : Nat)
  | unfailed (index : Nat)
  | cleared (index : Nat)
  | raising (index : Nat)
  | passing (index : Nat)
  deriving DecidableEq

/-- Where the holder of the round is. A rollback that judged the slots keeps the first sequence
and the first offset it hands back. -/
inductive RingRound
  | free
  | loaded (last through : Nat)
  | scanning (next last through : Nat)
  | syncing (through : Nat)
  | synced
  | frozen
  | marked
  | judging
  | judged (floor cut : Nat)
  | turned (floor cut : Nat)
  | cut (floor cut : Nat)
  | failed (floor cut : Nat)
  deriving DecidableEq

namespace RingRound

def freezesDecided : RingRound → Bool
  | frozen | marked | judging | judged .. | turned .. | cut .. | failed .. => true
  | free | loaded .. | scanning .. | syncing _ | synced => false

def freezesPublished : RingRound → Bool
  | judging | judged .. | turned .. | cut .. | failed .. => true
  | free | loaded .. | scanning .. | syncing _ | synced | frozen | marked => false

end RingRound

structure RingState where
  /-- The slots the tip has taken in and those failed as stale, in ring order. -/
  slots : List RingSlot
  decided : Nat
  /-- The next slot, once its decision is installed. -/
  pending : Option RingSlot
  published : Nat
  tip : TipState
  horizon : Nat
  /-- Per log, what is durable, and the bytes of its stamp. -/
  durable : Nat → Nat
  stampLen : Nat → Nat
  poisoned : Bool
  gateEpoch : Nat
  /-- The prefix a round parked on, zero for none. -/
  turned : Nat
  /-- The slots whose records are being written, and those written and not marked. -/
  inFlight : List Nat
  unmarked : List Nat
  deciders : List Decider
  publishers : List Publisher
  round : RingRound
  /-- The sequences each memtable holds. -/
  contents : Nat → List Nat
  active : Nat
  frozen : List Nat
  /-- The name the next memtable takes. -/
  fresh : Nat

inductive RingAction
  | readDecided (thread : Nat)
  | loadTip (thread : Nat)
  | install (thread ops : Nat) (len : Option Nat) (immediate : Bool)
  | apply
  | applyAgain (index : Nat)
  | moveTip
  | settleStale
  | passDecided
  | startWrite (index : Nat)
  | endWrite (index : Nat) (fails : Bool)
  | mark (index : Nat)
  | look (thread : Nat)
  | readPublished (thread : Nat)
  | readFailed (thread : Nat)
  | readWritten (thread : Nat)
  | readFailedAgain (thread : Nat)
  | raise (thread : Nat)
  | passPublished (thread : Nat)
  | poison
  | beginRound
  | loadPublished
  | scan
  | park
  | sync (fails : Bool)
  | endRound
  | turnAway
  | markTip
  | freeze
  | judgeNext
  | turnGate
  | cutLog
  | failDiscarded
  | resume (own : Option (Nat × Nat))
  | rotate (stampLen : Nat) (synced : Bool)
  deriving DecidableEq

namespace RingState

/-- A store just opened, `horizon` the last sequence it recovered. -/
def new (horizon stampLen : Nat) (synced : Bool) (deciders publishers : Nat) : RingState where
  slots := []
  decided := 0
  pending := none
  published := 0
  tip := ⟨horizon + 1, stampLen, 0, 0, 0, false⟩
  horizon
  durable _ := if synced then stampLen else 0
  stampLen _ := stampLen
  poisoned := false
  gateEpoch := 0
  turned := 0
  inFlight := []
  unmarked := []
  deciders := List.replicate deciders .idle
  publishers := List.replicate publishers .idle
  round := .free
  contents _ := []
  active := 0
  frozen := []
  fresh := 1

variable (s : RingState)

variable (thread : Nat)

def setDecider (d : Decider) : RingState :=
  { s with deciders := s.deciders.set thread d }

def readDecided : Option RingState :=
  if s.deciders[thread]? = some .idle ∧ s.round.freezesDecided = false then
    some (s.setDecider thread (.reading s.decided))
  else none

def loadTip : Option RingState :=
  match s.deciders[thread]? with
  | some (.reading index) => some (s.setDecider thread (.holding index s.tip))
  | _ => none

/-- `decide`: the slot is still the next to decide, and nobody decided it. -/
def install (thread ops : Nat) (len : Option Nat) (immediate : Bool) : Option RingState :=
  match s.deciders[thread]? with
  | some (.holding index tip) =>
    if s.round.freezesDecided = false ∧ s.decided = index ∧ s.slots.length = index ∧
        s.pending.isNone ∧ len.all fun len => decide (0 < len) then
      some { s.setDecider thread .idle with pending := some (tip.take ops len immediate) }
    else some (s.setDecider thread .idle)
  | _ => none

def applySlot (slot : RingSlot) : Nat → List Nat :=
  update s.contents slot.after.memtable
    (s.contents slot.after.memtable ++ List.range' slot.base slot.ops)

def apply : Option RingState :=
  s.pending.map fun slot =>
    { s with contents := s.applySlot slot, pending := some { slot with applied := true } }

variable (index : Nat)

/-- A thread that began to apply a slot goes on whatever became of the slot. -/
def applyAgain : Option RingState :=
  s.slots[index]?.map fun slot => { s with contents := s.applySlot slot }

def moveTip : Option RingState :=
  s.pending.bind fun slot =>
    if slot.after.epoch = s.tip.epoch ∧ (slot.commits → slot.applied) then
      some { s with slots := s.slots ++ [slot], pending := none, tip := slot.after }
    else none

/-- A decision from a state a rollback discarded fails its slot. -/
def settleStale : Option RingState :=
  s.pending.bind fun slot =>
    if slot.after.epoch ≠ s.tip.epoch ∧ s.round.freezesDecided = false ∧
        s.decided = s.slots.length then
      some { s with
        slots := s.slots ++ [{ slot with failed := true, discarded := true }]
        pending := none }
    else none

def passDecided : Option RingState :=
  if s.decided < s.slots.length ∧ s.round.freezesDecided = false then
    some { s with decided := s.decided + 1 }
  else none

/-- A write counts in only in the epoch its record was placed in, and looks at the slot then. -/
def startWrite : Option RingState :=
  s.slots[index]?.bind fun slot =>
    if index < s.decided ∧ slot.isIn s.tip.log ∧ slot.after.epoch = s.gateEpoch ∧
        slot.written = false ∧ slot.failed = false then
      some { s with inFlight := index :: s.inFlight }
    else none

/-- The write returns; one that fails poisons the log. -/
def endWrite (fails : Bool) : Option RingState :=
  if index ∈ s.inFlight then
    some (if fails then { s with inFlight := s.inFlight.erase index, poisoned := true }
    else { s with
      inFlight := s.inFlight.erase index
      slots := s.slots.modify index fun slot => { slot with rests := true }
      unmarked := index :: s.unmarked })
  else none

def mark : Option RingState :=
  if index ∈ s.unmarked then
    some { s with
      unmarked := s.unmarked.erase index
      slots := s.slots.modify index fun slot => { slot with written := true } }
  else none

def setPublisher (p : Publisher) : RingState :=
  { s with publishers := s.publishers.set thread p }

def look : Option RingState :=
  if s.publishers[thread]? = some .idle ∧ s.round.freezesPublished = false then
    some (s.setPublisher thread .unfrozen)
  else none

def readPublished : Option RingState :=
  if s.publishers[thread]? = some .unfrozen then
    some (s.setPublisher thread
      (if s.published < s.decided then .looking s.published else .idle))
  else none

def readFailed : Option RingState :=
  match s.publishers[thread]? with
  | some (.looking index) =>
    s.slots[index]?.map fun slot => s.setPublisher thread
      (if !slot.commits || slot.failed then .cleared index else .unfailed index)
  | _ => none

def readWritten : Option RingState :=
  match s.publishers[thread]? with
  | some (.unfailed index) =>
    s.slots[index]?.map fun slot => s.setPublisher thread
      (if slot.isWritten s.durable then .cleared index else .idle)
  | _ => none

def readFailedAgain : Option RingState :=
  match s.publishers[thread]? with
  | some (.cleared index) =>
    s.slots[index]?.map fun slot => s.setPublisher thread
      (if slot.commits && !slot.failed then .raising index else .passing index)
  | _ => none

def raise : Option RingState :=
  match s.publishers[thread]? with
  | some (.raising index) =>
    s.slots[index]?.map fun slot => { s.setPublisher thread (.passing index) with
      horizon := max s.horizon slot.lastSeq }
  | _ => none

def passPublished : Option RingState :=
  match s.publishers[thread]? with
  | some (.passing index) =>
    some { s.setPublisher thread .idle with
      published :=
        if s.published = index ∧ s.round.freezesPublished = false then index + 1
        else s.published }
  | _ => none

def beginSync (through : Nat) : RingState :=
  if s.durable s.tip.log < through ∧ s.poisoned = false then { s with round := .syncing through }
  else { s with round := .synced }

/-- One step of the loop of `sync_written`: the prefix ends where the first record lies that is
not written. -/
def scanNext (next last through : Nat) : Option RingState :=
  if next < last then
    s.slots[next]?.map fun slot =>
      match slot.place with
      | none => { s with round := .scanning (next + 1) last through }
      | some place =>
        if slot.after.log ≠ s.tip.log ∨ slot.written then
          { s with round := .scanning (next + 1) last through }
        else s.beginSync place.offset
  else some (s.beginSync through)

/-- Writes below the prefix are in flight: the round is left for the next thread. -/
def park (through : Nat) : RingState :=
  { s with turned := if s.turned = 0 then through else s.turned, round := .free }

/-- The writes below the prefix have returned: what a round parked on is synced first. -/
def syncThrough (through : Nat) (fails : Bool) : RingState :=
  let upto := if s.turned = 0 then through else min s.turned through
  if upto ≤ s.durable s.tip.log ∨ s.poisoned then { s with round := .synced, turned := 0 }
  else if fails then { s with round := .synced, turned := 0, poisoned := true }
  else { s with
    round := .synced
    turned := 0
    durable := update s.durable s.tip.log (max (s.durable s.tip.log) upto) }

/-- The first sequence the slots took, and where their first record lies in the log. -/
def floorOf (slots : List RingSlot) : Nat :=
  ((slots.find? RingSlot.commits).map RingSlot.base).getD s.tip.nextSeq

def cutOf (slots : List RingSlot) : Nat :=
  max (((slots.find? fun slot => slot.isIn s.tip.log).bind fun slot =>
    slot.place.map Place.offset).getD s.tip.nextOff) (s.durable s.tip.log)

def discardRest : RingState :=
  let rest := s.slots.drop s.published
  { s with
    slots := s.slots.take s.published ++ rest.map fun slot => { slot with discarded := true }
    round := .judged (s.floorOf rest) (s.cutOf rest) }

/-- The rollback publishes the slot, or finds the first that is not publishable. -/
def judgeNext : RingState :=
  match s.slots[s.published]? with
  | none => s.discardRest
  | some slot =>
    if slot.publishable s.durable then
      { s with published := s.published + 1, horizon := slot.raise s.horizon }
    else s.discardRest

variable (floor cut : Nat)

def cutLog : RingState :=
  { s with
    slots := s.slots.map fun slot => { slot with rests := slot.rests && !slot.discarded }
    poisoned := false
    turned := 0
    round := .cut floor cut }

def failDiscarded : RingState :=
  { s with
    slots := s.slots.map fun slot => { slot with failed := slot.failed || slot.discarded }
    round := .failed floor cut }

def resumedTip (own : Option (Nat × Nat)) : TipState :=
  { s.tip with
    nextSeq := floor + (own.map Prod.fst).getD 0
    nextOff := cut + (own.map Prod.snd).getD 0
    memtable := s.fresh
    marker := false }

/-- What the rollback logs itself, as a slot that is written and published. -/
def ownSlot (floor cut ops len : Nat) : RingSlot :=
  ⟨floor, ops, some ⟨cut, len, s.tip.epoch⟩, false, s.resumedTip floor cut (some (ops, len)),
    true, true, false, true, false⟩

/-- The memtable is rebuilt without the discarded sequences, what the rollback logs is applied
and published, and the tip and both frontiers go on from there. -/
def resume (own : Option (Nat × Nat)) : RingState :=
  let slots := s.slots ++ own.toList.map fun p => s.ownSlot floor cut p.1 p.2
  let kept := (s.contents s.tip.memtable).filter fun q => decide (q < floor)
  { s with
    slots
    decided := slots.length
    published := slots.length
    tip := s.resumedTip floor cut own
    horizon := max s.horizon ((own.map fun p => floor + p.1 - 1).getD 0)
    contents := update s.contents s.fresh
      (kept ++ List.range' floor ((own.map Prod.fst).getD 0))
    active := if s.active = s.tip.memtable then s.fresh else s.active
    fresh := s.fresh + 1
    round := .free }

def unitSlot (after : TipState) : RingSlot :=
  ⟨0, 0, none, false, after, false, false, false, false, false⟩

/-- A unit seals the active memtable with the pipeline drained: the log is synced, and a fresh
memtable and a fresh log take their places. -/
def rotate (stampLen : Nat) (synced : Bool) : RingState :=
  let tip := { s.tip with
    log := s.tip.log + 1, nextOff := stampLen, memtable := s.fresh, marker := false }
  { s with
    slots := s.slots ++ [unitSlot tip]
    decided := s.decided + 1
    tip
    durable := update
      (update s.durable s.tip.log (max (s.durable s.tip.log) s.tip.nextOff))
      (s.tip.log + 1) (if synced then stampLen else 0)
    stampLen := update s.stampLen (s.tip.log + 1) stampLen
    gateEpoch := s.tip.epoch
    turned := 0
    active := s.fresh
    frozen := s.frozen ++ [s.active]
    fresh := s.fresh + 1 }

def step : RingAction → Option RingState
  | .readDecided thread => s.readDecided thread
  | .loadTip thread => s.loadTip thread
  | .install thread ops len immediate => s.install thread ops len immediate
  | .apply => s.apply
  | .applyAgain index => s.applyAgain index
  | .moveTip => s.moveTip
  | .settleStale => s.settleStale
  | .passDecided => s.passDecided
  | .startWrite index => s.startWrite index
  | .endWrite index fails => s.endWrite index fails
  | .mark index => s.mark index
  | .look thread => s.look thread
  | .readPublished thread => s.readPublished thread
  | .readFailed thread => s.readFailed thread
  | .readWritten thread => s.readWritten thread
  | .readFailedAgain thread => s.readFailedAgain thread
  | .raise thread => s.raise thread
  | .passPublished thread => s.passPublished thread
  | .poison => some { s with poisoned := true }
  | .beginRound =>
    if s.round = .free then some { s with round := .loaded s.slots.length s.tip.nextOff }
    else none
  | .loadPublished =>
    match s.round with
    | .loaded last through =>
      if s.poisoned then some { s with round := .synced }
      else some { s with round := .scanning s.published last through }
    | _ => none
  | .scan =>
    match s.round with
    | .scanning next last through => s.scanNext next last through
    | _ => none
  | .park =>
    match s.round with
    | .syncing through => some (s.park through)
    | _ => none
  | .sync fails =>
    match s.round with
    | .syncing through => some (s.syncThrough through fails)
    | _ => none
  | .endRound =>
    if s.round = .synced then
      some { s with round := if s.poisoned then .frozen else .free }
    else none
  | .turnAway =>
    -- writes are in flight on a log that failed: later ones are turned away, and the round is left
    if s.round = .synced ∧ s.poisoned then
      some { s with gateEpoch := s.tip.epoch + 1, round := .free }
    else none
  | .markTip =>
    if s.round = .frozen then
      some { s with tip := { s.tip with epoch := s.tip.epoch + 1, marker := true }, round := .marked }
    else none
  | .freeze => if s.round = .marked then some { s with round := .judging } else none
  | .judgeNext => if s.round = .judging then some s.judgeNext else none
  | .turnGate =>
    match s.round with
    | .judged floor cut => some { s with gateEpoch := s.tip.epoch, round := .turned floor cut }
    | _ => none
  | .cutLog =>
    match s.round with
    | .turned floor cut => if s.inFlight = [] then some (s.cutLog floor cut) else none
    | _ => none
  | .failDiscarded =>
    match s.round with
    | .cut floor cut => some (s.failDiscarded floor cut)
    | _ => none
  | .resume own =>
    match s.round with
    | .failed floor cut =>
      if own.all fun p => decide (0 < p.1 ∧ 0 < p.2) then some (s.resume floor cut own) else none
    | _ => none
  | .rotate stampLen synced =>
    if s.round = .free ∧ s.pending.isNone ∧ s.decided = s.slots.length ∧
        s.published = s.slots.length ∧ s.inFlight = [] ∧ s.poisoned = false then
      some (s.rotate stampLen synced)
    else none

end RingState

end RegolithStore
