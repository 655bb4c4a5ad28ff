import RegolithStore.Commit.Decide
import RegolithStore.Lib.Runs

/-! The commit pipeline as one machine (`pipeline.rs`, `ordered.rs`, `allocate.rs`): slots are
decided in ring order, applied, written, synced and published, and a log that failed is rolled
back. Which thread takes a step is left out: a step is one of the pipeline's, and any order of
them is a run. Memtables are kept by identity, so that a reader that loaded a view before a
rollback still reads the memtable it loaded. A ring's void slots hold nothing and are left
out. `SyncRound` and `Frontiers` are of the same pipeline at the grain of single accesses: the
first of a write and a sync against one log, the second of deciding and publishing. There a slot
is its place and its flags, here it is what it writes, and no result of one is used in another. -/

namespace RegolithStore

open Lib Function Option

structure Slot where
  work : Work
  decision : Decision
  applied : Bool
  written : Bool
  failed : Bool

namespace Slot

variable (slot : Slot)

def ops : List WriteBatchOp := slot.decision.lands slot.work

/-- `publishable_slot`. -/
def publishable (durable : Nat) : Bool :=
  !slot.decision.commits || slot.failed ||
    match slot.decision.place with
    | none => true
    | some place => slot.written && (!slot.decision.immediate || decide (place.stop ≤ durable))

/-- The read horizon once the slot is published. A failed slot took no sequence that still
exists. -/
def raiseHorizon (horizon : Seq) : Seq :=
  if slot.failed then horizon else max horizon (slot.decision.lastSeq.getD 0)

end Slot

/-- A published view, its memtables by identity. -/
structure LoadedView where
  active : Nat
  frozen : List Nat
  version : Version

namespace LoadedView

def memtables (v : LoadedView) : List Nat := v.active :: v.frozen

/-- What the view shows, with the memtables as they are now. -/
def resolve (v : LoadedView) (memtables : Nat → MemTable) : ReadView :=
  ⟨memtables v.active, v.frozen.map memtables, v.version⟩

end LoadedView

structure PipelineState where
  /-- The slots behind the decided frontier, in ring order. -/
  slots : List Slot
  /-- The slot at the frontier, once its decision is installed. -/
  pending : Option Slot
  published : Nat
  tip : After
  memtables : Nat → MemTable
  /-- The identity the next memtable takes. -/
  fresh : Nat
  view : LoadedView
  horizon : Seq
  durable : Nat
  poisoned : Bool
  latch : Option IoError
  /-- What rollbacks logged themselves, each with its first sequence. -/
  writeBacks : List (List WriteBatchOp × Seq)

namespace PipelineState

variable (s : PipelineState)

def readView (v : LoadedView) : ReadView := v.resolve s.memtables

def writable : Except IoError Unit :=
  match s.latch with
  | none => .ok ()
  | some err =>
    let message := err.message
    .error ⟨err.kind, s!"write-ahead log left in an unknown state: {message}"⟩

def Landed (slot : Slot) : Prop := slot ∈ s.slots.take s.published ∧ slot.failed = false

end PipelineState

/-- The slots a rollback publishes itself, and the horizon then. -/
def publishReady (durable : Nat) : Seq → List Slot → Nat × Seq
  | horizon, [] => (0, horizon)
  | horizon, slot :: rest =>
    if slot.publishable durable then
      let ready := publishReady durable (slot.raiseHorizon horizon) rest
      (ready.1 + 1, ready.2)
    else (0, horizon)

/-- The value after the last one the slot reserved, for a reservation that is not empty. -/
def Slot.reserved (slot : Slot) : Option (Key × UInt64) :=
  match slot.work, slot.decision.fate with
  | .allocate key _ _, .allocated first stop => if first < stop then some (key, stop - 1) else none
  | _, _ => none

/-- Per key, the last value a discarded reservation reserved. -/
def raiseReserved (last : List (Key × UInt64)) (reserved : Key × UInt64) : List (Key × UInt64) :=
  if last.any fun p => decide (p.1 = reserved.1) then
    last.map fun p => if p.1 = reserved.1 then (p.1, max p.2 reserved.2) else p
  else last ++ [reserved]

def lastReserved (failed : List Slot) : List (Key × UInt64) :=
  (failed.filterMap Slot.reserved).foldl raiseReserved []

def reservedPuts (last : List (Key × UInt64)) : List WriteBatchOp :=
  last.map fun p => .put p.1 (encodeBeU64 p.2)

section RollBack

variable (engine : Engine)

/-- Log the operations at the end of the log, apply them and publish them. -/
def logAlone (hostErr : Option IoError) (ops : List WriteBatchOp) (s : PipelineState) :
    Except IoError PipelineState := do
  checkWriteLen (recordPayloadLen ops)
  hostCall hostErr
  let base := s.tip.nextSeq
  let place : Place := ⟨s.tip.nextOff, engine.framedLen (recordPayloadLen ops), s.tip.epoch⟩
  let id := s.tip.memtable
  pure { s with
    memtables := update s.memtables id ((s.memtables id).apply ops base)
    tip := { s.tip with
      nextSeq := base + UInt64.ofNat ops.length
      nextOff := place.stop
      memUsed := s.tip.memUsed + (ops.map engine.opMemtableCost).sum }
    horizon := max s.horizon (base + UInt64.ofNat ops.length - 1)
    writeBacks := s.writeBacks ++ [(ops, base)] }

/-- `write_back_reservations`: a write that fails latches the store. -/
def writeBackReservations (hostErr : Option IoError) (failed : List Slot) (s : PipelineState) :
    PipelineState :=
  let last := lastReserved failed
  if last.isEmpty || s.latch.isSome then s
  else match logAlone engine hostErr (reservedPuts last) s with
    | .error err => { s with latch := some err }
    | .ok s =>
      { s with tip := { s.tip with
          counters := last.foldl (fun counters p => counters.set p.1 p.2) s.tip.counters } }

variable (s : PipelineState)

/-- The slots that are published, and those that are discarded. -/
def PipelineState.kept : Nat :=
  s.published + (publishReady s.durable s.horizon (s.slots.drop s.published)).1

def PipelineState.discarded : List Slot := s.slots.drop s.kept

/-- The first sequence the slots took, or the next one. -/
def floorOf (slots : List Slot) (nextSeq : Seq) : Seq :=
  ((slots.find? fun slot => slot.decision.commits).map fun slot => slot.decision.baseSeq).getD nextSeq

def PipelineState.floor : Seq := floorOf s.discarded s.tip.nextSeq

/-- Where the log is cut: at the first discarded record, and never below what is durable. -/
def PipelineState.cutAt : Nat :=
  max ((s.discarded.findSome? fun slot =>
    if slot.decision.after.log = s.tip.log then slot.decision.place.map Place.offset
    else none).getD s.tip.nextOff) s.durable

/-- The state a rollback resumes from, before it writes counters back. A cut that fails latches
the store. -/
def PipelineState.cutBack (cutErr : Option IoError) : PipelineState :=
  let after := { s.tip with nextSeq := s.floor }
  let rebuilt := (s.memtables s.tip.memtable).rebuild s.fresh after.ceiling
  { s with
    slots := s.slots.take s.kept ++ s.discarded.map fun slot => { slot with failed := true }
    published := s.slots.length
    tip := { after with
      nextOff := s.cutAt
      memtable := s.fresh
      memUsed := engine.approximateSize rebuilt
      epoch := s.tip.epoch + 1 }
    memtables := update s.memtables s.fresh rebuilt
    fresh := s.fresh + 1
    view := if s.view.active = s.tip.memtable then { s.view with active := s.fresh } else s.view
    horizon := (publishReady s.durable s.horizon (s.slots.drop s.published)).2
    poisoned := false
    latch := s.latch.or cutErr }

def PipelineState.rollBack (cutErr writeBackErr : Option IoError) :
    PipelineState :=
  writeBackReservations engine writeBackErr s.discarded (s.cutBack engine cutErr)

end RollBack

/-- A range delete deletes something: the calls that write drop those that do not. -/
def WriteBatchOp.isProper : WriteBatchOp → Bool
  | deleteRange start stop => decide (start < stop)
  | put .. | delete .. | merge .. => true

def Work.isProper : Work → Bool
  | request written => written.ops.all WriteBatchOp.isProper
  | allocate .. => true

inductive PipelineAction
  | decide (work : Work)
  /-- The slot at the frontier is applied. -/
  | apply
  /-- A thread that stopped before a rollback applies the slot it discarded. -/
  | applyLate (index : Nat)
  | settle
  | write (index : Nat)
  | sync (upto : Nat)
  | publish
  | fail
  | rollBack (cutErr writeBackErr : Option IoError)
  | rotate (stampLen : Nat)

section Step

variable (engine : Engine) (s : PipelineState)

def PipelineState.applySlot (slot : Slot) : Nat → MemTable :=
  let id := slot.decision.after.memtable
  update s.memtables id ((s.memtables id).apply slot.ops slot.decision.baseSeq)

/-- `decide`; the sequences a slot takes are there to be taken. -/
def PipelineState.decideNext (work : Work) : Option PipelineState :=
  let d := decideWork engine (s.readView s.view) s.writable s.slots.length work s.tip
  if s.pending.isNone ∧ work.isProper ∧ s.tip.nextSeq.Fits d.ops then
    some { s with pending := some ⟨work, d, false, false, false⟩ }
  else none

def PipelineState.applyNext : Option PipelineState :=
  match s.pending with
  | none => none
  | some slot =>
    if slot.decision.commits ∧ slot.applied = false then
      some { s with memtables := s.applySlot slot, pending := some { slot with applied := true } }
    else none

def PipelineState.applyLate (index : Nat) : Option PipelineState :=
  match s.slots[index]? with
  | none => none
  | some slot =>
    if slot.failed ∧ slot.decision.commits ∧ slot.applied = false then
      some { s with
        memtables := s.applySlot slot
        slots := s.slots.set index { slot with applied := true } }
    else none

/-- `settle`: the tip moves to the decision and the frontier passes it. One made from a state a
rollback discarded lands nothing. -/
def PipelineState.settleNext : Option PipelineState :=
  match s.pending with
  | none => none
  | some slot =>
    if s.tip.epoch ≠ slot.decision.after.epoch then
      some { s with slots := s.slots ++ [{ slot with failed := true }], pending := none }
    else if slot.decision.commits ∧ slot.applied = false then none
    else some { s with slots := s.slots ++ [slot], pending := none, tip := slot.decision.after }

/-- A record reaches the log only in the epoch it was placed in. -/
def PipelineState.writeRecord (index : Nat) : Option PipelineState :=
  match s.slots[index]? with
  | none => none
  | some slot =>
    if slot.failed = false ∧ slot.decision.place.any fun p => decide (p.epoch = s.tip.epoch) then
      some { s with slots := s.slots.set index { slot with written := true } }
    else none

def PipelineState.syncThrough (upto : Nat) : Option PipelineState :=
  if s.poisoned = false ∧ s.slots.all fun slot => slot.failed || slot.written ||
      slot.decision.place.all fun p => decide (upto ≤ p.offset) then
    some { s with durable := max s.durable upto }
  else none

def PipelineState.publishNext : Option PipelineState :=
  match s.slots[s.published]? with
  | none => none
  | some slot =>
    if slot.publishable s.durable then
      some { s with published := s.published + 1, horizon := slot.raiseHorizon s.horizon }
    else none

/-- A seal with the pipeline drained: the active memtable joins the frozen ones, and a fresh one
and a fresh log take its place. -/
def PipelineState.sealActive (stampLen : Nat) : Option PipelineState :=
  if s.pending.isNone ∧ s.published = s.slots.length ∧ s.poisoned = false ∧ s.latch.isNone then
    let sealing := { s.memtables s.view.active with
      sealedSeq := some s.tip.ceiling
      sealedWal := some (UInt64.ofNat s.tip.log) }
    some { s with
      memtables := update (update s.memtables s.view.active sealing) s.fresh
        (.new s.fresh)
      fresh := s.fresh + 1
      view := { s.view with active := s.fresh, frozen := s.view.frozen ++ [s.view.active] }
      tip := { s.tip with
        memtable := s.fresh, memUsed := 0, log := s.tip.log + 1, nextOff := stampLen }
      durable := stampLen }
  else none

def PipelineState.step (s : PipelineState) : PipelineAction → Option PipelineState
  | .decide work => s.decideNext engine work
  | .apply => s.applyNext
  | .applyLate index => s.applyLate index
  | .settle => s.settleNext
  | .write index => s.writeRecord index
  | .sync upto => s.syncThrough upto
  | .publish => s.publishNext
  | .fail => some { s with poisoned := true }
  | .rollBack cutErr writeBackErr =>
    if s.poisoned ∧ s.floor.Fits (lastReserved s.discarded).length then
      some (s.rollBack engine cutErr writeBackErr)
    else none
  | .rotate stampLen => s.sealActive stampLen

end Step

namespace PipelineState

variable {engine : Engine} {s s' : PipelineState} {index : Nat}

theorem decideNext_eq_some {work : Work} (hs : s.decideNext engine work = some s') : s.pending =
    none ∧ work.isProper = true ∧ s.tip.nextSeq.Fits
      (decideWork engine (s.readView s.view) s.writable s.slots.length work s.tip).ops ∧
    s' = { s with pending := some ⟨work,
      decideWork engine (s.readView s.view) s.writable s.slots.length work s.tip,
      false, false, false⟩ } := by
  obtain ⟨⟨hn, hp, hf⟩, rfl⟩ := guarded_eq_some.mp hs
  exact ⟨isNone_iff_eq_none.mp hn, hp, hf, rfl⟩

theorem applyNext_eq_some (hs : s.applyNext = some s') : ∃ slot, s.pending = some slot ∧
    0 < slot.decision.ops ∧ slot.applied = false ∧
    s' = { s with memtables := s.applySlot slot, pending := some { slot with applied := true } } := by
  rw [applyNext] at hs
  cases hp : s.pending with
  | none => rw [hp] at hs; cases hs
  | some slot =>
    rw [hp] at hs
    simp only [ite_none_right_eq_some, some.injEq] at hs
    exact ⟨slot, rfl, of_decide_eq_true hs.1.1, hs.1.2, hs.2.symm⟩

theorem applyLate_eq_some (hs : s.applyLate index = some s') : ∃ slot,
    s.slots[index]? = some slot ∧ slot.failed = true ∧ 0 < slot.decision.ops ∧
    slot.applied = false ∧ s' = { s with
      memtables := s.applySlot slot
      slots := s.slots.set index { slot with applied := true } } := by
  rw [applyLate] at hs
  cases hslot : s.slots[index]? with
  | none => rw [hslot] at hs; cases hs
  | some slot =>
    rw [hslot] at hs
    obtain ⟨⟨hf, hcommits, ha⟩, rfl⟩ := guarded_eq_some.mp hs
    exact ⟨slot, rfl, hf, of_decide_eq_true hcommits, ha, rfl⟩

theorem settleNext_eq_some (hs : s.settleNext = some s') : ∃ slot, s.pending = some slot ∧
    (s.tip.epoch ≠ slot.decision.after.epoch ∧
      s' = { s with slots := s.slots ++ [{ slot with failed := true }], pending := none } ∨
    s.tip.epoch = slot.decision.after.epoch ∧ (0 < slot.decision.ops → slot.applied = true) ∧
      s' = { s with slots := s.slots ++ [slot], pending := none, tip := slot.decision.after }) := by
  rw [settleNext] at hs
  cases hp : s.pending with
  | none => rw [hp] at hs; cases hs
  | some slot =>
    rw [hp] at hs
    refine ⟨slot, rfl, ?_⟩
    by_cases hep : s.tip.epoch ≠ slot.decision.after.epoch
    · simp only [if_pos hep, some.injEq] at hs
      exact .inl ⟨hep, hs.symm⟩
    · simp only [if_neg hep, ite_none_left_eq_some, some.injEq] at hs
      refine .inr ⟨not_not.mp hep, fun hops => ?_, hs.2.symm⟩
      exact Bool.not_eq_false _ ▸ fun hfalse => hs.1 ⟨decide_eq_true hops, hfalse⟩

theorem writeRecord_eq_some (hs : s.writeRecord index = some s') : ∃ slot,
    s.slots[index]? = some slot ∧ slot.failed = false ∧
    s' = { s with slots := s.slots.set index { slot with written := true } } := by
  rw [writeRecord] at hs
  cases hslot : s.slots[index]? with
  | none => rw [hslot] at hs; cases hs
  | some slot =>
    rw [hslot] at hs
    simp only [ite_none_right_eq_some, some.injEq] at hs
    exact ⟨slot, rfl, hs.1.1, hs.2.symm⟩

theorem syncThrough_eq_some {upto : Nat} (hs : s.syncThrough upto = some s') :
    s.poisoned = false ∧ s' = { s with durable := max s.durable upto } := by
  simp only [syncThrough, ite_none_right_eq_some, some.injEq] at hs
  exact ⟨hs.1.1, hs.2.symm⟩

theorem publishNext_eq_some (hs : s.publishNext = some s') : ∃ slot,
    s.slots[s.published]? = some slot ∧ slot.publishable s.durable = true ∧
    s' = { s with published := s.published + 1, horizon := slot.raiseHorizon s.horizon } := by
  rw [publishNext] at hs
  cases hslot : s.slots[s.published]? with
  | none => rw [hslot] at hs; cases hs
  | some slot =>
    rw [hslot] at hs
    simp only [ite_none_right_eq_some, some.injEq] at hs
    exact ⟨slot, rfl, hs.1, hs.2.symm⟩

theorem logAlone_eq_ok {hostErr : Option IoError} {ops : List WriteBatchOp}
    (h : logAlone engine hostErr ops s = .ok s') : s' = { s with
      memtables := update s.memtables s.tip.memtable
        ((s.memtables s.tip.memtable).apply ops s.tip.nextSeq)
      tip := { s.tip with
        nextSeq := s.tip.nextSeq + UInt64.ofNat ops.length
        nextOff := s.tip.nextOff + engine.framedLen (recordPayloadLen ops)
        memUsed := s.tip.memUsed + (ops.map engine.opMemtableCost).sum }
      horizon := max s.horizon (s.tip.nextSeq + UInt64.ofNat ops.length - 1)
      writeBacks := s.writeBacks ++ [(ops, s.tip.nextSeq)] } := by
  rw [logAlone] at h
  cases hlen : checkWriteLen (recordPayloadLen ops) with
  | error err => rw [hlen] at h; cases h
  | ok _ =>
    cases hostErr with
    | some err => rw [hlen] at h; cases h
    | none => rw [hlen] at h; exact (Except.ok.inj h).symm

theorem step_rollBack_eq_some {cutErr writeBackErr : Option IoError}
    (hs : s.step engine (.rollBack cutErr writeBackErr) = some s') :
    s.floor.Fits (lastReserved s.discarded).length ∧
      s' = s.rollBack engine cutErr writeBackErr := by
  simp only [step, ite_none_right_eq_some, some.injEq] at hs
  exact ⟨hs.1.2, hs.2.symm⟩

theorem sealActive_eq_some {stampLen : Nat} (hs : s.sealActive stampLen = some s') :
    s.pending = none ∧ s.published = s.slots.length ∧
    s' = { s with
      memtables := update (update s.memtables s.view.active
        { s.memtables s.view.active with
          sealedSeq := some s.tip.ceiling
          sealedWal := some (UInt64.ofNat s.tip.log) }) s.fresh (.new s.fresh)
      fresh := s.fresh + 1
      view := { s.view with active := s.fresh, frozen := s.view.frozen ++ [s.view.active] }
      tip := { s.tip with
        memtable := s.fresh, memUsed := 0, log := s.tip.log + 1, nextOff := stampLen }
      durable := stampLen } := by
  obtain ⟨⟨hp, hpub, -⟩, rfl⟩ := guarded_eq_some.mp hs
  exact ⟨isNone_iff_eq_none.mp hp, hpub, rfl⟩

end PipelineState

end RegolithStore
