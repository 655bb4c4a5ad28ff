import Mathlib.Data.List.Destutter
import Mathlib.Data.List.Sort
import RegolithStore.Lib.Runs
import RegolithStore.Store.Entry

/-! The registry of live snapshots (`snapshot_registry.rs`, `snapshot_registry/chain.rs`).
A pin announces the horizon it read in an entry of its slot's chain of chunks, reads the
horizon again, and takes the announcement back when it moved. A scan lists the sequence of
every announced entry. Each call takes one load, store or read-modify-write at a time, in any
order, and sees what the calls before it wrote. A failed swap of a chunk's taken bits is tried
again on the bits it read, so a claim is one step; the time an entry was claimed at and the
waiters for an empty registry are left out. -/

namespace RegolithStore.Snapshot

open Lib Function

/-- `ENTRIES`, per chunk. -/
def entries : Nat := 63

/-- A slot, and where in its chain. -/
structure PinAt where
  slot : Nat
  depth : Nat
  index : Nat
  deriving DecidableEq

/-- What a call does once it has taken a count back. -/
inductive AfterUnpin
  /-- A join that found the entry recycled. -/
  | claim (slot : Nat) (seq : Seq)
  /-- A confirm that found the horizon moved. -/
  | announce (slot : Nat) (seq : Seq)
  | done
  deriving DecidableEq

/-- Where a call is, or the handle or list it returned. -/
inductive Call
  /-- `pin_in`. -/
  | visible (slot : Nat)
  | hint (slot : Nat) (seq : Seq)
  | joinPins (e : PinAt) (seq : Seq)
  | joinSeq (e : PinAt) (seq : Seq) (pins : Nat)
  | joinSwap (e : PinAt) (seq : Seq) (pins : Nat)
  | joinCheck (e : PinAt) (seq : Seq)
  | grow (slot : Nat) (seq : Seq) (depth : Nat)
  | claim (slot : Nat) (seq : Seq) (depth : Nat)
  | storeSeq (e : PinAt) (seq : Seq)
  | storePins (e : PinAt) (seq : Seq)
  | remember (e : PinAt) (seq : Seq)
  | confirm (e : PinAt) (seq : Seq)
  /-- The snapshot is live. -/
  | live (e : PinAt) (seq : Seq)
  | unpin (e : PinAt) (next : AfterUnpin)
  | clear (e : PinAt) (next : AfterUnpin)
  | released
  /-- `live_seqs`. -/
  | sample
  | scanSlot (found : List Seq) (slot : Nat)
  /-- The link behind a chunk is loaded before the chunk is read. -/
  | scanNext (found : List Seq) (slot depth : Nat)
  | scanTaken (found : List Seq) (slot depth : Nat) (more : Bool)
  /-- The taken entries of the chunk still to be read. -/
  | scanPins (found : List Seq) (slot depth : Nat) (more : Bool) (rest : List Nat)
  | scanSeq (found : List Seq) (slot depth : Nat) (more : Bool) (index : Nat) (rest : List Nat)
  | listed (seqs : List Seq)
  deriving DecidableEq

/-- A scan between its sample and its return. -/
def Call.scanning : Call → Bool
  | scanSlot .. | scanNext .. | scanTaken .. | scanPins .. | scanSeq .. => true
  | _ => false

def AfterUnpin.call : AfterUnpin → Call
  | claim slot seq => .grow slot seq 0
  | announce slot seq => .hint slot seq
  | done => .released

structure Registry where
  width : Nat
  horizon : Seq
  /-- The length of each slot's chain. -/
  chunks : Nat → Nat := fun _ => 0
  taken : PinAt → Bool := fun _ => false
  pins : PinAt → Nat := fun _ => 0
  seq : PinAt → Seq := fun _ => 0
  hint : Nat → Option (Nat × Nat) := fun _ => none
  calls : List Call := []

inductive Action
  | publish (seq : Seq)
  | pinIn (slot : Nat)
  | clonePin (call : Nat)
  | release (call : Nat)
  | liveSeqs
  | step (call : Nat)
  /-- A weak swap that fails with the expected value in place. -/
  | swapFails (call : Nat)
  deriving DecidableEq

namespace Registry

variable (s : Registry)

def goes (i : Nat) (c : Call) : Registry := { s with calls := s.calls.set i c }

section

variable (i : Nat) (c : Call)

@[simp] theorem goes_width : (s.goes i c).width = s.width := rfl

@[simp] theorem goes_horizon : (s.goes i c).horizon = s.horizon := rfl

@[simp] theorem goes_chunks : (s.goes i c).chunks = s.chunks := rfl

@[simp] theorem goes_taken : (s.goes i c).taken = s.taken := rfl

@[simp] theorem goes_pins : (s.goes i c).pins = s.pins := rfl

@[simp] theorem goes_seq : (s.goes i c).seq = s.seq := rfl

@[simp] theorem goes_calls : (s.goes i c).calls = s.calls.set i c := rfl

end

/-- The lowest clear bit of a chunk's `taken` word. -/
def lowestFree (slot depth : Nat) : Option Nat :=
  (List.range entries).find? fun index => !s.taken ⟨slot, depth, index⟩

def takenIn (slot depth : Nat) : List Nat :=
  (List.range entries).filter fun index => s.taken ⟨slot, depth, index⟩

/-- `sort_unstable`, then `dedup`. -/
def sortedList (found : List Seq) : List Seq :=
  (found.insertionSort (· ≤ ·)).destutter (· ≠ ·)

/-- The next step of call `i`, where it is. A handle and a finished call take none. -/
def stepCall (i : Nat) : Call → Option Registry
  | .visible slot => some (s.goes i (.hint slot s.horizon))
  | .hint slot seq => match s.hint slot with
    | some (depth, index) =>
      if depth < s.chunks slot then some (s.goes i (.joinPins ⟨slot, depth, index⟩ seq))
      else some (s.goes i (.grow slot seq 0))
    | none => some (s.goes i (.grow slot seq 0))
  | .joinPins e seq => some (s.goes i (.joinSeq e seq (s.pins e)))
  | .joinSeq e seq pins =>
    if pins = 0 ∨ s.seq e ≠ seq then some (s.goes i (.grow e.slot seq 0))
    else some (s.goes i (.joinSwap e seq pins))
  | .joinSwap e seq pins =>
    if s.pins e = pins then
      some ({ s with pins := update s.pins e (pins + 1) }.goes i (.joinCheck e seq))
    else some (s.goes i (.joinSeq e seq (s.pins e)))
  | .joinCheck e seq =>
    if s.seq e = seq then some (s.goes i (.confirm e seq))
    else some (s.goes i (.unpin e (.claim e.slot seq)))
  | .grow slot seq depth =>
    some ({ s with chunks := update s.chunks slot (max (s.chunks slot) (depth + 1)) }.goes
      i (.claim slot seq depth))
  | .claim slot seq depth => match s.lowestFree slot depth with
    | some index =>
      some ({ s with taken := update s.taken ⟨slot, depth, index⟩ true }.goes
        i (.storeSeq ⟨slot, depth, index⟩ seq))
    | none => some (s.goes i (.grow slot seq (depth + 1)))
  | .storeSeq e seq =>
    some ({ s with seq := update s.seq e seq }.goes i (.storePins e seq))
  | .storePins e seq =>
    some ({ s with pins := update s.pins e 1 }.goes i (.remember e seq))
  | .remember e seq =>
    some ({ s with hint := update s.hint e.slot (some (e.depth, e.index)) }.goes
      i (.confirm e seq))
  | .confirm e seq =>
    if s.horizon = seq then some (s.goes i (.live e seq))
    else some (s.goes i (.unpin e (.announce e.slot s.horizon)))
  | .unpin e next =>
    some ({ s with pins := update s.pins e (s.pins e - 1) }.goes
      i (if s.pins e = 1 then .clear e next else next.call))
  | .clear e next =>
    some ({ s with taken := update s.taken e false }.goes i next.call)
  | .sample => some (s.goes i (.scanSlot [] 0))
  | .scanSlot found slot =>
    if slot < s.width then
      if 0 < s.chunks slot then some (s.goes i (.scanNext found slot 0))
      else some (s.goes i (.scanSlot found (slot + 1)))
    else some (s.goes i (.listed (sortedList found)))
  | .scanNext found slot depth =>
    some (s.goes i (.scanTaken found slot depth (decide (depth + 1 < s.chunks slot))))
  | .scanTaken found slot depth more =>
    some (s.goes i (.scanPins found slot depth more (s.takenIn slot depth)))
  | .scanPins found slot depth more [] =>
    if more then some (s.goes i (.scanNext found slot (depth + 1)))
    else some (s.goes i (.scanSlot found (slot + 1)))
  | .scanPins found slot depth more (index :: rest) =>
    if 1 ≤ s.pins ⟨slot, depth, index⟩ then
      some (s.goes i (.scanSeq found slot depth more index rest))
    else some (s.goes i (.scanPins found slot depth more rest))
  | .scanSeq found slot depth more index rest =>
    some (s.goes i (.scanPins (found ++ [s.seq ⟨slot, depth, index⟩]) slot depth more rest))
  | .live .. | .released | .listed _ => none

def step : Action → Option Registry
  | .publish seq => some { s with horizon := max s.horizon seq }
  -- The slot number is masked by the width, which is a power of two.
  | .pinIn slot => some { s with calls := s.calls ++ [.visible (slot % s.width)] }
  | .clonePin i => match s.calls[i]? with
    | some (.live e seq) =>
      some { s with
        pins := update s.pins e (s.pins e + 1), calls := s.calls ++ [.live e seq] }
    | _ => none
  | .release i => match s.calls[i]? with
    | some (.live e _) => some (s.goes i (.unpin e .done))
    | _ => none
  | .liveSeqs => some { s with calls := s.calls ++ [.sample] }
  | .step i => s.calls[i]?.bind (s.stepCall i)
  | .swapFails i => match s.calls[i]? with
    | some (.joinSwap e seq _) => some (s.goes i (.joinSeq e seq (s.pins e)))
    | _ => none

/-- A registry of `width` slots at the horizon recovery established. -/
def withWidth (width : Nat) (horizon : Seq) : Registry := { width, horizon }

def InChain (e : PinAt) : Prop :=
  e.slot < s.width ∧ e.depth < s.chunks e.slot ∧ e.index < entries

def places : List PinAt :=
  (List.range s.width).flatMap fun slot => (List.range (s.chunks slot)).flatMap fun depth =>
    (List.range entries).map fun index => ⟨slot, depth, index⟩

def announced : List Seq := (s.places.filter fun e => 1 ≤ s.pins e).map s.seq

/-- A pin has written the sequence in the entry it claimed and counts itself next. -/
def Announcing (seq : Seq) : Prop := ∃ e, Call.storePins e seq ∈ s.calls

def Scanning (i : Nat) : Prop := ∃ c, s.calls[i]? = some c ∧ c.scanning = true

variable {s} {seq : Seq}

theorem mem_places {e : PinAt} : e ∈ s.places ↔ s.InChain e := by
  simp only [places, List.mem_flatMap, List.mem_range, List.mem_map, InChain]
  constructor
  · rintro ⟨slot, hs, depth, hdep, index, hi, rfl⟩
    exact ⟨hs, hdep, hi⟩
  · rintro ⟨hs, hdep, hi⟩
    exact ⟨e.slot, hs, e.depth, hdep, e.index, hi, rfl⟩

theorem mem_announced : seq ∈ s.announced ↔ ∃ e, s.InChain e ∧ 1 ≤ s.pins e ∧ s.seq e = seq := by
  simp [announced, mem_places, and_assoc]

theorem mem_destutter' {a seq : Seq} {l : List Seq} :
    seq ∈ l.destutter' (· ≠ ·) a ↔ seq = a ∨ seq ∈ l := by
  induction l generalizing a with
  | nil => simp
  | cons b l ih =>
    rw [List.destutter'_cons]
    split_ifs with hne
    · simp [ih]
    · obtain rfl := not_ne_iff.mp hne
      simp [ih]

theorem mem_sortedList {found : List Seq} : seq ∈ sortedList found ↔ seq ∈ found := by
  have hsort : seq ∈ found ↔ seq ∈ found.insertionSort (· ≤ ·) := List.mem_insertionSort _ |>.symm
  rw [hsort, sortedList]
  cases found.insertionSort (· ≤ ·) with
  | nil => simp
  | cons a l => rw [List.destutter_cons', mem_destutter', List.mem_cons]

end Registry

end RegolithStore.Snapshot
