import RegolithStore.Commit.ReadRules
import RegolithStore.Txn.Transaction

/-! Reads of one transaction from several threads (`txn_buffer.rs`, `transaction.rs`,
`transaction/projection.rs`). The keys read are a list that is only appended to, with an index
that is built while reads go on. A read looks its key up, pushes a cell of its own when it
finds none, looks the key up again and folds itself into the cell it finds. A commit keeps the
newest cell of each key. Each thread takes one such step at a time, in any order. Back-links
between the nodes of a key and what a key classifier notes are left out. -/

namespace RegolithStore

open Lib Option

/-- A sorted set of part ids, with one more. -/
def insertPart (held : List UInt32) (part : UInt32) : List UInt32 :=
  if part ∈ held then held else held.orderedInsert (· ≤ ·) part

def withParts (held parts : List UInt32) : List UInt32 := parts.foldl insertPart held

theorem mem_withParts {held parts : List UInt32} {part : UInt32} :
    part ∈ withParts held parts ↔ part ∈ held ∨ part ∈ parts := by
  induction parts generalizing held with
  | nil => simp [withParts]
  | cons p parts ih =>
    have hinsert : part ∈ insertPart held p ↔ part = p ∨ part ∈ held := by
      rw [insertPart]
      split_ifs with hp
      · exact ⟨.inr, fun h => h.elim (fun heq => heq ▸ hp) id⟩
      · exact List.mem_orderedInsert _
    have hfold : withParts held (p :: parts) = withParts (insertPart held p) parts := rfl
    rw [hfold, ih, hinsert, List.mem_cons]
    tauto

/-- The parts one key was read by; `full` once it was read in whole. -/
structure Projection where
  full : Bool
  parts : List UInt32
  deriving DecidableEq

/-- What the transaction knows about a key it read, its parts included. -/
structure TrackedCell extends KeyState where
  projection : Option Projection
  deriving DecidableEq

namespace TrackedCell

variable (c : TrackedCell)

def Whole : Prop := ∀ p ∈ c.projection, p.full = true

instance : Decidable c.Whole := inferInstanceAs (Decidable (∀ p ∈ c.projection, _))

variable (parts : List UInt32)

def HoldsParts : Prop := ∀ p ∈ c.projection, ∀ part ∈ parts, part ∈ p.parts

def widenToFull : TrackedCell := { c with projection := c.projection.map fun p => { p with full := true } }

def widen : TrackedCell :=
  { c with projection := c.projection.map fun p => { p with parts := withParts p.parts parts } }

def markForUpdate : TrackedCell := { c with forUpdate := true }

/-- `read_seq.fetch_max`. -/
def raise (horizon : Seq) : TrackedCell := { c with readSeq := max c.readSeq horizon }

/-- The cell is no less strict than it was: reads folded into it stay in it. -/
structure Grown (before after : TrackedCell) : Prop where
  firstReadSeq : after.firstReadSeq = before.firstReadSeq
  readSeq : before.readSeq ≤ after.readSeq
  forUpdate : before.forUpdate = true → after.forUpdate = true
  whole : before.Whole → after.Whole
  parts : ∀ parts, before.HoldsParts parts → after.HoldsParts parts

variable {c}

theorem Grown.refl (c : TrackedCell) : Grown c c := ⟨rfl, le_rfl, id, id, fun _ => id⟩

theorem whole_widenToFull : c.widenToFull.Whole := by
  intro p hp
  obtain ⟨q, -, rfl⟩ := map_eq_some_iff.mp hp
  rfl

theorem holdsParts_widen : (c.widen parts).HoldsParts parts := by
  intro p hp part hpart
  obtain ⟨q, -, rfl⟩ := map_eq_some_iff.mp hp
  exact mem_withParts.mpr (.inr hpart)

theorem grown_widenToFull : Grown c c.widenToFull := by
  refine ⟨rfl, le_rfl, id, fun _ => whole_widenToFull, fun parts h p hp => ?_⟩
  obtain ⟨q, hq, rfl⟩ := map_eq_some_iff.mp hp
  exact h q hq

theorem grown_widen : Grown c (c.widen parts) := by
  refine ⟨rfl, le_rfl, id, fun h p hp => ?_, fun held h p hp part hpart => ?_⟩
  · obtain ⟨q, hq, rfl⟩ := map_eq_some_iff.mp hp
    exact h q hq
  · obtain ⟨q, hq, rfl⟩ := map_eq_some_iff.mp hp
    exact mem_withParts.mpr (.inl (h q hq part hpart))

theorem grown_markForUpdate : Grown c c.markForUpdate :=
  ⟨rfl, le_rfl, fun _ => rfl, id, fun _ => id⟩

theorem grown_raise (horizon : Seq) : Grown c (c.raise horizon) :=
  ⟨rfl, le_max_left _ _, id, id, fun _ => id⟩

end TrackedCell

inductive IsolationLevel
  | readCommitted
  | snapshotIsolation
  | repeatableRead
  | serializable
  | defraLevel
  deriving DecidableEq

def IsolationLevel.validatesEveryRead : IsolationLevel → Bool
  | repeatableRead | serializable | defraLevel => true
  | readCommitted | snapshotIsolation => false

/-- A read that reaches the store. A pessimistic `get_for_update` brings the horizon its lock
gave it. -/
inductive ReadCall
  | get (key : Key)
  | getForUpdate (key : Key) (horizon : Seq)
  | getParts (key : Key) (parts : List UInt32)
  deriving DecidableEq

namespace ReadCall

def key : ReadCall → Key
  | get key | getForUpdate key _ | getParts key _ => key

def forUpdate : ReadCall → Bool
  | getForUpdate .. => true
  | get _ | getParts .. => false

def parts? : ReadCall → Option (List UInt32)
  | getParts _ parts => some parts
  | get _ | getForUpdate .. => none

end ReadCall

/-- Where a thread is. Building the index is part of the push that outgrew the list, or was
asked for by a scan, which reads nothing here. -/
inductive ReadPhase
  | idle
  /-- The first look. -/
  | lookup (call : ReadCall)
  | push (call : ReadCall)
  /-- Pushed; the flag that the index is open is read next. -/
  | announce (call : ReadCall) (node : Nat)
  | link (call : ReadCall) (node : Nat)
  | count (call : ReadCall)
  | build (call : Option ReadCall)
  | publish (call : Option ReadCall)
  | walk (call : Option ReadCall)
  /-- The nodes still to be linked, newest first. -/
  | seed (call : Option ReadCall) (rest : List Nat)
  | reread (call : ReadCall)
  | fold (call : ReadCall) (node : Nat)
  | mark (call : ReadCall) (node : Nat)
  | raise (call : ReadCall) (node : Nat)
  deriving DecidableEq

/-- A read that returned, and the sequence it was served at. -/
structure DoneRead where
  call : ReadCall
  served : Seq
  deriving DecidableEq

structure SharedReads where
  mode : TxMode
  level : IsolationLevel
  snapshotSeq : Seq
  spillAt : Nat
  /-- Oldest first, so a node's place is its `order`. -/
  nodes : List (Key × TrackedCell) := []
  len : Nat := 0
  /-- The index, once made: the newest node it has seen of each key. -/
  index : Option (Key → Option Nat) := none
  published : Bool := false
  seeded : Bool := false
  threads : Nat → ReadPhase := fun _ => .idle
  reads : List DoneRead := []

inductive ReadAction
  | call (thread : Nat) (call : ReadCall)
  | ensureIndexed (thread : Nat)
  | step (thread : Nat)
  deriving DecidableEq

namespace SharedReads

variable (s : SharedReads)

def projects : Bool := decide (s.mode = .optimistic ∧ s.level = .defraLevel)

def horizon : ReadCall → Seq
  | .getForUpdate _ horizon => match s.mode with
    | .optimistic => s.snapshotSeq
    | .pessimistic => horizon
  | .get _ | .getParts .. => s.snapshotSeq

def cellOf (call : ReadCall) : TrackedCell :=
  { firstReadSeq := s.horizon call, readSeq := s.horizon call, forUpdate := call.forUpdate
    projection := call.parts?.map fun parts => ⟨false, withParts [] parts⟩ }

def listed (key : Key) : Option Nat :=
  (List.range s.nodes.length).reverse.find? fun i => (s.nodes[i]?).any fun n => decide (n.1 = key)

/-- The index's node once it is seeded, and until then the list's. -/
def newest (key : Key) : Option Nat :=
  match s.seeded, s.index with
  | true, some index => index key
  | _, _ => s.listed key

/-- The node is the key's newest in the index when no newer one is there. -/
def linked (node : Nat) : SharedReads :=
  match s.nodes[node]?, s.index with
  | some (key, _), some index =>
    { s with index := some (Function.update index key
        (match index key with
          | some newest => some (max newest node)
          | none => some node)) }
  | _, _ => s

def fold (node : Nat) (f : TrackedCell → TrackedCell) : SharedReads :=
  { s with nodes := s.nodes.modify node fun n => (n.1, f n.2) }

variable (thread : Nat)

def at_ (phase : ReadPhase) : SharedReads :=
  { s with threads := Function.update s.threads thread phase }

@[simp] theorem threads_at_self (phase : ReadPhase) :
    (s.at_ thread phase).threads thread = phase := Function.update_self _ _ _

theorem threads_at_of_ne {thread other : Nat} (h : other ≠ thread) (phase : ReadPhase) :
    (s.at_ thread phase).threads other = s.threads other := Function.update_of_ne h _ _

def afterIndex : Option ReadCall → ReadPhase
  | some call => .reread call
  | none => .idle

variable (call : ReadCall)

def done (served : Seq) : SharedReads :=
  { s.at_ thread .idle with reads := s.reads ++ [⟨call, served⟩] }

/-- A read found its cell: `observe`, or the widening of `read_projected`. -/
def stepFold (node : Nat) : SharedReads :=
  match call with
  | .getParts _ parts => (s.fold node (·.widen parts)).done thread call s.snapshotSeq
  | .get _ | .getForUpdate .. => (s.fold node (·.widenToFull)).at_ thread (.mark call node)

def stepThread : Option SharedReads :=
  match s.threads thread with
  | .idle => none
  | .lookup call => match s.newest call.key with
    | some node => some (s.at_ thread (.fold call node))
    | none => some (s.at_ thread (.push call))
  | .push call =>
    some ({ s with nodes := s.nodes ++ [(call.key, s.cellOf call)] }.at_ thread
      (.announce call s.nodes.length))
  | .announce call node =>
    some (s.at_ thread (if s.published then .link call node else .count call))
  | .link call node => some ((s.linked node).at_ thread (.count call))
  | .count call =>
    some ({ s with len := s.len + 1 }.at_ thread
      (if 0 < s.spillAt ∧ s.spillAt < s.len + 1 then .build (some call) else .reread call))
  | .build call => match s.index with
    | some _ => some (s.at_ thread (afterIndex call))
    | none => some ({ s with index := some fun _ => none }.at_ thread (.publish call))
  | .publish call => some ({ s with published := true }.at_ thread (.walk call))
  | .walk call => some (s.at_ thread (.seed call (List.range s.nodes.length).reverse))
  | .seed call (node :: rest) => some ((s.linked node).at_ thread (.seed call rest))
  | .seed call [] => some ({ s with seeded := true }.at_ thread (afterIndex call))
  | .reread call => match s.newest call.key with
    | some node => some (s.at_ thread (.fold call node))
    -- the entry just inserted is on the list
    | none => none
  | .fold call node => some (s.stepFold thread call node)
  | .mark call node =>
    some ((if call.forUpdate then s.fold node (·.markForUpdate) else s).at_ thread (.raise call node))
  | .raise call node => match s.nodes[node]? with
    | some (_, cell) =>
      some ((s.fold node (·.raise (s.horizon call))).done thread call
        (max cell.readSeq (s.horizon call)))
    | none => none

/-- `get_parts` of a transaction that does not project is a plain read; by no parts it leaves
no record. -/
def start : SharedReads :=
  match call with
  | .getParts key parts =>
    if s.projects then
      if parts = [] then s.done thread call s.snapshotSeq else s.at_ thread (.lookup call)
    else s.at_ thread (.lookup (.get key))
  | .get _ | .getForUpdate .. => s.at_ thread (.lookup call)

def step (s : SharedReads) : ReadAction → Option SharedReads
  | .call thread call => if s.threads thread = .idle then some (s.start thread call) else none
  | .ensureIndexed thread =>
    if s.threads thread = .idle then some (s.at_ thread (.build none)) else none
  | .step thread => s.stepThread thread

end SharedReads

variable (s : SharedReads)

def SharedReads.fullReadRule : ReadRule := if s.projects then .value else .seq

/-- The check of one key, from its cell; none for a read by no parts. -/
def SharedReads.check (written : Key → Bool) (n : Key × TrackedCell) :
    Option ConflictKey :=
  match n.2.projection with
  | some p =>
    if p.full then
      some ⟨n.1, n.2.firstReadSeq, if n.2.forUpdate then .readForUpdate else .read, s.fullReadRule⟩
    else if p.parts = [] then none
    else if written n.1 then some ⟨n.1, n.2.firstReadSeq, .readParts, s.fullReadRule⟩
    else some ⟨n.1, n.2.firstReadSeq, .readParts, .parts p.parts⟩
  | none =>
    some ⟨n.1, n.2.firstReadSeq, if n.2.forUpdate then .readForUpdate else .read, s.fullReadRule⟩

/-- The level validates the key: `written` by a put or a delete, or `merged` into. -/
def IsolationLevel.asks (level : IsolationLevel) (written merged : Key → Bool) (key : Key)
    (forUpdate : Bool) : Bool :=
  if level.validatesEveryRead then true
  else if level = .readCommitted then written key || merged key
  else forUpdate || (written key || merged key)

/-- The reads of `validation_set`: of each key the newest node, in key order. -/
def SharedReads.validationSet (written merged : Key → Bool) : List ConflictKey :=
  ((dedupBy (fun first later => decide (first.1 = later.1)) (stableSort Prod.fst s.nodes.reverse)).filter
    fun n => s.level.asks written merged n.1 n.2.forUpdate).filterMap (s.check written)

end RegolithStore
