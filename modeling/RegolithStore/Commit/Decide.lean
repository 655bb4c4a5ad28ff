import RegolithStore.Commit.Append
import RegolithStore.Commit.Counters
import RegolithStore.Commit.Validate
import RegolithStore.Store.Apply
import RegolithStore.Wal.Frame

/-! Deciding a slot of the commit ring (`descriptor.rs`, `pipeline.rs`, `allocate.rs`). A
slot is decided from the state the slot before it left: it is refused, loses a conflict, or
takes its sequences, its range of the log and its share of the memtable's budget. What frames
a record besides its place (the stamp it carries, a sealed record's nonce) is left out. -/

namespace RegolithStore

open Lib

/-! ### Work -/

inductive DurabilityMode
  | immediate
  | eventual
  deriving DecidableEq

def isImmediate (durability : DurabilityMode) : Bool := decide (durability = .immediate)

structure TxnRequest where
  checks : ValidationSet
  ops : List WriteBatchOp
  appends : List PendingAppend
  durability : DurabilityMode
  early : Early

inductive WriteRequest
  | put (key : Key) (value : Value) (durability : DurabilityMode) (disableWal : Bool)
  | batch (ops : List WriteBatchOp) (durability : DurabilityMode) (disableWal : Bool)
  | txn (request : TxnRequest)

namespace WriteRequest

def ops : WriteRequest → List WriteBatchOp
  | put key value _ _ => [.put key value]
  | batch ops _ _ => ops
  | txn request => request.ops

def skipsWal : WriteRequest → Bool
  | put _ _ _ disableWal | batch _ _ disableWal => disableWal
  | txn _ => false

end WriteRequest

/-- What a slot carries; a reservation its caller gave up is marked. Ordered units are left
out. -/
inductive Work
  | request (request : WriteRequest)
  | allocate (key : Key) (n : UInt64) (abandoned : Bool)

/-! ### Decisions -/

/-- The state the pipeline is in after a slot. Logs and memtables are named by what tells
them apart. -/
structure After where
  nextSeq : Seq
  log : Nat
  nextOff : Nat
  memtable : Nat
  memUsed : Nat
  closed : Bool
  epoch : Nat
  counters : Counters

def After.ceiling (after : After) : Seq := if after.nextSeq = 0 then 0 else after.nextSeq - 1

theorem After.le_ceiling {after : After} (h : 0 < after.nextSeq) {q : Seq} :
    q ≤ after.ceiling ↔ q < after.nextSeq := by
  have hpos := UInt64.lt_iff_toNat_lt.mp h
  have hone : (1 : Seq) ≤ after.nextSeq := UInt64.le_iff_toNat_le.mpr hpos
  rw [ceiling, if_neg h.ne', UInt64.le_iff_toNat_le, UInt64.lt_iff_toNat_lt,
    UInt64.toNat_sub_of_le _ _ hone]
  exact Nat.le_sub_one_iff_lt hpos

inductive Refusal
  | io (err : IoError)
  | validate (err : ValidateError)
  deriving DecidableEq

/-- The descriptor's `Verdict`. -/
inductive Fate
  | write
  | commit (mergesCommuted writesElided : Nat)
  | conflict (conflict : Conflict)
  | refused (err : Refusal)
  /-- The values from `first` up to `stop`. -/
  | allocated (first stop : UInt64)
  | unit
  deriving DecidableEq

structure Decision where
  index : Nat
  fate : Fate
  baseSeq : Seq
  /-- Sequences the slot took. -/
  ops : Nat
  place : Option Place
  immediate : Bool
  /-- Operations deciding the slot produced. -/
  batch : Option (List WriteBatchOp)
  after : After

namespace Decision

def new (index : Nat) (fate : Fate) (after : After) : Decision :=
  ⟨index, fate, 0, 0, none, false, none, after⟩

def commits (d : Decision) : Bool := decide (0 < d.ops)

def lastSeq (d : Decision) : Option Seq :=
  if 0 < d.ops then some (d.baseSeq + UInt64.ofNat d.ops - 1) else none

end Decision

/-- `ops_of`: a request's own operations followed by the puts deciding it added, or a
reservation's batch. -/
def opsOf (work : Work) (batch : Option (List WriteBatchOp)) : List WriteBatchOp :=
  match work, batch with
  | .request (.txn txn), some added => txn.ops ++ added
  | .request request, _ => request.ops
  | .allocate .., batch => batch.getD []

/-! ### The engine around a slot -/

/-- What deciding reads of the engine besides the state and the view. -/
structure Engine where
  operator : Option CommitOperator
  /-- The live column families, where a registry is attached. -/
  families : Option (List Nat)
  /-- Bytes a record of that payload takes in the log. -/
  framedLen : Nat → Nat
  /-- Most bytes an operation adds to a memtable. -/
  opMemtableCost : WriteBatchOp → Nat
  /-- Bytes a memtable holds. -/
  approximateSize : MemTable → Nat

def metaCfId : Nat := 0
def cfPrefixLen : Nat := 4

def familyOf (key : Key) : Option Nat :=
  if key.length < cfPrefixLen then none else some (ofLe (key.take cfPrefixLen).reverse)

/-- `cf_upper_bound_bytes`: the next family's first key. -/
def cfUpperBoundBytes (id : Nat) : Key := beBytes 4 (id + 1)

/-- `fence_key`. The source remembers the family just found live and does not look it up
again. -/
def fenceKey (families : List Nat) (key : Key) : Except IoError Unit :=
  match familyOf key with
  | none => .error ⟨.invalidInput, "a write key is shorter than its column-family prefix"⟩
  | some id =>
    if id = defaultCfId.toNat ∨ id = metaCfId ∨ id ∈ families then .ok ()
    else .error ⟨.invalidInput, s!"column family id {id} is not live"⟩

/-- A range that ends at the next family's first key writes nothing in that family. -/
def fenceOp (families : List Nat) : WriteBatchOp → Except IoError Unit
  | .put key _ | .delete key | .merge key _ => fenceKey families key
  | .deleteRange start stop => do
    fenceKey families start
    if (familyOf start).any fun id => decide (stop = cfUpperBoundBytes id) then pure ()
    else fenceKey families stop

def cfFenceOps (families : Option (List Nat)) (ops : List WriteBatchOp) : Except IoError Unit :=
  match families with
  | none => .ok ()
  | some families => ops.forM (fenceOp families)

def cfFenceKey (families : Option (List Nat)) (key : Key) : Except IoError Unit :=
  match families with
  | none => .ok ()
  | some families => fenceKey families key

def recordPayloadLen (ops : List WriteBatchOp) : Nat := (encodeGroup (sequenced ops 0)).length

def checkWriteLen (len : Nat) : Except IoError Unit :=
  if len ≤ maxRecordLen then .ok ()
  else
    let limit := maxRecordLen
    .error ⟨.invalidInput, s!"write is too large: it would log {len} bytes and one write can "
      ++ s!"log at most {limit}; split it into smaller writes"⟩

/-! ### Deciding -/

section Decide

variable (engine : Engine) (view : ReadView)

/-- A slot with no operations takes nothing. -/
def takePlace (work : Work) (decision : Decision) (logged : Bool) : Except IoError Decision :=
  let ops := opsOf work decision.batch
  if ops.length = 0 then .ok { decision with immediate := false }
  else do
    let after := decision.after
    let place ← if logged then do
        checkWriteLen (recordPayloadLen ops)
        pure (some ⟨after.nextOff, engine.framedLen (recordPayloadLen ops), after.epoch⟩)
      else pure none
    pure { decision with
      baseSeq := after.nextSeq
      ops := ops.length
      place
      after := { after with
        nextSeq := after.nextSeq + UInt64.ofNat ops.length
        memUsed := after.memUsed + (ops.map engine.opMemtableCost).sum
        nextOff := (place.map Place.stop).getD after.nextOff } }

/-- Validation, then the positions: a commit that aborted took none. A commit every item of
which is clean at a horizon nothing was handed out above needs no view. -/
def decideTxn (txn : TxnRequest) (base : After) : Except Refusal (Fate × Option (List WriteBatchOp)) :=
  if txn.appends.isEmpty ∧ txn.early.isClean ∧ base.ceiling ≤ txn.early.horizon then
    .ok (.commit 0 0, none)
  else
    match validate engine.operator txn.checks txn.ops txn.early view base.ceiling with
    | .error err => .error (.validate err)
    | .ok (.conflict conflict) => .ok (.conflict conflict, none)
    | .ok (.accept commuted elided) =>
      if txn.appends.isEmpty then .ok (.commit commuted elided, none)
      else match (AppendOrder.new.number view txn.appends).1 with
        | .error err => .error (.io err)
        | .ok added => .ok (.commit commuted elided, some added)

def decideAllocation (key : Key) (n : UInt64) (base : After) (decision : Decision) :
    Except IoError Decision := do
  let last ← match base.counters.get key with
    | some last => pure last
    | none => do pure ((← view.readU64InView key).getD 0)
  let first := if last = ⊤ then ⊤ else last + 1
  if n = 0 then
    pure { decision with
      fate := .allocated first first
      after := { decision.after with counters := base.counters.set key last } }
  else if last = ⊤ ∨ 2 ^ 64 ≤ first.toNat + n.toNat then
    .error ⟨.invalidInput,
      s!"the counter cannot reserve {n} more values below the largest 64-bit number"⟩
  else
    let stop := first + n
    pure { decision with
      fate := .allocated first stop
      batch := some [.put key (encodeBeU64 (stop - 1))]
      after := { decision.after with counters := base.counters.set key (stop - 1) } }

def closedError : IoError := ⟨.notConnected, "Closed"⟩

variable (index : Nat)

def decideFate (base : After) : WriteRequest → Except Refusal Decision
  | .put _ _ durability disableWal | .batch _ durability disableWal =>
    .ok { Decision.new index .write base with immediate := isImmediate durability && !disableWal }
  | .txn txn =>
    (decideTxn engine view txn base).map fun (fate, batch) =>
      { Decision.new index fate base with batch, immediate := isImmediate txn.durability }

/-- What a request takes; a conflict takes nothing. A counter the slot writes is read again by
the next reservation of it. -/
def placeRequest (request : WriteRequest) (decided : Decision) : Except IoError Decision :=
  match decided.fate with
  | .conflict _ => .ok decided
  | _ => (takePlace engine (.request request) decided !request.skipsWal).map fun placed =>
    let written := opsOf (.request request) placed.batch
    let counters := (placed.after.counters.forgetWritten written).getD placed.after.counters
    { placed with after := { placed.after with counters } }

def decideRequest (request : WriteRequest) (base : After) : Except Refusal Decision := do
  let decided ← decideFate engine view index base request
  (placeRequest engine request decided).mapError .io

def decideReservation (key : Key) (n : UInt64) (base : After) :
    Except Refusal Decision := do
  let decided ← (decideAllocation view key n base (.new index .write base)).mapError .io
  (takePlace engine (.allocate key n false) decided true).mapError .io

def admitWork (base : After) : Work → Except Refusal Decision
  | .request request => do
    (cfFenceOps engine.families request.ops).mapError .io
    decideRequest engine view index request base
  | .allocate key n abandoned => do
    if abandoned then .error (.io ⟨.other, "a counter reservation its caller gave up"⟩)
    (cfFenceKey engine.families key).mapError .io
    decideReservation engine view index key n base

def decideWork (writable : Except IoError Unit) (index : Nat) (work : Work) (base : After) :
    Decision :=
  if base.closed then .new index (.refused (.io closedError)) base
  else match writable with
    | .error err => .new index (.refused (.io err)) base
    | .ok () =>
      match admitWork engine view index base work with
      | .error err => .new index (.refused err) base
      | .ok decision => decision

end Decide

/-! ### What a decision takes -/

def Decision.lands (d : Decision) (work : Work) : List WriteBatchOp :=
  if 0 < d.ops then opsOf work d.batch else []

def Fate.Loses : Fate → Prop
  | .conflict _ | .refused _ => True
  | _ => False

/-- A decision from `base`: it takes the next sequences, one for each operation it lands, and
the next bytes of the log, or nothing. -/
structure Decision.Chains (d : Decision) (work : Work) (base : After) : Prop where
  log : d.after.log = base.log
  memtable : d.after.memtable = base.memtable
  closed : d.after.closed = base.closed
  epoch : d.after.epoch = base.epoch
  length : d.ops = (d.lands work).length
  baseSeq : 0 < d.ops → d.baseSeq = base.nextSeq
  nextSeq : d.after.nextSeq = base.nextSeq + UInt64.ofNat d.ops
  place : ∀ p ∈ d.place, 0 < d.ops ∧ p.offset = base.nextOff ∧ p.epoch = base.epoch
  nextOff : d.after.nextOff = (d.place.map Place.stop).getD base.nextOff
  loses : d.fate.Loses → d.ops = 0

structure Decision.Untaken (d : Decision) (base : After) : Prop where
  ops : d.ops = 0
  place : d.place = none
  log : d.after.log = base.log
  memtable : d.after.memtable = base.memtable
  closed : d.after.closed = base.closed
  epoch : d.after.epoch = base.epoch
  nextSeq : d.after.nextSeq = base.nextSeq
  nextOff : d.after.nextOff = base.nextOff

theorem Except.mapError_eq_ok {ε ε' α : Type} {f : ε → ε'} {x : Except ε α} {a : α} :
    x.mapError f = .ok a ↔ x = .ok a := by
  cases x with
  | error err => exact iff_of_false nofun nofun
  | ok b => exact ⟨fun h => congrArg _ (Except.ok.inj h), fun h => congrArg _ (Except.ok.inj h)⟩

section Chains

variable {engine : Engine} {view : ReadView} {work : Work} {base : After} {d d' : Decision}
  {request : WriteRequest} {index : Nat} {n : UInt64} {key : Key} {added : List WriteBatchOp}
  {logged : Bool}

theorem Decision.Untaken.chains (h : d.Untaken base) : d.Chains work base where
  log := h.log
  memtable := h.memtable
  closed := h.closed
  epoch := h.epoch
  length := by rw [lands, h.ops, if_neg (lt_irrefl 0), List.length_nil]
  baseSeq := fun hpos => absurd h.ops hpos.ne'
  nextSeq := by rw [h.ops, h.nextSeq]; exact (UInt64.add_zero _).symm
  place := fun p hp => by simp [h.place] at hp
  nextOff := by rw [h.place, h.nextOff]; rfl
  loses := fun _ => h.ops

theorem Decision.Chains.counters (h : d.Chains work base) (counters : Counters) :
    ({ d with after := { d.after with counters } } : Decision).Chains work base :=
  ⟨h.log, h.memtable, h.closed, h.epoch, h.length, h.baseSeq, h.nextSeq, h.place, h.nextOff, h.loses⟩

/-- A decision takes no place, or the next sequences and bytes. -/
theorem takePlace_eq_ok (h : takePlace engine work d logged = .ok d') :
    d'.fate = d.fate ∧ d'.batch = d.batch ∧ d'.index = d.index ∧
    (d' = { d with immediate := false } ∧ opsOf work d.batch = [] ∨
      0 < (opsOf work d.batch).length ∧ ∃ place,
        (∀ p ∈ place, p.offset = d.after.nextOff ∧ p.epoch = d.after.epoch) ∧
        d' = { d with
          baseSeq := d.after.nextSeq
          ops := (opsOf work d.batch).length
          place
          after := { d.after with
            nextSeq := d.after.nextSeq + UInt64.ofNat (opsOf work d.batch).length
            memUsed := d.after.memUsed + ((opsOf work d.batch).map engine.opMemtableCost).sum
            nextOff := (place.map Place.stop).getD d.after.nextOff } }) := by
  rw [takePlace] at h
  by_cases hnil : (opsOf work d.batch).length = 0
  · rw [if_pos hnil, Except.ok.injEq] at h
    subst h
    exact ⟨rfl, rfl, rfl, .inl ⟨rfl, List.length_eq_zero_iff.mp hnil⟩⟩
  · rw [if_neg hnil] at h
    cases logged with
    | false =>
      cases h
      exact ⟨rfl, rfl, rfl, .inr ⟨Nat.pos_of_ne_zero hnil, none, by simp, rfl⟩⟩
    | true =>
      cases hlen : checkWriteLen (recordPayloadLen (opsOf work d.batch)) with
      | error err => rw [hlen] at h; cases h
      | ok _ =>
        rw [hlen] at h
        cases h
        exact ⟨rfl, rfl, rfl, .inr ⟨Nat.pos_of_ne_zero hnil, some _, by simp, rfl⟩⟩

theorem Decision.Untaken.takePlace (h : d.Untaken base) (hf : ¬ d.fate.Loses)
    (ht : takePlace engine work d logged = .ok d') : d'.Chains work base := by
  obtain ⟨-, -, -, ⟨rfl, -⟩ | ⟨hpos, place, hpl, rfl⟩⟩ := takePlace_eq_ok ht
  · exact Untaken.chains ⟨h.ops, h.place, h.log, h.memtable, h.closed, h.epoch, h.nextSeq, h.nextOff⟩
  · exact {
      log := h.log
      memtable := h.memtable
      closed := h.closed
      epoch := h.epoch
      length := by rw [lands, if_pos hpos]
      baseSeq := fun _ => h.nextSeq
      nextSeq := congrArg (· + _) h.nextSeq
      place := fun p hp => ⟨hpos, (hpl p hp).1.trans h.nextOff, (hpl p hp).2.trans h.epoch⟩
      nextOff := congrArg (Option.getD _) h.nextOff
      loses := fun hloses => absurd hloses hf }

def After.lastReserved (base : After) (view : ReadView) (key : Key) : Except IoError UInt64 :=
  match base.counters.get key with
  | some last => .ok last
  | none => (view.readU64InView key).map (Option.getD · 0)

theorem decideAllocation_eq_ok (h : decideAllocation view key n base d = .ok d') :
    ∃ last, base.lastReserved view key = .ok last ∧
    (n = 0 ∧ d' = { d with
        fate := .allocated (if last = ⊤ then ⊤ else last + 1) (if last = ⊤ then ⊤ else last + 1)
        after := { d.after with counters := base.counters.set key last } } ∨
      n ≠ 0 ∧ last ≠ ⊤ ∧ (last + 1).toNat + n.toNat < 2 ^ 64 ∧ d' = { d with
        fate := .allocated (last + 1) (last + 1 + n)
        batch := some [.put key (encodeBeU64 (last + 1 + n - 1))]
        after := { d.after with counters := base.counters.set key (last + 1 + n - 1) } }) := by
  have hl : ∃ last, base.lastReserved view key = .ok last ∧ decideAllocation view key n base d =
        if n = 0 then .ok { d with
          fate := .allocated (if last = ⊤ then ⊤ else last + 1) (if last = ⊤ then ⊤ else last + 1)
          after := { d.after with counters := base.counters.set key last } }
        else if last = ⊤ ∨ 2 ^ 64 ≤ (if last = ⊤ then ⊤ else last + 1).toNat + n.toNat then
          .error ⟨.invalidInput,
            s!"the counter cannot reserve {n} more values below the largest 64-bit number"⟩
        else .ok { d with
          fate := .allocated (if last = ⊤ then ⊤ else last + 1)
            ((if last = ⊤ then ⊤ else last + 1) + n)
          batch := some [.put key (encodeBeU64 ((if last = ⊤ then ⊤ else last + 1) + n - 1))]
          after := { d.after with
            counters := base.counters.set key ((if last = ⊤ then ⊤ else last + 1) + n - 1) } } := by
    rw [decideAllocation, After.lastReserved] at *
    cases hget : base.counters.get key with
    | some last => exact ⟨last, rfl, rfl⟩
    | none =>
      cases hr : view.readU64InView key with
      | error err => simp only [hget, hr] at h; cases h
      | ok read => exact ⟨read.getD 0, rfl, rfl⟩
  obtain ⟨last, hl, heq⟩ := hl
  rw [heq] at h
  refine ⟨last, hl, ?_⟩
  by_cases hn : n = 0
  · rw [if_pos hn] at h
    exact .inl ⟨hn, (Except.ok.inj h).symm⟩
  · rw [if_neg hn] at h
    by_cases ho : last = ⊤ ∨ 2 ^ 64 ≤ (if last = ⊤ then ⊤ else last + 1).toNat + n.toNat
    · rw [if_pos ho] at h
      cases h
    · rw [if_neg ho] at h
      rw [not_or, not_le] at ho
      rw [if_neg ho.1] at h ho
      exact .inr ⟨hn, ho.1, ho.2, (Except.ok.inj h).symm⟩

theorem Decision.untaken_new (index : Nat) (fate : Fate) : (Decision.new index fate base).Untaken base :=
  ⟨rfl, rfl, rfl, rfl, rfl, rfl, rfl, rfl⟩

theorem decideTxn_eq_ok {txn : TxnRequest} {fate : Fate} {batch : Option (List WriteBatchOp)}
    (h : decideTxn engine view txn base = .ok (fate, batch)) :
    (∃ c, fate = .conflict c ∧ batch = none) ∨ ∃ commuted elided, fate = .commit commuted elided ∧
      (txn.appends = [] ∧ batch = none ∨ ∃ added,
        (AppendOrder.new.number view txn.appends).1 = .ok added ∧ batch = some added) := by
  rw [decideTxn] at h
  by_cases hclean : txn.appends.isEmpty ∧ txn.early.isClean ∧ base.ceiling ≤ txn.early.horizon
  · rw [if_pos hclean] at h
    cases h
    exact .inr ⟨0, 0, rfl, .inl ⟨List.isEmpty_iff.mp hclean.1, rfl⟩⟩
  rw [if_neg hclean] at h
  cases hvalidate : validate engine.operator txn.checks txn.ops txn.early view base.ceiling with
  | error err => rw [hvalidate] at h; cases h
  | ok verdict =>
    rw [hvalidate] at h
    cases verdict with
    | conflict c =>
      cases h
      exact .inl ⟨c, rfl, rfl⟩
    | accept commuted elided =>
      by_cases hnil : txn.appends.isEmpty
      · simp only [hnil, if_true] at h
        cases h
        exact .inr ⟨commuted, elided, rfl, .inl ⟨List.isEmpty_iff.mp hnil, rfl⟩⟩
      · simp only [hnil, Bool.false_eq_true, if_false] at h
        cases hnum : (AppendOrder.new.number view txn.appends).1 with
        | error err => rw [hnum] at h; cases h
        | ok added =>
          rw [hnum] at h
          cases h
          exact .inr ⟨commuted, elided, rfl, .inr ⟨added, rfl, rfl⟩⟩

theorem decideFate_eq_ok (h : decideFate engine view index base request = .ok d) :
    d.Untaken base ∧ d.index = index ∧
    match request with
    | .put .. | .batch .. => d.fate = .write ∧ d.batch = none
    | .txn txn => decideTxn engine view txn base = .ok (d.fate, d.batch) := by
  cases request with
  | put key value durability disableWal | batch ops durability disableWal =>
    cases h
    exact ⟨⟨rfl, rfl, rfl, rfl, rfl, rfl, rfl, rfl⟩, rfl, rfl, rfl⟩
  | txn txn =>
    rw [decideFate] at h
    cases htxn : decideTxn engine view txn base with
    | error err => rw [htxn] at h; cases h
    | ok p =>
      rw [htxn] at h
      cases h
      exact ⟨⟨rfl, rfl, rfl, rfl, rfl, rfl, rfl, rfl⟩, rfl, htxn⟩

theorem placeRequest_eq_ok (h : placeRequest engine request d = .ok d') :
    (∃ c, d.fate = .conflict c) ∧ d' = d ∨ (∀ c, d.fate ≠ .conflict c) ∧ ∃ placed,
      takePlace engine (.request request) d (!request.skipsWal) = .ok placed ∧
      d' = { placed with after := { placed.after with
        counters := (placed.after.counters.forgetWritten
          (opsOf (.request request) placed.batch)).getD placed.after.counters } } := by
  by_cases hconf : ∃ c, d.fate = .conflict c
  · obtain ⟨c, hc⟩ := hconf
    rw [placeRequest, hc] at h
    exact .inl ⟨⟨c, hc⟩, (Except.ok.inj h).symm⟩
  · rw [not_exists] at hconf
    refine .inr ⟨hconf, ?_⟩
    have hpl : (takePlace engine (.request request) d !request.skipsWal).map (fun placed =>
        ({ placed with after := { placed.after with
          counters := (placed.after.counters.forgetWritten
            (opsOf (.request request) placed.batch)).getD placed.after.counters } } : Decision)) =
        .ok d' := by
      rw [← h, placeRequest]
      cases hf : d.fate <;> first | exact absurd hf (hconf _) | rfl
    cases ht : takePlace engine (.request request) d (!request.skipsWal) with
    | error err => rw [ht] at hpl; cases hpl
    | ok placed =>
      rw [ht] at hpl
      exact ⟨placed, rfl, (Except.ok.inj hpl).symm⟩

variable (h : decideRequest engine view index request base = .ok d)

include h

theorem decideRequest_eq_ok : ∃ decided, decideFate engine view index base request = .ok decided ∧
      placeRequest engine request decided = .ok d := by
  rw [decideRequest] at h
  cases hf : decideFate engine view index base request with
  | error err => rw [hf] at h; cases h
  | ok decided =>
    rw [hf] at h
    refine ⟨decided, rfl, ?_⟩
    exact Except.mapError_eq_ok.mp h

theorem decideRequest_chains : d.Chains (.request request) base := by
  obtain ⟨decided, hdec, hpl⟩ := decideRequest_eq_ok h
  obtain ⟨huntaken, -, hf⟩ := decideFate_eq_ok hdec
  rcases placeRequest_eq_ok hpl with ⟨-, rfl⟩ | ⟨hconf, placed, ht, rfl⟩
  · exact huntaken.chains
  · refine (huntaken.takePlace ?_ ht).counters _
    intro hloses
    cases request with
    | put key value durability disableWal | batch ops durability disableWal =>
      rw [hf.1] at hloses; exact hloses
    | txn txn =>
      rcases decideTxn_eq_ok hf with ⟨c, hc, -⟩ | ⟨commuted, elided, hc, -⟩
      · exact hconf c hc
      · rw [hc] at hloses; exact hloses

omit h in
theorem decideReservation_eq_ok
    (h : decideReservation engine view index key n base = .ok d) : ∃ decided,
      decideAllocation view key n base (.new index .write base) = .ok decided ∧
      takePlace engine (.allocate key n false) decided true = .ok d := by
  rw [decideReservation] at h
  cases hdec : decideAllocation view key n base (.new index .write base) with
  | error err => rw [hdec] at h; cases h
  | ok decided =>
    rw [hdec] at h
    exact ⟨decided, rfl, Except.mapError_eq_ok.mp h⟩

omit h in
theorem decideReservation_chains (h : decideReservation engine view index key n base = .ok d) :
    d.Chains (.allocate key n false) base := by
  obtain ⟨decided, hdec, ht⟩ := decideReservation_eq_ok h
  obtain ⟨last, -, hcases⟩ := decideAllocation_eq_ok hdec
  have huntaken : decided.Untaken base := by
    rcases hcases with ⟨-, rfl⟩ | ⟨-, -, -, rfl⟩ <;> exact ⟨rfl, rfl, rfl, rfl, rfl, rfl, rfl, rfl⟩
  refine huntaken.takePlace ?_ ht
  rcases hcases with ⟨-, rfl⟩ | ⟨-, -, -, rfl⟩ <;> exact id

omit h in
theorem placeRequest_batch (h : placeRequest engine request d = .ok d') :
    d'.batch = d.batch ∧ d'.fate = d.fate := by
  rcases placeRequest_eq_ok h with ⟨-, rfl⟩ | ⟨-, placed, ht, rfl⟩
  · exact ⟨rfl, rfl⟩
  · exact ⟨(takePlace_eq_ok ht).2.1, (takePlace_eq_ok ht).1⟩

theorem decideRequest_batch_puts (hb : d.batch = some added) :
    ∀ op ∈ added, ∃ key value, op = .put key value := by
  obtain ⟨decided, hdec, hpl⟩ := decideRequest_eq_ok h
  obtain ⟨-, -, hf⟩ := decideFate_eq_ok hdec
  rw [(placeRequest_batch hpl).1] at hb
  cases request with
  | put key value durability disableWal | batch ops durability disableWal =>
    rw [hf.2] at hb; cases hb
  | txn txn =>
    rw [hb] at hf
    rcases decideTxn_eq_ok hf with ⟨c, -, hn⟩ | ⟨-, -, -, ⟨-, hn⟩ | ⟨ops, hnum, hs⟩⟩
    · cases hn
    · cases hn
    · cases hs
      exact AppendOrder.number_puts hnum

omit h

/-- A slot is refused, or decided past its fence. -/
theorem decideWork_cases (engine : Engine) (view : ReadView) (writable : Except IoError Unit)
    (index : Nat) (work : Work) (base : After) :
    (∃ err, decideWork engine view writable index work base = .new index (.refused err) base) ∨
    base.closed = false ∧ writable = .ok () ∧
      ((∃ request, work = .request request ∧ decideRequest engine view index request base =
        .ok (decideWork engine view writable index work base)) ∨
      ∃ key n, work = .allocate key n false ∧ decideReservation engine view index key n base =
        .ok (decideWork engine view writable index work base)) := by
  unfold decideWork
  cases hc : base.closed with
  | true => exact .inl ⟨_, if_pos rfl⟩
  | false =>
    rcases writable with err | ⟨⟩
    · exact .inl ⟨_, rfl⟩
    cases hadm : admitWork engine view index base work with
    | error err => exact .inl ⟨_, rfl⟩
    | ok decision =>
      refine .inr ⟨rfl, rfl, ?_⟩
      cases work with
      | request request =>
        refine .inl ⟨request, rfl, ?_⟩
        rw [admitWork] at hadm
        cases hfence : cfFenceOps engine.families request.ops with
        | error err => rw [hfence] at hadm; cases hadm
        | ok _ => rw [hfence] at hadm; exact hadm
      | allocate key n abandoned =>
        rw [admitWork] at hadm
        cases abandoned with
        | true => cases hadm
        | false =>
          refine .inr ⟨key, n, rfl, ?_⟩
          cases hfence : cfFenceKey engine.families key with
          | error err => rw [hfence] at hadm; cases hadm
          | ok _ => rw [hfence] at hadm; exact hadm

theorem decideWork_chains (engine : Engine) (view : ReadView) (writable : Except IoError Unit)
    (index : Nat) (work : Work) (base : After) :
    (decideWork engine view writable index work base).Chains work base := by
  rcases decideWork_cases engine view writable index work base with
    ⟨err, herr⟩ | ⟨-, -, ⟨request, hwork, h⟩ | ⟨key, n, hwork, h⟩⟩
  · rw [herr]
    exact (Decision.untaken_new index _).chains
  · rw [hwork] at h ⊢
    exact decideRequest_chains h
  · rw [hwork] at h ⊢
    exact decideReservation_chains h

theorem decideWork_batch_puts {writable : Except IoError Unit}
    (h : (decideWork engine view writable index work base).batch = some added) :
    ∀ op ∈ added, ∃ key value, op = .put key value := by
  rcases decideWork_cases engine view writable index work base with
    ⟨err, herr⟩ | ⟨-, -, ⟨request, -, hrequest⟩ | ⟨key, n, -, hreserve⟩⟩
  · rw [herr] at h
    cases h
  · exact decideRequest_batch_puts hrequest h
  · obtain ⟨decided, hdec, ht⟩ := decideReservation_eq_ok hreserve
    rw [(takePlace_eq_ok ht).2.1] at h
    obtain ⟨last, -, ⟨-, rfl⟩ | ⟨-, -, -, rfl⟩⟩ := decideAllocation_eq_ok hdec
    · cases h
    · cases h
      exact fun op hop => ⟨_, _, List.mem_singleton.mp hop⟩

end Chains

end RegolithStore
