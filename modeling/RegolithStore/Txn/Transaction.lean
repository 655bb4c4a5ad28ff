import RegolithStore.Txn.OwnWrites

/-! A transaction's reads (`transaction.rs`). Each key it read has a cell with the sequence the
key was first read at and the one later reads are served at, which only rises. A plain read
asks for the begin snapshot. `get_for_update` of a pessimistic transaction asks for the
horizon sampled under the key's lock, or, where the lock was held before and the key has a
cell, for that cell's sequence. A read that fails, parts of a value and key classifiers are
left out. -/

namespace RegolithStore

open Lib

inductive TxMode
  | optimistic
  | pessimistic
  deriving DecidableEq

structure KeyState where
  firstReadSeq : Seq
  readSeq : Seq
  forUpdate : Bool
  deriving DecidableEq

structure Transaction where
  mode : TxMode
  snapshotSeq : Seq
  own : TxnWrites
  tracked : Key → Option KeyState := fun _ => none
  /-- The highest sequence `get_for_update` served a key at. -/
  promotedSeq : Seq := 0
  heldLocks : List Key := []

namespace Transaction

variable (t : Transaction)

/-- Record a read of `key` at `horizon`, and the sequence the read is served at. -/
def observe (key : Key) (horizon : Seq) (forUpdate : Bool) : Transaction × Seq :=
  let state := (t.tracked key).getD ⟨horizon, horizon, forUpdate⟩
  let readSeq := max state.readSeq horizon
  let seen := ⟨state.firstReadSeq, readSeq, state.forUpdate || forUpdate⟩
  ({ t with tracked := Function.update t.tracked key (some seen) }, readSeq)

/-- The sequence a fresh read of `key` is anchored at; `current` is the engine's horizon. -/
def readHorizon (key : Key) (alreadyHeld : Bool) (current : Seq) : Seq :=
  match t.mode with
  | .optimistic => t.snapshotSeq
  | .pessimistic =>
    if alreadyHeld then
      match t.tracked key with
      | some state => state.readSeq
      | none => current
    else current

variable (op : Option MergeOperator) (view : ReadView)

/-- `Transaction::get` of a prefixed key. What the transaction replaced itself is not read,
and not recorded. -/
def get (key : Key) :
    Except ReadError (Option Value) × Transaction :=
  match (KeyWrites.fold (t.own.writes.chain key)).base with
  | some _ => (t.own.get op key (.ok none), t)
  | none =>
    let (t', readSeq) := t.observe key t.snapshotSeq false
    (t.own.get op key (view.lookupLoaded key readSeq op), t')

/-- `read_for_update`, once the lock is held. -/
def readForUpdate (current : Seq) (key : Key)
    (alreadyHeld : Bool) : Except ReadError (Option Value) × Transaction :=
  let (t', readSeq) := t.observe key (t.readHorizon key alreadyHeld current) true
  (t.own.get op key (view.lookupLoaded key readSeq op),
    { t' with promotedSeq := max t'.promotedSeq readSeq })

def hold (key : Key) : Transaction :=
  { t with heldLocks := if key ∈ t.heldLocks then t.heldLocks else key :: t.heldLocks }

def getForUpdate (current : Seq) (key : Key) :
    Except ReadError (Option Value) × Transaction :=
  (t.hold key).readForUpdate op view current key (decide (key ∈ t.heldLocks))

def new (mode : TxMode) (keysInline : Nat) (current : Seq) : Transaction where
  mode := mode
  snapshotSeq := current
  own := { writes := { spillAt := keysInline } }

variable {t} {horizon : Seq} {key : Key} {at_ : Seq}

theorem mem_hold {key key' : Key} (h : key' ∈ (t.hold key).heldLocks) :
    key' = key ∨ key' ∈ t.heldLocks := by
  rw [hold] at h
  split_ifs at h
  · exact .inr h
  · exact List.mem_cons.mp h

theorem observe_tracked (key : Key) (horizon : Seq) (forUpdate : Bool) :
    (t.observe key horizon forUpdate).1.tracked = Function.update t.tracked key
      (some ⟨((t.tracked key).getD ⟨horizon, horizon, forUpdate⟩).firstReadSeq,
        (t.observe key horizon forUpdate).2,
        ((t.tracked key).getD ⟨horizon, horizon, forUpdate⟩).forUpdate || forUpdate⟩) := rfl

theorem observe_readSeq_of_none (h : t.tracked key = none) (horizon : Seq) (forUpdate : Bool) :
    (t.observe key horizon forUpdate).2 = horizon := by
  rw [observe, h]
  exact max_self horizon

theorem observe_readSeq_of_some {state : KeyState} (h : t.tracked key = some state) (horizon : Seq)
    (forUpdate : Bool) : (t.observe key horizon forUpdate).2 = max state.readSeq horizon := by
  rw [observe, h]
  rfl

theorem get_cases (key : Key) : (t.get op view key).2 = t ∨
      (t.get op view key).2 = (t.observe key t.snapshotSeq false).1 := by
  rw [get]
  split
  · exact .inl rfl
  · exact .inr rfl

theorem getForUpdate_of_chain_nil (h : t.own.writes.chain key = [])
    (op : Option MergeOperator) (view : ReadView) (current : Seq) :
    (t.getForUpdate op view current key).1 = view.lookupLoaded key
      (t.observe key (t.readHorizon key (decide (key ∈ t.heldLocks)) current) true).2 op := by
  change t.own.get op key _ = _
  rw [TxnWrites.get, readBuffered, h]
  rfl

theorem getForUpdate_tracked (current : Seq)
    (key : Key) : (t.getForUpdate op view current key).2.tracked =
      (t.observe key (t.readHorizon key (decide (key ∈ t.heldLocks)) current) true).1.tracked := rfl

/-- Every key is read at the begin snapshot or after it, and at most at `horizon`. -/
structure Within (t : Transaction) (horizon : Seq) : Prop where
  mode : t.mode = .pessimistic
  snapshot : t.snapshotSeq ≤ horizon
  reads : ∀ key state, t.tracked key = some state →
    t.snapshotSeq ≤ state.readSeq ∧ state.readSeq ≤ horizon

theorem Within.mono {horizon horizon' : Seq} (h : t.Within horizon) (hle : horizon ≤ horizon') :
    t.Within horizon' where
  mode := h.mode
  snapshot := h.snapshot.trans hle
  reads := fun key state hs => ⟨(h.reads key state hs).1, (h.reads key state hs).2.trans hle⟩

variable (h : t.Within horizon)

include h

theorem Within.observe_le (key : Key) (hhi : at_ ≤ horizon) (forUpdate : Bool) : at_ ≤
    (t.observe key at_ forUpdate).2 ∧ (t.observe key at_ forUpdate).2 ≤ horizon := by
  cases hs : t.tracked key with
  | none =>
    rw [observe_readSeq_of_none hs]
    exact ⟨le_rfl, hhi⟩
  | some state =>
    rw [observe_readSeq_of_some hs]
    exact ⟨le_max_right _ _, max_le (h.reads key state hs).2 hhi⟩

theorem Within.observe (key : Key) (hlo : t.snapshotSeq ≤ at_)
    (hhi : at_ ≤ horizon) (forUpdate : Bool) : (t.observe key at_ forUpdate).1.Within horizon where
  mode := h.mode
  snapshot := h.snapshot
  reads := fun key' state hs => by
    rw [observe_tracked] at hs
    by_cases hkey : key' = key
    · subst hkey
      rw [Function.update_self, Option.some.injEq] at hs
      subst hs
      exact ⟨hlo.trans (h.observe_le key' hhi forUpdate).1, (h.observe_le key' hhi forUpdate).2⟩
    · rw [Function.update_of_ne hkey] at hs
      exact h.reads key' state hs

theorem Within.readHorizon (key : Key) (alreadyHeld : Bool) :
    t.snapshotSeq ≤ t.readHorizon key alreadyHeld horizon ∧
      t.readHorizon key alreadyHeld horizon ≤ horizon := by
  rw [Transaction.readHorizon, h.mode]
  split_ifs
  · cases hs : t.tracked key with
    | none => exact ⟨h.snapshot, le_rfl⟩
    | some state => exact h.reads key state hs
  · exact ⟨h.snapshot, le_rfl⟩

theorem Within.get (op : Option MergeOperator) (view : ReadView)
    (key : Key) : (t.get op view key).2.Within horizon := by
  rcases get_cases op view key with hget | hget <;> rw [hget]
  · exact h
  · exact h.observe key le_rfl h.snapshot false

theorem Within.getForUpdate (op : Option MergeOperator) (view : ReadView)
    (key : Key) : (t.getForUpdate op view horizon key).2.Within horizon :=
  have ho := h.observe key (h.readHorizon key (decide (key ∈ t.heldLocks))).1
    (h.readHorizon key _).2 true
  { mode := ho.mode, snapshot := ho.snapshot, reads := ho.reads }

omit h

end Transaction

end RegolithStore
