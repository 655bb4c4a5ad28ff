import RegolithStore.Commit.Append
import RegolithStore.Compaction.Reduction

/-! What a transaction buffers (`txn_buffer.rs`, `write_buffer.rs`), how a read takes it and what
a commit stores of it: the last put or delete of each key and the operands after it, some of them
partially merged, as one batch. The buffer is the list; its index finds a key's newest node. -/

namespace RegolithStore

open Lib

inductive Write
  | put (value : Value)
  | delete
  | merge (operand : Value)
  deriving DecidableEq

/-- The values a list of keyed ones holds for `key`, in its order. -/
def valuesOf {α : Type} (key : Key) (l : List (Key × α)) : List α :=
  (l.filter fun n => decide (n.1 = key)).map Prod.snd

structure TxnBuffer (α : Type) where
  nodes : List (Key × α) := []
  spillAt : Nat := 0
  /-- Whether the index is built. -/
  indexed : Bool := false

namespace TxnBuffer

variable {α : Type} (b : TxnBuffer α)

def len : Nat := b.nodes.length

def insert (key : Key) (value : α) : TxnBuffer α where
  nodes := (key, value) :: b.nodes
  spillAt := b.spillAt
  indexed := b.indexed || decide (0 < b.spillAt ∧ b.spillAt < b.len + 1)

def truncate (len : Nat) : TxnBuffer α := { b with nodes := b.nodes.drop (b.len - len) }

/-- What `walk_chain` visits: the values buffered for `key`, newest first. -/
def chain (key : Key) : List α := valuesOf key b.nodes

/-- The index, once built, holds one node a key. -/
def mayHaveRepeatedKeys : Bool :=
  if b.indexed then decide ((b.nodes.map Prod.fst).dedup.length < b.len)
  else decide (32 < b.len) || !decide (b.nodes.map Prod.fst).Nodup

end TxnBuffer

/-- A key's writes since it was last replaced: what replaced it, and the operands after it,
oldest first. -/
structure KeyWrites where
  base : Option (Option Value)
  operands : List Value
  deriving DecidableEq

namespace KeyWrites

/-- The writes of one key, newest first, with the operands seen so far. -/
def foldFrom (operands : List Value) : List Write → KeyWrites
  | [] => ⟨none, operands⟩
  | .merge operand :: older => foldFrom (operand :: operands) older
  | .put value :: _ => ⟨some (some value), operands⟩
  | .delete :: _ => ⟨some none, operands⟩

def fold (chain : List Write) : KeyWrites := foldFrom [] chain

end KeyWrites

variable (op : MergeOperator)

def applyMerge (key : Key) (base : Option Value) (operands : List Value) :
    Except ReadError Value :=
  match op.fullMerge key base operands with
  | some merged => .ok merged
  | none => .error .mergeFailed

/-- What operands make of the key they lie on: `base` where the transaction replaced it, else
what `committed` reads. -/
def merged (key : Key) (base : Option (Option Value)) (operands : List Value)
    (committed : Except ReadError (Option Value)) : Except ReadError Value :=
  match base with
  | some base => applyMerge op key base operands
  | none => committed.bind fun committed => applyMerge op key committed operands

/-- `read_buffered`: what a read of `key` finds, or `none` when the transaction's writes do not
decide it. -/
def readBuffered (writes : TxnBuffer Write) (merge : Option MergeOperator) (key : Key)
    (committed : Except ReadError (Option Value)) : Except ReadError (Option (Option Value)) :=
  match KeyWrites.fold (writes.chain key) with
  | ⟨base, operands⟩ =>
    if operands = [] then .ok base
    else match merge with
      | some op => (merged op key base operands committed).map fun value => some (some value)
      | none => .ok base

namespace WriteBuffer

/-- `or_insert` of a map in key order: the value first inserted stays. -/
def orInsert (key : Key) (value : Option Value) :
    List (Key × Option Value) → List (Key × Option Value)
  | [] => [(key, value)]
  | p :: ps =>
    if p.1 < key then p :: orInsert key value ps
    else if p.1 = key then p :: ps
    else (key, value) :: p :: ps

/-- One drained write: the point writes by key (`none` deletes), and the operands, newest
last. -/
def settleStep (s : List (Key × Option Value) × List (Key × Value)) (n : Key × Write) :
    List (Key × Option Value) × List (Key × Value) :=
  match n.2 with
  | .merge operand => if n.1 ∈ s.1.map Prod.fst then s else (s.1, s.2 ++ [(n.1, operand)])
  | .put value => (orInsert n.1 (some value) s.1, s.2)
  | .delete => (orInsert n.1 none s.1, s.2)

/-- A drained buffer, newest write first, as the point writes in key order and the
operands that apply on top of them, oldest first. -/
def settle (drained : List (Key × Write)) : List (Key × Option Value) × List (Key × Value) :=
  let s := drained.foldl settleStep ([], [])
  (s.1, s.2.reverse)

end WriteBuffer

/-- Two operands as one, where that saves bytes and stays within the limit. -/
def combine (limit : Nat) (key : Key) (left right : Value) : Option Value :=
  if left.length ≤ limit ∧ right.length ≤ limit then
    (op.partialMerge key left right).filter fun combined =>
      decide (combined.length < left.length + right.length ∧ combined.length ≤ limit)
  else none

/-- `fold_run` joins two halves only where each of them became one operand. -/
def joinHalves (limit : Nat) (key : Key) (left right : List Value) :
    List Value :=
  match left, right with
  | [l], [r] => match combine op limit key l r with
    | some combined => [combined]
    | none => [l, r]
  | left, right => left ++ right

/-- `fold_run`: the operands of one key, folded by halves. -/
def foldRun (op : MergeOperator) (limit : Nat) (key : Key) (operands : List Value) : List Value :=
  if operands.length ≤ 1 then operands
  else joinHalves op limit key
    (foldRun op limit key (operands.take (operands.length / 2)))
    (foldRun op limit key (operands.drop (operands.length / 2)))
termination_by operands.length
decreasing_by all_goals simp only [List.length_take, List.length_drop]; omega

def foldKeyRun (limit : Nat) : List (Key × Value) → List (Key × Value)
  | [] => []
  | first :: rest =>
    (foldRun op limit first.1 ((first :: rest).map Prod.snd)).map fun v => (first.1, v)

/-- `fold_merges`, key by key. -/
def foldMerges (maxValueSize : Nat) (merges : List (Key × Value)) :
    List (Key × Value) :=
  (runsOf Prod.fst (stableSort Prod.fst merges)).flatMap (foldKeyRun op maxValueSize)

def drainWrites (op : Option MergeOperator) (maxValueSize : Nat) (writes : TxnBuffer Write) :
    List (Key × Option Value) × List (Key × Value) :=
  let (points, merges) := WriteBuffer.settle writes.nodes
  match op with
  | some op =>
    if writes.mayHaveRepeatedKeys ∧ 1 < merges.length then
      (points, foldMerges op maxValueSize merges)
    else (points, merges)
  | none => (points, merges)

def pointOp : Key × Option Value → WriteBatchOp
  | (key, some value) => .put key value
  | (key, none) => .delete key

/-- `grouped_batch_ops`: point operations in key order, range deletes, then merges in key
order, each key's operands in the order they were buffered. -/
def groupedBatchOps (pointOps : List (Key × Option Value)) (rangeDeletes : List (Key × Key))
    (merges : List (Key × Value)) : List WriteBatchOp :=
  pointOps.map pointOp ++ (rangeDeletes.map fun r => .deleteRange r.1 r.2) ++
    (stableSort Prod.fst merges).map fun m => .merge m.1 m.2

end RegolithStore
