import Mathlib.Data.List.TakeWhile
import RegolithStore.Store.Version

/-! Point reads of a version (`source_walk.rs`, `get_with_merge`). The walk visits L0
from the newest table back, then each deeper level's tables that cover the key, and
collects the key's visible entries down to the first value or deletion. The newest
covering range tombstone seen so far stands in as a deletion for every entry at or
below it. The operands collected are folded onto what is under them. A table's block
search and its filters are left out: what a table gives is its entries for the key. -/

namespace RegolithStore

open Lib List

variable {operands : List Entry} {last : Entry}

structure MergeOperator where
  fullMerge : Key → Option Value → List Value → Option Value
  partialMerge : Key → Value → Value → Option Value

inductive ReadError
  | mergeFailed
  deriving DecidableEq

def leadingOperands (chain : List Entry) : Nat :=
  (chain.takeWhile fun e => decide (e.valueType = .merge)).length

/-- The value under a chain's operands, if it is one. -/
def baseOf : List Entry → Option Value
  | [] => none
  | e :: _ => if e.valueType = .value then some e.value else none

variable (op : MergeOperator) {chain : List Entry}

/-- The answer of one key's versions, newest first. -/
def resolve (k : Key) (chain : List Entry) :
    Except ReadError (Option Value) :=
  let operands := chain.take (leadingOperands chain)
  let base := baseOf (chain.drop (leadingOperands chain))
  if operands = [] then .ok base
  else match op.fullMerge k base (operands.reverse.map Entry.value) with
    | some merged => .ok (some merged)
    | none => .error .mergeFailed

theorem chain_cases (chain : List Entry) : (∀ e ∈ chain, e.valueType = .merge) ∨ ∃ operands last
    rest, chain = operands ++ last :: rest ∧
      (∀ e ∈ operands, e.valueType = .merge) ∧ last.valueType ≠ .merge := by
  induction chain with
  | nil => exact .inl (by simp)
  | cons a chain ih =>
    by_cases ha : a.valueType = .merge
    · rcases ih with h | ⟨operands, last, rest, rfl, h, hl⟩
      · exact .inl (forall_mem_cons.mpr ⟨ha, h⟩)
      · exact .inr ⟨a :: operands, last, rest, rfl, forall_mem_cons.mpr ⟨ha, h⟩, hl⟩
    · exact .inr ⟨[], a, chain, rfl, by simp, ha⟩

theorem leadingOperands_append_merges (h : ∀ e ∈ operands, e.valueType = .merge)
    (rest : List Entry) : leadingOperands (operands ++ rest) = operands.length + leadingOperands rest := by
  rw [leadingOperands, takeWhile_append_of_pos (by simpa using h), length_append, leadingOperands]

theorem leadingOperands_of_merges (h : ∀ e ∈ chain, e.valueType = .merge) :
    leadingOperands chain = chain.length := by
  simpa [leadingOperands] using leadingOperands_append_merges h []

theorem leadingOperands_append {operands rest : List Entry}
    (h : ∀ e ∈ operands, e.valueType = .merge) (hl : last.valueType ≠ .merge) :
    leadingOperands (operands ++ last :: rest) = operands.length := by
  rw [leadingOperands_append_merges h, leadingOperands,
    takeWhile_cons_of_neg (by simpa using hl), length_nil, Nat.add_zero]

/-! What decides a chain: the base under its operands, and the operands oldest first. -/

def chainBase (chain : List Entry) : Option Value := baseOf (chain.drop (leadingOperands chain))

def chainOperands (chain : List Entry) : List Value :=
  (chain.take (leadingOperands chain)).reverse.map Entry.value

theorem chainBase_append (h : ∀ e ∈ operands, e.valueType = .merge) (rest : List Entry) :
    chainBase (operands ++ rest) = chainBase rest := by
  rw [chainBase, leadingOperands_append_merges h, drop_length_add_append, chainBase]

theorem chainOperands_append (h : ∀ e ∈ operands, e.valueType = .merge)
    (rest : List Entry) : chainOperands (operands ++ rest) =
      chainOperands rest ++ operands.reverse.map Entry.value := by
  rw [chainOperands, leadingOperands_append_merges h, take_length_add_append,
    reverse_append, map_append, chainOperands]

theorem chainBase_cons (h : last.valueType ≠ .merge) (rest : List Entry) :
    chainBase (last :: rest) = baseOf [last] := by
  rw [chainBase, ← nil_append (last :: rest), leadingOperands_append (by simp) h]
  rfl

theorem chainOperands_cons (h : last.valueType ≠ .merge) (rest : List Entry) :
    chainOperands (last :: rest) = [] := by
  rw [chainOperands, ← nil_append (last :: rest), leadingOperands_append (by simp) h]
  rfl

/-- Operands, oldest first, folded onto a base; a base alone is the answer. -/
def foldOnto (k : Key) (base : Option Value) (operands : List Value) :
    Except ReadError (Option Value) :=
  if operands = [] then .ok base
  else match op.fullMerge k base operands with
    | some merged => .ok (some merged)
    | none => .error .mergeFailed

section Resolve

variable {op : MergeOperator} {k : Key}

theorem resolve_eq (chain : List Entry) :
    resolve op k chain = foldOnto op k (chainBase chain) (chainOperands chain) := by
  simp only [resolve, foldOnto, chainBase, chainOperands, map_eq_nil_iff, reverse_eq_nil_iff]

/-- Ends of a chain that fold alike under more operands are alike under anything newer. -/
theorem resolve_congr {l l' : List Entry}
    (h : ∀ ys, foldOnto op k (chainBase l) (chainOperands l ++ ys) =
      foldOnto op k (chainBase l') (chainOperands l' ++ ys)) (chain : List Entry) :
    resolve op k (chain ++ l) = resolve op k (chain ++ l') := by
  rw [resolve_eq, resolve_eq]
  rcases chain_cases chain with hc | ⟨operands, mid, tail, rfl, hc, hmid⟩
  · simp only [chainBase_append hc, chainOperands_append hc, h]
  · simp only [append_assoc, cons_append, chainBase_append hc, chainOperands_append hc,
      chainBase_cons hmid, chainOperands_cons hmid]

theorem resolve_cut (hl : last.valueType ≠ .merge) (chain rest rest' : List Entry)
    : resolve op k (chain ++ last :: rest) = resolve op k (chain ++ last :: rest') :=
  resolve_congr (fun ys => by simp only [chainBase_cons hl, chainOperands_cons hl]) chain

theorem resolve_append_deletion {d : Entry} (hd : d.valueType = .deletion) :
    resolve op k (chain ++ [d]) = resolve op k chain := by
  have hm : d.valueType ≠ .merge := by simp [hd]
  have hn : baseOf [d] = none := by simp [baseOf, hd]
  rw [← append_nil chain, append_assoc, nil_append]
  refine resolve_congr (fun ys => ?_) chain
  rw [chainBase_cons hm, chainOperands_cons hm, hn]
  rfl

end Resolve

namespace LiveSst

variable (f : LiveSst)

def entriesOf (k : Key) : List Entry :=
  f.reader.entries.filter fun e => decide (e.userKey = k)

def coveringSeq (k : Key) (r : Seq) : Seq := f.reader.rangeTombstones.maxCoveringSeq k r

def visible (f : LiveSst) (k : Key) (r : Seq) : List Entry :=
  (f.entriesOf k).filter fun e => decide (e.seq ≤ r)

/-- The key's visible entries, newest first, through the first value or deletion. -/
def collectMergeChain (k : Key) (r : Seq) : List Entry :=
  (f.visible k r).take (leadingOperands (f.visible k r) + 1)

end LiveSst

section Walk

variable (k : Key) (r : Seq)

/-- The chain with what one source found for it. Entries are newest first: the first one at
or below the tombstone ends the chain, which stands in as a deletion. -/
def extendChain (maxRtSeq : Seq) (chain found : List Entry) : Except (List Entry) (List Entry) :=
  match found.dropWhile fun e => decide (maxRtSeq < e.seq) with
  | _ :: _ => .error (chain ++ found.takeWhile (fun e => decide (maxRtSeq < e.seq)) ++
      [⟨k, maxRtSeq, .deletion, []⟩])
  | [] => if found.any fun e => decide (e.valueType ≠ .merge) then .error (chain ++ found)
      else .ok (chain ++ found)

/-- The newest covering tombstone of `files` visible at `r`, or `maxRtSeq` if that is newer. -/
def gather (maxRtSeq : Seq) (files : List LiveSst) : Seq :=
  raise (fun f => f.coveringSeq k r) maxRtSeq files

end Walk

namespace Version

/-- The places a read of `k` walks: every L0 table, newest first, then the covering tables
of each level. -/
def places (v : Version) (k : Key) : List (List LiveSst × List LiveSst) :=
  (v.levels 0).reverse.map (fun f => ([f], [f])) ++
  ((List.range maxLevels).drop 1).map fun level =>
    (covering (v.levels level) k,
      (covering (v.levels level) k).filter fun f => decide (0 < f.metadata.numEntries))

/-- The chain `walk_newest_first` collects where the memtables say nothing of `k`. -/
def mergeChain (v : Version) (k : Key) (r : Seq) : List Entry :=
  match walkPlaces (fun f => f.coveringSeq k r)
      (fun maxRtSeq chain f => extendChain k maxRtSeq chain (f.collectMergeChain k r)) 0 []
      (v.places k) with
  | .error chain => chain
  | .ok (chain, _) => chain

def get (v : Version) (k : Key) (r : Seq) : Except ReadError (Option Value) :=
  resolve op k (v.mergeChain k r)

def tables (v : Version) : List LiveSst :=
  (v.levels 0).reverse ++ ((List.range maxLevels).drop 1).flatMap v.levels

end Version

end RegolithStore
