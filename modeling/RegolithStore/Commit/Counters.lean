import RegolithStore.Wal.Operations

/-! The counters carried from slot to slot (`counters.rs`): each counter's last reserved
value, in a table of bounded size. A slot that writes a counter's key drops it from the table
it carries on, and the next reservation reads the key again. -/

namespace RegolithStore

open Lib List

def maxCounters : Nat := 64

/-- Sorted by key, which is what lets the source find a counter by binary search. -/
structure Counters where
  entries : List (Key × UInt64)
  sorted : entries.Pairwise fun a b => a.1 < b.1

def WriteBatchOp.writes (key : Key) : WriteBatchOp → Bool
  | put written _ | delete written | merge written _ => decide (written = key)
  | deleteRange start stop => decide (start ≤ key ∧ key < stop)

def insertCounter (key : Key) (value : UInt64) : List (Key × UInt64) → List (Key × UInt64)
  | [] => [(key, value)]
  | p :: ps =>
    if p.1 < key then p :: insertCounter key value ps
    else if p.1 = key then (key, value) :: ps
    else (key, value) :: p :: ps

variable {ps : List (Key × UInt64)} {value : UInt64} {key : Key}

theorem keys_insertCounter
    {p : Key × UInt64} (h : p ∈ insertCounter key value ps) : p.1 = key ∨ p ∈ ps := by
  induction ps with
  | nil => exact .inl (by rw [mem_singleton.mp h])
  | cons q ps ih =>
    rw [insertCounter] at h
    split_ifs at h
    · rcases mem_cons.mp h with rfl | h
      · exact .inr mem_cons_self
      · exact (ih h).imp id (mem_cons_of_mem _)
    · rcases mem_cons.mp h with rfl | h
      · exact .inl rfl
      · exact .inr (.tail _ h)
    · rcases mem_cons.mp h with rfl | h
      · exact .inl rfl
      · exact .inr h

theorem insertCounter_sorted (h : ps.Pairwise fun a b => a.1 < b.1) :
    (insertCounter key value ps).Pairwise fun a b => a.1 < b.1 := by
  induction ps with
  | nil => exact pairwise_singleton _ _
  | cons q ps ih =>
    rw [pairwise_cons] at h
    rw [insertCounter]
    split_ifs with hlt heq
    · refine .cons (fun p hp => ?_) (ih h.2)
      rcases keys_insertCounter hp with hk | hp
      · rwa [hk]
      · exact h.1 p hp
    · exact .cons (fun p hp => heq ▸ h.1 p hp) h.2
    · have hgt : key < q.1 := lt_of_le_of_ne (not_lt.mp hlt) (Ne.symm heq)
      refine .cons (fun p hp => ?_) (.cons h.1 h.2)
      rcases mem_cons.mp hp with rfl | hp
      · exact hgt
      · exact hgt.trans (h.1 p hp)

namespace Counters

def empty : Counters := ⟨[], .nil⟩

variable (c : Counters)

def get (key : Key) : Option UInt64 :=
  (c.entries.find? fun p => decide (p.1 = key)).map Prod.snd

/-- A key the table does not keep yet is left out when the table is full. -/
def set (key : Key) (value : UInt64) : Counters :=
  if (c.get key).isNone ∧ maxCounters ≤ c.entries.length then c
  else ⟨insertCounter key value c.entries, insertCounter_sorted c.sorted⟩

def forgetWritten (ops : List WriteBatchOp) : Option Counters :=
  let written := fun p : Key × UInt64 => ops.any (WriteBatchOp.writes p.1)
  if c.entries.any written then
    some ⟨c.entries.filter fun p => !written p, c.sorted.filter _⟩
  else none

variable {c}

end Counters

end RegolithStore
