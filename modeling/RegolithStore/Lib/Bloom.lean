import Mathlib.Data.List.Basic

/-! Bloom filters by double hashing: the positions a key is looked up at come from the two
halves of one hash, and building a filter sets them for every key. A filter never rejects a
key it was built from, whatever the hash. -/

namespace RegolithStore.Lib

open List

variable {κ : Type*} {key : κ}

structure BloomFilter where
  bits : List Bool
  numHashes : Nat

variable (hash : κ → UInt64)

def bitPos (numBits : Nat) (key : κ) (i : Nat) : Nat :=
  let h := hash key
  (h.toUInt32 + (h >>> 32).toUInt32 * UInt32.ofNat i).toNat % numBits

namespace BloomFilter

/-- A filter with no bits rejects nothing. -/
def mayContain (b : BloomFilter) (key : κ) : Bool :=
  b.bits.isEmpty ||
    (List.range b.numHashes).all fun i => b.bits.getD (bitPos hash b.bits.length key i) false

def addKey (numHashes : Nat) (bits : List Bool) (key : κ) : List Bool :=
  (List.range numHashes).foldl (fun bits i => bits.set (bitPos hash bits.length key i) true) bits

/-- Whole bytes of bits, at least eight of them. -/
def build (numHashes bitsPerKey : Nat) (keys : List κ) : BloomFilter :=
  if keys.isEmpty then ⟨[], 0⟩
  else
    let numBits := (max (keys.length * bitsPerKey) 64 + 7) / 8 * 8
    ⟨keys.foldl (addKey hash numHashes) (List.replicate numBits false), numHashes⟩

variable {hash : κ → UInt64} {numHashes : Nat} {bits : List Bool} {p : Nat} {keys : List κ}
  {q : κ × Nat} {qs : List (κ × Nat)}

variable (hash) in
/-- Each position of each key is set in turn. -/
private def setAll (qs : List (κ × Nat)) (bits : List Bool) : List Bool :=
  qs.foldl (fun bits q => bits.set (bitPos hash bits.length q.1 q.2) true) bits

private theorem addKeys_eq_setAll : keys.foldl (addKey hash numHashes) bits =
    setAll hash (keys.flatMap fun key => (List.range numHashes).map fun i => (key, i)) bits := by
  simp only [setAll, foldl_flatMap, foldl_map]
  rfl

private theorem length_setAll : (setAll hash qs bits).length = bits.length := by
  induction qs generalizing bits with
  | nil => rfl
  | cons q qs ih => exact ih.trans length_set

private theorem getD_set_of_getD (q : Nat) (h : bits.getD p false = true) :
    (bits.set q true).getD p false = true := by
  rw [getD_eq_getElem?_getD] at h ⊢
  rw [getElem?_set]
  split_ifs with hq hlen
  · rfl
  · rw [hq] at hlen
    rw [getElem?_eq_none (Nat.le_of_not_lt hlen)] at h
    exact h
  · exact h

private theorem getD_setAll_of_getD (qs : List (κ × Nat)) (h : bits.getD p false = true) :
    (setAll hash qs bits).getD p false = true := by
  induction qs generalizing bits with
  | nil => exact h
  | cons q qs ih => exact ih (getD_set_of_getD _ h)

private theorem getD_setAll (hq : q ∈ qs) (hbits : 0 < bits.length) :
    (setAll hash qs bits).getD (bitPos hash bits.length q.1 q.2) false = true := by
  induction qs generalizing bits with
  | nil => cases hq
  | cons first qs ih =>
    rcases mem_cons.mp hq with rfl | hq
    · refine getD_setAll_of_getD qs ?_
      have hlt : bitPos hash bits.length q.1 q.2 < bits.length := Nat.mod_lt _ hbits
      rw [getD_eq_getElem?_getD, getElem?_set_self hlt]
      rfl
    · have hset : 0 < (bits.set (bitPos hash bits.length first.1 first.2) true).length := by
        rwa [length_set]
      have hr := ih hq hset
      rwa [length_set] at hr

theorem mayContain_build {bitsPerKey : Nat} (hkey : key ∈ keys) :
    (build hash numHashes bitsPerKey keys).mayContain hash key = true := by
  have hne : keys.isEmpty = false := by
    rw [isEmpty_eq_false_iff]
    exact ne_nil_of_mem hkey
  rw [build, hne, if_neg Bool.false_ne_true, mayContain, Bool.or_eq_true, all_eq_true]
  refine .inr fun i hi => ?_
  have hbits : 0 < (List.replicate ((max (keys.length * bitsPerKey) 64 + 7) / 8 * 8)
      false).length := by
    rw [length_replicate]
    omega
  dsimp only
  rw [addKeys_eq_setAll, length_setAll]
  exact getD_setAll (q := (key, i)) (mem_flatMap.mpr ⟨key, hkey, mem_map_of_mem hi⟩) hbits

end BloomFilter

end RegolithStore.Lib
