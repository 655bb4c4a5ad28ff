import Mathlib.Algebra.GroupWithZero.Nat
import Mathlib.Data.List.Lex
import Mathlib.Order.BoundedOrder.Basic
import Mathlib.Tactic.Order

/-! Byte strings under their lexicographic order, in which the string one zero byte longer is the
immediate successor, and fixed-width little-endian numbers inside them. The machine integers get
the linear order their comparison operators decide. Reading a number fails on a short input and
otherwise returns the rest. -/

namespace RegolithStore.Lib

open List

variable {w n m : Nat}

instance linearOrderUInt8 : LinearOrder UInt8 where
  le_refl := UInt8.le_refl
  le_trans _ _ _ := UInt8.le_trans
  le_antisymm _ _ := UInt8.le_antisymm
  le_total := UInt8.le_total
  lt_iff_le_not_ge a b := by grind
  toDecidableLE := inferInstance
  min := min
  max := max

instance linearOrderUInt64 : LinearOrder UInt64 where
  le_refl := UInt64.le_refl
  le_trans _ _ _ := UInt64.le_trans
  le_antisymm _ _ := UInt64.le_antisymm
  le_total := UInt64.le_total
  lt_iff_le_not_ge a b := by grind
  toDecidableLE := inferInstance
  min := min
  max := max

instance boundedOrderUInt64 : BoundedOrder UInt64 where
  top := 0xFFFFFFFFFFFFFFFF
  le_top a := by
    rw [UInt64.le_iff_toNat_le]
    exact Nat.le_of_lt_succ a.toNat_lt
  bot := 0
  bot_le a := by
    rw [UInt64.le_iff_toNat_le]
    exact Nat.zero_le _

abbrev Bytes := List UInt8

instance lawfulBEqBytes : LawfulBEq Bytes := inferInstance

variable {a : Bytes} {k l : Bytes}

/-- The byte string one zero byte longer. -/
def succBytes (k : Bytes) : Bytes := k ++ [0]

theorem lt_succBytes (k : Bytes) : k < succBytes k := by
  induction k with
  | nil => decide
  | cons a k ih => simpa [succBytes, cons_lt_cons_iff] using ih

theorem not_lt_of_lt_succBytes (h : l < succBytes k) : ¬ k < l := by
  induction k generalizing l with
  | nil =>
    cases l with
    | nil => exact lt_irrefl _
    | cons b l =>
      rcases cons_lt_cons_iff.mp h with hb | ⟨-, hl⟩
      · exact absurd hb (by grind)
      · exact absurd hl (by simp)
  | cons a k ih =>
    cases l with
    | nil => simp
    | cons b l =>
      intro hkl
      rcases cons_lt_cons_iff.mp h with hba | ⟨rfl, hl⟩
      · rcases cons_lt_cons_iff.mp hkl with hab | ⟨rfl, -⟩
        · exact lt_asymm hba hab
        · exact lt_irrefl _ hba
      · exact ih hl (by simpa [cons_lt_cons_iff] using hkl)

theorem lt_succBytes_iff : l < succBytes k ↔ l ≤ k :=
  ⟨fun h => not_lt.mp (not_lt_of_lt_succBytes h), fun h => lt_of_le_of_lt h (lt_succBytes k)⟩

/-- The low `w` bytes of `n`, least significant first. -/
def leBytes : Nat → Nat → Bytes
  | 0, _ => []
  | w + 1, n => UInt8.ofNat n :: leBytes w (n / 256)

/-- The number a little-endian byte string spells. -/
def ofLe : Bytes → Nat
  | [] => 0
  | b :: bs => b.toNat + 256 * ofLe bs

@[simp] theorem length_leBytes (w n : Nat) : (leBytes w n).length = w := by
  induction w generalizing n with
  | zero => rfl
  | succ w ih => simp [leBytes, ih]

theorem ofLe_leBytes (h : n < 256 ^ w) : ofLe (leBytes w n) = n := by
  induction w generalizing n with
  | zero => simp_all [ofLe, leBytes]
  | succ w ih =>
    have hdiv : n / 256 < 256 ^ w := Nat.div_lt_of_lt_mul (by rwa [Nat.pow_succ, Nat.mul_comm] at h)
    simp only [leBytes, ofLe, ih hdiv, UInt8.toNat_ofNat']
    omega

def splitBytes (n : Nat) (data : Bytes) : Option (Bytes × Bytes) :=
  if n ≤ data.length then some (data.take n, data.drop n) else none

theorem splitBytes_append {n : Nat} (rest : Bytes) (h : a.length = n) :
    splitBytes n (a ++ rest) = some (a, rest) := by
  subst h
  simp [splitBytes]

/-- A `w`-byte little-endian number at the head of the input, and the rest. -/
def readLe (w : Nat) (data : Bytes) : Option (Nat × Bytes) :=
  (splitBytes w data).map fun p => (ofLe p.1, p.2)

theorem readLe_append (rest : Bytes) (h : n < 256 ^ w) :
    readLe w (leBytes w n ++ rest) = some (n, rest) := by
  simp [readLe, splitBytes_append rest (length_leBytes w n), ofLe_leBytes h]

def readU64 (data : Bytes) : Option (UInt64 × Bytes) :=
  (readLe 8 data).map fun p => (UInt64.ofNat p.1, p.2)

variable (x : UInt64)

def encodeU64 : Bytes := leBytes 8 x.toNat

@[simp] theorem length_encodeU64 : (encodeU64 x).length = 8 := length_leBytes 8 _

@[simp] theorem readU64_encode (rest : Bytes) : readU64 (encodeU64 x ++ rest) = some (x, rest) := by
  have hx : x.toNat < 256 ^ 8 := x.toNat_lt
  simp [readU64, encodeU64, readLe_append rest hx]

def beBytes (w n : Nat) : Bytes := (leBytes w n).reverse

def encodeBeU64 : Bytes := beBytes 8 x.toNat

def readBeU64 (bytes : Bytes) : Option UInt64 :=
  if bytes.length = 8 then some (UInt64.ofNat (ofLe bytes.reverse)) else none

def slice (bytes : Bytes) (i n : Nat) : Bytes := (bytes.drop i).take n

def leAt (w : Nat) (bytes : Bytes) (i : Nat) : Nat := ofLe (slice bytes i w)

theorem slice_append_right (ha : a.length = m) (b : Bytes) (i n : Nat) :
    slice (a ++ b) (m + i) n = slice b i n := by
  subst ha
  rw [slice, slice, ← drop_drop, drop_left]

theorem slice_append_left {n : Nat} (ha : a.length = n) (b : Bytes) : slice (a ++ b) 0 n = a := by
  subst ha
  simp [slice]

theorem slice_slice {i n j : Nat} (h : j + m ≤ n) (bytes : Bytes) :
    slice (slice bytes i n) j m = slice bytes (i + j) m := by
  rw [slice, slice, slice, drop_take, take_take, drop_drop, min_eq_left (by omega)]

theorem leAt_append_right (ha : a.length = m) (b : Bytes) (w i : Nat) :
    leAt w (a ++ b) (m + i) = leAt w b i := by
  rw [leAt, leAt, slice_append_right ha]

theorem leAt_leBytes (h : n < 256 ^ w) (rest : Bytes) : leAt w (leBytes w n ++ rest) 0 = n := by
  rw [leAt, slice_append_left (length_leBytes w n), ofLe_leBytes h]

def encodeU32 (x : UInt32) : Bytes := leBytes 4 x.toNat

@[simp] theorem length_encodeU32 (x : UInt32) : (encodeU32 x).length = 4 := length_leBytes 4 _

theorem leAt_encodeU32 (x : UInt32) (rest : Bytes) : leAt 4 (encodeU32 x ++ rest) 0 = x.toNat :=
  leAt_leBytes x.toNat_lt rest

theorem leAt_encodeU64 (rest : Bytes) : leAt 8 (encodeU64 x ++ rest) 0 = x.toNat :=
  leAt_leBytes x.toNat_lt rest

end RegolithStore.Lib
