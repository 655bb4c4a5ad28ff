import Mathlib.Data.Nat.Bitwise

/-! The gate every write of a positional log passes (`wal_gate.rs`). One word packs the log's
write epoch over the number of writes in flight; another packs the side a write counts in on
over the writes in flight on each of two sides. Each atomic access of the source is one
function here, on the packed words. While no count passes what its bits hold, which the
source asserts where it counts in, the words are what the counts pack to and every access
does to the counts what it is for. -/

namespace RegolithStore

def writerBits : Nat := 24
def writersMask : Nat := (1 <<< writerBits) - 1

def sideBit : Nat := 63
def sideBits : Nat := 31
def sideCount : Nat := (1 <<< sideBits) - 1

/-- The side a write counting in now joins. -/
def currentSide (sides : Nat) : Nat := sides >>> sideBit

def onSide (sides side : Nat) : Nat := (sides >>> (side * sideBits)) &&& sideCount

def oneOn (side : Nat) : Nat := 1 <<< (side * sideBits)

structure Gate where
  word : Nat
  sides : Nat
  /-- The prefix a sync turned the gate for; 0 when no turn is outstanding. -/
  turned : Nat
  deriving DecidableEq

namespace Gate

variable (g : Gate)

def new : Gate := ⟨0, 0, 0⟩

def epoch : Nat := g.word >>> writerBits

/-- The count in of `enter` on the word: none where the gate moved on, or holds no more. -/
def enterWord (epoch : Nat) : Option Gate :=
  if g.epoch = epoch ∧ g.word &&& writersMask < writersMask then some { g with word := g.word + 1 }
  else none

/-- The count in of `enter` on the side the gate names, and that side. -/
def enterSide : Option (Gate × Nat) :=
  let side := currentSide g.sides
  if onSide g.sides side < sideCount then
    some ({ g with sides := g.sides + oneOn side }, side)
  else none

def leaveSide (side : Nat) : Gate := { g with sides := g.sides - oneOn side }

def leaveWord : Gate := { g with word := g.word - 1 }

def turn (epoch : Nat) : Gate :=
  { g with word := epoch <<< writerBits ||| g.word &&& writersMask }

def isClear : Bool := g.word &&& writersMask = 0

def forgetTurn : Gate := { g with turned := 0 }

def flip : Gate := { g with sides := g.sides ^^^ (1 <<< sideBit) }

end Gate

/-- The words pack these counts, none past what its bits hold. -/
structure Gate.Packs (g : Gate) (epoch inflight side : Nat) (on : Nat → Nat) : Prop where
  word_eq : g.word = epoch * 2 ^ 24 + inflight
  inflight_lt : inflight < 2 ^ 24
  sides_eq : g.sides = side * 2 ^ 63 + (on 1 * 2 ^ 31 + on 0)
  side_lt : side < 2
  low_lt : on 0 < 2 ^ 31
  high_lt : on 1 < 2 ^ 31

namespace Gate

variable {g g' : Gate} {epoch inflight side : Nat} {on : Nat → Nat} {k : Nat}

theorem packs_new : new.Packs 0 0 0 fun _ => 0 :=
  ⟨rfl, by decide, rfl, by decide, by decide, by decide⟩

section

variable (h : g.Packs epoch inflight side on)

include h

theorem Packs.epoch_eq : g.epoch = epoch := by
  have hlt := h.inflight_lt
  rw [Gate.epoch, writerBits, Nat.shiftRight_eq_div_pow, h.word_eq]
  omega

theorem Packs.inflight_eq : g.word &&& writersMask = inflight := by
  have hlt := h.inflight_lt
  rw [writersMask, writerBits, Nat.one_shiftLeft, Nat.and_two_pow_sub_one_eq_mod, h.word_eq]
  omega

theorem Packs.side_eq : currentSide g.sides = side := by
  have hlow := h.low_lt
  have hh := h.high_lt
  rw [currentSide, sideBit, Nat.shiftRight_eq_div_pow, h.sides_eq]
  omega

theorem Packs.onSide_eq (hk : k < 2) : onSide g.sides k = on k := by
  have hlow := h.low_lt
  have hh := h.high_lt
  rw [onSide, sideCount, sideBits, Nat.one_shiftLeft, Nat.and_two_pow_sub_one_eq_mod,
    Nat.shiftRight_eq_div_pow, h.sides_eq]
  obtain rfl | rfl : k = 0 ∨ k = 1 := by omega
  · rw [Nat.zero_mul, Nat.pow_zero, Nat.div_one]
    omega
  · rw [Nat.one_mul]
    omega

end

theorem xor_two_pow {n side rest : Nat} (hs : side < 2) (hr : rest < 2 ^ n) :
    (side * 2 ^ n + rest) ^^^ 2 ^ n = (1 - side) * 2 ^ n + rest := by
  rw [Nat.mul_comm, Nat.mul_comm (1 - side)]
  refine Nat.eq_of_testBit_eq fun i => ?_
  rw [Nat.testBit_xor, Nat.testBit_two_pow_mul_add _ hr, Nat.testBit_two_pow_mul_add _ hr,
    Nat.testBit_two_pow]
  by_cases hi : i < n
  · simp [hi, hi.ne']
  · have hone : Nat.testBit (2 ^ 0) (i - n) = decide (n = i) := by
      rw [Nat.testBit_two_pow, decide_eq_decide]
      omega
    rw [Nat.pow_zero] at hone
    obtain rfl | rfl : side = 0 ∨ side = 1 := by omega
    · simp [hi, hone]
    · simp [hi, hone]

section

variable (h : g.Packs epoch inflight side on)

include h

theorem Packs.count {k n sides : Nat} (hk : k < 2)
    (hn : n < 2 ^ 31) (hsides : sides + oneOn k * on k = g.sides + oneOn k * n) :
    Packs { g with sides } epoch inflight side (Function.update on k n) := by
  have hsidesEq := h.sides_eq
  have hlow := h.low_lt
  have hh := h.high_lt
  obtain rfl | rfl : k = 0 ∨ k = 1 := by omega
  · have hone : oneOn 0 = 1 := rfl
    rw [hone] at hsides
    refine ⟨h.word_eq, h.inflight_lt, ?_, h.side_lt, ?_, ?_⟩ <;> simp only [Function.update_self,
      Function.update_of_ne (show 1 ≠ 0 by decide)] <;> omega
  · have hone : oneOn 1 = 2 ^ 31 := rfl
    rw [hone] at hsides
    refine ⟨h.word_eq, h.inflight_lt, ?_, h.side_lt, ?_, ?_⟩ <;> simp only [Function.update_self,
      Function.update_of_ne (show 0 ≠ 1 by decide)] <;> omega

theorem Packs.enterWord {e : Nat} (henter : g.enterWord e = some g') : epoch = e ∧ g'.Packs epoch (inflight + 1) side on ∧
      g'.turned = g.turned := by
  rw [Gate.enterWord, h.epoch_eq, h.inflight_eq, Option.ite_none_right_eq_some,
    Option.some.injEq] at henter
  obtain ⟨⟨he, hlt⟩, rfl⟩ := henter
  have hmask : writersMask = 2 ^ 24 - 1 := rfl
  refine ⟨he, ⟨?_, by omega, h.sides_eq, h.side_lt, h.low_lt, h.high_lt⟩, rfl⟩
  simp only [h.word_eq, Nat.add_assoc]

theorem Packs.enterSide (henter : g.enterSide = some (g', k)) : k = side ∧ g'.Packs epoch inflight
      side (Function.update on side (on side + 1)) ∧ g'.turned = g.turned := by
  simp only [Gate.enterSide, h.side_eq, h.onSide_eq h.side_lt, Option.ite_none_right_eq_some,
    Option.some.injEq, Prod.mk.injEq] at henter
  obtain ⟨hlt, rfl, rfl⟩ := henter
  have hmask : sideCount = 2 ^ 31 - 1 := rfl
  refine ⟨rfl, h.count h.side_lt (by omega) ?_, rfl⟩
  rw [Nat.mul_add, Nat.mul_one]
  omega

theorem Packs.leaveSide (hk : k < 2) (hpos : 0 < on k) :
    (g.leaveSide k).Packs epoch inflight side (Function.update on k (on k - 1)) := by
  have hlt : on k < 2 ^ 31 := by
    obtain rfl | rfl : k = 0 ∨ k = 1 := by omega
    · exact h.low_lt
    · exact h.high_lt
  have hle : oneOn k * on k ≤ g.sides := by
    have hsides := h.sides_eq
    obtain rfl | rfl : k = 0 ∨ k = 1 := by omega
    · rw [show oneOn 0 = 1 from rfl]
      omega
    · rw [show oneOn 1 = 2 ^ 31 from rfl]
      omega
  refine h.count hk (by omega) ?_
  obtain ⟨n, hn⟩ : ∃ n, on k = n + 1 := ⟨on k - 1, by omega⟩
  rw [hn, Nat.mul_add, Nat.mul_one] at hle ⊢
  rw [Nat.add_sub_cancel]
  omega

theorem Packs.leaveWord (hpos : 0 < inflight) : g.leaveWord.Packs epoch (inflight - 1) side on := by
  have hw := h.word_eq
  have hlt := h.inflight_lt
  refine ⟨?_, by omega, h.sides_eq, h.side_lt, h.low_lt, h.high_lt⟩
  simp only [Gate.leaveWord]
  omega

theorem Packs.turn (e : Nat) : (g.turn e).Packs e inflight side on := by
  refine ⟨?_, h.inflight_lt, h.sides_eq, h.side_lt, h.low_lt, h.high_lt⟩
  rw [Gate.turn]
  simp only [h.inflight_eq]
  rw [Nat.shiftLeft_eq, writerBits, Nat.mul_comm,
    ← Nat.two_pow_add_eq_or_of_lt h.inflight_lt, Nat.mul_comm]

theorem Packs.isClear : g.isClear = true ↔ inflight = 0 := by
  rw [Gate.isClear, h.inflight_eq, decide_eq_true_eq]

theorem Packs.setTurned (turned : Nat) :
    Packs { g with turned } epoch inflight side on :=
  ⟨h.word_eq, h.inflight_lt, h.sides_eq, h.side_lt, h.low_lt, h.high_lt⟩

theorem Packs.flip : g.flip.Packs epoch inflight (1 - side) on := by
  have hr : on 1 * 2 ^ 31 + on 0 < 2 ^ 63 := by
    have hlow := h.low_lt
    have hh := h.high_lt
    omega
  have hs := h.side_lt
  refine ⟨h.word_eq, h.inflight_lt, ?_, by omega, h.low_lt, h.high_lt⟩
  rw [Gate.flip]
  simp only [h.sides_eq]
  rw [Nat.one_shiftLeft, sideBit, xor_two_pow hs hr]

end

end Gate

end RegolithStore
