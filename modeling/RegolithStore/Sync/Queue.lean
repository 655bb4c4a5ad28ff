import Mathlib.Data.Nat.Bitwise

/-! The state word of the wait queue that the synchronization primitives share. Its low six
bits are the queue's own; the primitive keeps its count above them. Every update that the
queue makes lowers some of its bits and raises others, and leaves the count as it was. -/

namespace RegolithStore.Sync

def draining : Nat := 1
def dirty : Nat := 2
def queued : Nat := 4
def nudgeOut : Nat := 8
def handoff : Nat := 16
def wakeFront : Nat := 32

def up (flag word : Nat) : Bool := word &&& flag != 0

variable (word : Nat)

def setFlags (flags : Nat × Nat) : Nat := word - (word &&& flags.1) ||| flags.2

/-- What a transition that asks for a pass raises: the role, or the holder's dirty bit. -/
def drainFlag : Nat := if up draining word then dirty else draining

/-- What a transition that leaves a release's request raises beside it. -/
def wakeFlag : Nat := if up draining word then 0 else draining

/-- The updates that the queue makes to its own bits, each one atomic. -/
inductive Mark
  | enqueue
  | released
  | withdrawn (woken : Bool)
  | owe
  | again
  | raiseNudge
  | consumeNudge
  | passBegins
  -- what the pass found: nobody queued, nobody owed a handoff
  | passEnds (nobodyQueued nobodyOwed : Bool)
  deriving DecidableEq

def Mark.flags : Mark → Nat × Nat
  | .enqueue => (0, queued ||| drainFlag word)
  | .released => (0, wakeFront ||| wakeFlag word)
  | .withdrawn woken => (nudgeOut, (if woken then wakeFront else 0) ||| drainFlag word)
  | .owe => (0, handoff ||| drainFlag word)
  | .again => (0, drainFlag word)
  | .raiseNudge => (0, nudgeOut)
  | .consumeNudge => (nudgeOut, 0)
  | .passBegins => (dirty ||| wakeFront, 0)
  | .passEnds nobodyQueued nobodyOwed =>
    (draining ||| (if nobodyQueued then queued ||| wakeFront else 0) |||
      if nobodyOwed then handoff else 0, 0)

/-- A pass ends only when nothing new came; a request made of a pass that found nobody queued
is dropped. -/
def Mark.enabled : Mark → Bool
  | .owe => !up handoff word
  | .passEnds nobodyQueued _ => !up (dirty ||| if nobodyQueued then 0 else wakeFront) word
  | _ => true

variable {word word' flags : Nat}

theorem or_div_flags (h : flags < 64) : (word ||| flags) / 64 = word / 64 := by
  have hshift := Nat.shiftRight_or_distrib (a := word) (b := flags) (i := 6)
  rwa [Nat.shiftRight_eq_div_pow, Nat.shiftRight_eq_div_pow, Nat.shiftRight_eq_div_pow,
    Nat.div_eq_of_lt h, Nat.or_zero] at hshift

theorem or_mod_flags (h : word' % 64 = word % 64) :
    (word' ||| flags) % 64 = (word ||| flags) % 64 := by
  have hmod (n : Nat) : (n ||| flags) % 2 ^ 6 = n % 2 ^ 6 ||| flags % 2 ^ 6 := Nat.or_mod_two_pow
  exact (hmod word').trans ((congrArg (· ||| flags % 2 ^ 6) h).trans (hmod word).symm)

theorem lower_div_flags (h : flags < 64) : (word - (word &&& flags)) / 64 = word / 64 := by
  have hmod : (word &&& flags) % 2 ^ 6 = word % 2 ^ 6 &&& flags % 2 ^ 6 := Nat.and_mod_two_pow
  have hle : (word &&& flags) % 2 ^ 6 ≤ word % 2 ^ 6 := hmod ▸ Nat.and_le_left
  have hlt : word &&& flags ≤ flags := Nat.and_le_right
  omega

theorem Mark.flags_lt (m : Mark) : (m.flags word).1 < 64 ∧ (m.flags word).2 < 64 := by
  cases m <;> simp only [Mark.flags, drainFlag, wakeFlag] <;> (repeat' split) <;> decide

theorem Mark.setFlags_div (m : Mark) : setFlags word (m.flags word) / 64 = word / 64 :=
  (or_div_flags m.flags_lt.2).trans (lower_div_flags m.flags_lt.1)

end RegolithStore.Sync
