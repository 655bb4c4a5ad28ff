import Mathlib.Data.Nat.Bitwise
import Mathlib.Order.MinMax
import Mathlib.Tactic.Common

/-! A Fenwick tree of running maxima. Slot `i` keeps the greatest value put at a place of its
span, which ends at `i` and starts where the trailing ones of `i` are cleared. A value is put
into every slot whose span holds its place, by filling the lowest zero of the slot until the
tree ends; the greatest value below a bound is gathered from spans that follow each other
down from the bound. -/

namespace RegolithStore.Lib.Fenwick

open List

variable {κ : Type*} [LinearOrder κ] {most : List (Option κ)} {added : List (Nat × κ)}
  {place turns bound : Nat}

def Spans (slot place : Nat) : Prop := slot &&& (slot + 1) ≤ place ∧ place ≤ slot

theorem spans_self (slot : Nat) : Spans slot slot := ⟨Nat.and_le_left, Nat.le_refl slot⟩

private theorem and_succ_even (m : Nat) : 2 * m &&& (2 * m + 1) = 2 * m := by
  simpa [Nat.bit_val] using Nat.land_bit false m true m

private theorem and_succ_odd (m : Nat) : (2 * m + 1) &&& (2 * m + 1 + 1) = 2 * (m &&& (m + 1)) := by
  simpa [Nat.bit_val, Nat.mul_add] using Nat.land_bit true m false (m + 1)

private theorem or_succ_even (m : Nat) : 2 * m ||| (2 * m + 1) = 2 * m + 1 := by
  simpa [Nat.bit_val] using Nat.lor_bit false m true m

private theorem or_succ_odd (m : Nat) :
    (2 * m + 1) ||| (2 * m + 1 + 1) = 2 * (m ||| (m + 1)) + 1 := by
  simpa [Nat.bit_val, Nat.mul_add] using Nat.lor_bit true m false (m + 1)

/-- Filling the lowest zero of a place stays in the spans that go on past it, and enters no
other. -/
theorem spans_fill_iff {slot : Nat} (h : place ≠ slot) :
    Spans slot (place ||| (place + 1)) ↔ Spans slot place := by
  -- both numbers are halved; an even slot has only itself in its span
  induction slot using Nat.strongRecOn generalizing place with
  | ind slot ih =>
    simp only [Spans] at ih ⊢
    obtain ⟨m, rfl | rfl⟩ : ∃ m, slot = 2 * m ∨ slot = 2 * m + 1 := ⟨slot / 2, by omega⟩
    · obtain ⟨s, rfl | rfl⟩ : ∃ s, place = 2 * s ∨ place = 2 * s + 1 := ⟨place / 2, by omega⟩
      · rw [and_succ_even, or_succ_even]
        omega
      · rw [and_succ_even, or_succ_odd]
        omega
    · obtain ⟨s, rfl | rfl⟩ : ∃ s, place = 2 * s ∨ place = 2 * s + 1 := ⟨place / 2, by omega⟩
      · rw [and_succ_odd, or_succ_even]
        omega
      · have hhalf := @ih m (by omega) s (by omega)
        rw [and_succ_odd, or_succ_odd]
        omega

theorem lt_fill (place : Nat) : place < place ||| (place + 1) := Nat.right_le_or

def raised (v : κ) : Option κ → Option κ
  | none => some v
  | some most => if most < v then some v else some most

def addFrom (v : κ) : Nat → Nat → List (Option κ) → List (Option κ)
  | 0, _, most => most
  | turns + 1, slot, most =>
    if slot < most.length then addFrom v turns (slot ||| (slot + 1)) (most.modify slot (raised v))
    else most

def add (most : List (Option κ)) (place : Nat) (v : κ) : List (Option κ) :=
  addFrom v most.length place most

def gather (most : List (Option κ)) : Nat → Nat → Option κ → Option κ
  | 0, _, best => best
  | turns + 1, bound, best =>
    if 0 < bound then
      gather most turns ((bound - 1) &&& (bound - 1 + 1)) (max best (most.getD (bound - 1) none))
    else best

def greatest (most : List (Option κ)) (bound : Nat) : Option κ := gather most bound bound none

def Reaches (q : κ) (best : Option κ) : Prop := ∃ v, best = some v ∧ q ≤ v

variable {q v : κ}

@[simp] theorem not_reaches_none : ¬ Reaches q none := by
  rintro ⟨v, hv, -⟩
  cases hv

@[simp] theorem reaches_some : Reaches q (some v) ↔ q ≤ v :=
  ⟨fun ⟨_, hv, h⟩ => Option.some.inj hv ▸ h, fun h => ⟨v, rfl, h⟩⟩

theorem reaches_raised {slot : Option κ} : Reaches q (raised v slot) ↔ Reaches q slot ∨ q ≤ v := by
  cases slot with
  | none => simp [raised]
  | some most =>
    rw [raised]
    split_ifs with h
    · rw [reaches_some, reaches_some]
      exact ⟨.inr, fun hq => hq.elim (fun hq => hq.trans h.le) id⟩
    · rw [reaches_some]
      exact ⟨.inl, fun hq => hq.elim id fun hq => hq.trans (not_lt.mp h)⟩

theorem reaches_max {a b : Option κ} : Reaches q (max a b) ↔ Reaches q a ∨ Reaches q b := by
  cases a with
  | none => simp
  | some x =>
    cases b with
    | none => simp
    | some y =>
      rw [Option.max_some_some, reaches_some, reaches_some, reaches_some]
      exact le_max_iff

theorem length_addFrom (turns slot : Nat) (most : List (Option κ)) :
    (addFrom v turns slot most).length = most.length := by
  induction turns generalizing slot most with
  | zero => rfl
  | succ turns ih =>
    rw [addFrom]
    split_ifs
    · rw [ih, length_modify]
    · rfl

@[simp] theorem length_add (most : List (Option κ)) (place : Nat) (v : κ) :
    (add most place v).length = most.length := length_addFrom _ _ _

theorem reaches_addFrom {i : Nat} (ht : most.length ≤ place + turns)
    (hi : i < most.length) : Reaches q ((addFrom v turns place most).getD i none) ↔
      Reaches q (most.getD i none) ∨ Spans i place ∧ q ≤ v := by
  induction turns generalizing place most with
  | zero =>
    have hnot : ¬ Spans i place := fun h => by
      have := h.2
      omega
    simp [addFrom, hnot]
  | succ turns ih =>
    rw [addFrom]
    split_ifs with hlt
    · have hfill := lt_fill place
      rw [ih (by rw [length_modify]; omega) (by rwa [length_modify])]
      rcases eq_or_ne place i with rfl | hne
      · have hnot : ¬ Spans place (place ||| (place + 1)) := fun h => by
          have := h.2
          omega
        have hget : (most.modify place (raised v)).getD place none =
            raised v (most.getD place none) := by
          simp [getD_eq_getElem?_getD, getElem?_eq_getElem hi]
        rw [hget, reaches_raised]
        simp [hnot, spans_self]
      · have hget : (most.modify place (raised v)).getD i none = most.getD i none := by
          simp [getD_eq_getElem?_getD, hne]
        rw [hget, spans_fill_iff hne]
    · have hnot : ¬ Spans i place := fun h => by
        have := h.2
        omega
      simp [hnot]

/-- Every slot holds the greatest of the values put into its span. -/
def Holds (most : List (Option κ)) (added : List (Nat × κ)) : Prop :=
  ∀ i, i < most.length → ∀ q, Reaches q (most.getD i none) ↔ ∃ p ∈ added, Spans i p.1 ∧ q ≤ p.2

theorem holds_empty (n : Nat) : Holds (List.replicate n (none : Option κ)) [] := by
  intro i _ q
  simp [getD_eq_getElem?_getD]

theorem Holds.add (h : Holds most added) (place : Nat) (v : κ) :
    Holds (add most place v) ((place, v) :: added) := by
  intro i hi q
  rw [length_add] at hi
  rw [Fenwick.add, reaches_addFrom (Nat.le_add_left _ _) hi, h i hi q]
  simp [or_comm]

/-- The spans gathered are everything below the bound. -/
theorem Holds.reaches_gather (h : Holds most added) (ht : bound ≤ turns)
    (hbnd : bound ≤ most.length) {best : Option κ} : Reaches q (gather most turns bound best) ↔
      Reaches q best ∨ ∃ p ∈ added, p.1 < bound ∧ q ≤ p.2 := by
  induction turns generalizing bound best with
  | zero =>
    obtain rfl : bound = 0 := by omega
    simp [gather]
  | succ turns ih =>
    rw [gather]
    split_ifs with hpos
    · obtain ⟨slot, rfl⟩ : ∃ slot, bound = slot + 1 := ⟨bound - 1, by omega⟩
      rw [Nat.add_sub_cancel]
      have hand : slot &&& (slot + 1) ≤ slot := Nat.and_le_left
      rw [ih (by omega) (by omega), reaches_max, h slot (by omega) q, or_assoc]
      refine or_congr_right ?_
      -- the span of the slot, and what lies below it
      constructor
      · rintro (⟨p, hp, hs, hq⟩ | ⟨p, hp, hlt, hq⟩)
        · exact ⟨p, hp, Nat.lt_succ_of_le hs.2, hq⟩
        · exact ⟨p, hp, by omega, hq⟩
      · rintro ⟨p, hp, hlt, hq⟩
        rcases Nat.lt_or_ge p.1 (slot &&& (slot + 1)) with hb | hin
        · exact .inr ⟨p, hp, hb, hq⟩
        · exact .inl ⟨p, hp, ⟨hin, by omega⟩, hq⟩
    · obtain rfl : bound = 0 := by omega
      simp

/-- The greatest value below a bound is that of the values put there. -/
theorem Holds.reaches_greatest (h : Holds most added) (hb : bound ≤ most.length) :
    Reaches q (greatest most bound) ↔ ∃ p ∈ added, p.1 < bound ∧ q ≤ p.2 := by
  rw [greatest, h.reaches_gather (Nat.le_refl bound) hb]
  simp

end RegolithStore.Lib.Fenwick
