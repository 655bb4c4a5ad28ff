import Mathlib.Data.List.Nodup
import Mathlib.Tactic.Common

/-! A family of lists laid out as one, each element with the index of the list it comes
from. The lists are read back from it by filtering on the index, and what is distinct
within each list and across them is distinct in the whole. -/

namespace RegolithStore.Lib

open List

variable {α β : Type*} (xs : Nat → List α) {n : Nat}

def leveled (n : Nat) : List (Nat × α) :=
  (List.range n).flatMap fun i => (xs i).map fun a => (i, a)

theorem leveled_succ (n : Nat) :
    leveled xs (n + 1) = leveled xs n ++ (xs n).map fun a => (n, a) := by
  simp [leveled, range_succ]

theorem mem_leveled {xs : Nat → List α} {p : Nat × α} :
    p ∈ leveled xs n ↔ p.1 < n ∧ p.2 ∈ xs p.1 := by
  simp only [leveled, mem_flatMap, mem_range, mem_map]
  constructor
  · rintro ⟨i, hi, a, ha, rfl⟩
    exact ⟨hi, ha⟩
  · intro ⟨hp, ha⟩
    exact ⟨p.1, hp, p.2, ha, rfl⟩

theorem leveled_map (f : α → β) (xs : Nat → List α) (n : Nat) :
    (leveled xs n).map (fun p => (p.1, f p.2)) = leveled (fun i => (xs i).map f) n := by
  induction n with
  | zero => rfl
  | succ n ih => simp [leveled_succ, ih]

theorem leveled_congr {xs ys : Nat → List α} (h : ∀ i, i < n → xs i = ys i) :
    leveled xs n = leveled ys n := by
  induction n with
  | zero => rfl
  | succ n ih =>
    rw [leveled_succ, leveled_succ, ih fun i hi => h i (by omega), h n (by omega)]

theorem filter_leveled (n i : Nat) :
    ((leveled xs n).filter fun p => p.1 = i).map Prod.snd = if i < n then xs i else [] := by
  induction n with
  | zero => rfl
  | succ n ih =>
    rw [leveled_succ, filter_append, map_append, ih, filter_map]
    rcases Nat.lt_trichotomy i n with hi | rfl | hi
    · simp [hi, Nat.ne_of_gt hi, Function.comp_def, Nat.lt_succ_of_lt hi]
    · simp [Function.comp_def]
    · simp [Nat.ne_of_lt hi, Function.comp_def, show ¬ i < n by omega, show ¬ i < n + 1 by omega]

theorem nodup_leveled {f : α → β} {xs : Nat → List α} (hin : ∀ i, ((xs i).map f).Nodup)
    (hout : ∀ i j a b, a ∈ xs i → b ∈ xs j → f a = f b → i = j) (n : Nat) :
    ((leveled xs n).map fun p => f p.2).Nodup := by
  induction n with
  | zero => exact nodup_nil
  | succ n ih =>
    rw [leveled_succ, map_append, nodup_append']
    refine ⟨ih, by simpa [Function.comp_def] using hin n, ?_⟩
    intro b hb hb'
    obtain ⟨p, hp, rfl⟩ := mem_map.mp hb
    obtain ⟨q, hq, heq⟩ := mem_map.mp hb'
    obtain ⟨a, ha, rfl⟩ := mem_map.mp hq
    obtain ⟨hlt, hmem⟩ := mem_leveled.mp hp
    have := hout n p.1 a p.2 ha hmem heq
    omega

end RegolithStore.Lib
