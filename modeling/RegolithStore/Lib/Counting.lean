import Mathlib.Algebra.GroupWithZero.Nat
import Mathlib.Data.List.Basic

/-! Counting in a list of processes. When one process moves, the count of those in a given
condition changes by what the process itself contributes. -/

namespace RegolithStore.Lib

open List

variable {α : Type*} {p : α → Bool} {l : List α} {i : Nat} {a b : α} {f : α → Nat}

theorem toNat_le_countP (h : a ∈ l) : (p a).toNat ≤ l.countP p := by
  cases hp : p a with
  | false => exact Nat.zero_le _
  | true => exact countP_pos_iff.mpr ⟨a, h, hp⟩

theorem countP_set_add (h : l[i]? = some a) :
    (l.set i b).countP p + (p a).toNat = l.countP p + (p b).toNat := by
  obtain ⟨hi, rfl⟩ := List.getElem?_eq_some_iff.mp h
  have hle : (p l[i]).toNat ≤ l.countP p := toNat_le_countP (getElem_mem hi)
  rw [countP_set hi]
  cases hold : p l[i] <;> cases hnew : p b <;> simp_all

theorem le_sum_map (h : a ∈ l) : f a ≤ (l.map f).sum := by
  obtain ⟨before, after, rfl⟩ := append_of_mem h
  simp only [map_append, map_cons, sum_append, sum_cons]
  omega

theorem sum_map_set_add (h : l[i]? = some a) :
    ((l.set i b).map f).sum + f a = (l.map f).sum + f b := by
  induction l generalizing i with
  | nil => simp at h
  | cons c l ih =>
    cases i with
    | zero =>
      obtain rfl : c = a := by simpa using h
      simp only [set_cons_zero, map_cons, sum_cons]
      omega
    | succ i =>
      have hr := ih (by simpa using h)
      simp only [set_cons_succ, map_cons, sum_cons]
      omega

theorem two_le_countP {j : Nat} (hne : i ≠ j) (hi : l[i]? = some a) (hj : l[j]? = some b)
    (ha : p a = true) (hb : p b = true) : 2 ≤ l.countP p := by
  wlog hij : i < j generalizing i j a b
  · exact this hne.symm hj hi hb ha (by omega)
  have hf : 1 ≤ (l.take j).countP p :=
    countP_pos_iff.mpr ⟨a, mem_of_getElem? ((getElem?_take_of_lt hij).trans hi), ha⟩
  have hr : 1 ≤ (l.drop j).countP p :=
    countP_pos_iff.mpr ⟨b, mem_of_getElem? (i := 0) (getElem?_drop.trans hj), hb⟩
  rw [← take_append_drop j l, countP_append]
  omega

end RegolithStore.Lib
