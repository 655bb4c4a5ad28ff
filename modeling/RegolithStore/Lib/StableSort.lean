import Mathlib.Data.List.Sort
import RegolithStore.Lib.SortedRun

/-! A stable sort by a key rebuilds, from the order in which elements arrived, the list that
placing each of them on arrival built: an element goes after every one whose key is no
larger. Taking elements out commutes with it. -/

namespace RegolithStore.Lib

open List

variable {α β κ : Type*} [LinearOrder κ] (lo : α → κ)

def stableSort (l : List α) : List α := l.insertionSort fun a b => lo a ≤ lo b

variable {lo} {l : List α}

theorem stableSort_cons (a : α) (l : List α) :
    stableSort lo (a :: l) = (stableSort lo l).orderedInsert (fun a b => lo a ≤ lo b) a := rfl

theorem insertRun_cons (x a : α) (l : List α) :
    insertRun lo x (a :: l) = if lo a ≤ lo x then a :: insertRun lo x l else x :: a :: l := by
  rw [insertRun, insertRun, take_partitionPoint, drop_partitionPoint, take_partitionPoint,
    drop_partitionPoint]
  split_ifs with h <;> simp [h]

theorem insertRun_nil (x : α) : insertRun lo x [] = [x] := rfl

theorem orderedInsert_insertRun (a x : α) (l : List α) :
    (insertRun lo x l).orderedInsert (fun a b => lo a ≤ lo b) a =
      insertRun lo x (l.orderedInsert (fun a b => lo a ≤ lo b) a) := by
  induction l with
  | nil =>
    rw [insertRun_nil, orderedInsert_cons, orderedInsert_nil, insertRun_cons, insertRun_nil]
  | cons b l ih =>
    rw [insertRun_cons, orderedInsert_cons]
    by_cases hbx : lo b ≤ lo x <;> by_cases hab : lo a ≤ lo b
    · rw [if_pos hbx, if_pos hab, orderedInsert_cons, if_pos hab, insertRun_cons,
        if_pos (hab.trans hbx), insertRun_cons, if_pos hbx]
    · rw [if_pos hbx, if_neg hab, orderedInsert_cons, if_neg hab, insertRun_cons, if_pos hbx, ih]
    · rw [if_neg hbx, if_pos hab, orderedInsert_cons, orderedInsert_cons, if_pos hab,
        insertRun_cons, insertRun_cons, if_neg hbx]
    · have hax : ¬ lo a ≤ lo x := fun h => hbx ((not_le.mp hab).le.trans h)
      rw [if_neg hbx, if_neg hab, orderedInsert_cons, if_neg hax, orderedInsert_cons,
        if_neg hab, insertRun_cons, if_neg hbx]

theorem stableSort_concat (l : List α) (x : α) :
    stableSort lo (l ++ [x]) = insertRun lo x (stableSort lo l) := by
  induction l with
  | nil => rfl
  | cons a l ih =>
    rw [cons_append, stableSort_cons, ih, orderedInsert_insertRun, stableSort_cons]

theorem pairwise_stableSort (l : List α) : (stableSort lo l).Pairwise fun a b => lo a ≤ lo b := by
  exact pairwise_insertionSort _ l

theorem stableSort_eq_self (h : l.Pairwise fun a b => lo a ≤ lo b) :
    stableSort lo l = l := h.insertionSort_eq

theorem filter_orderedInsert (h : l.Pairwise fun a b => lo a ≤ lo b) (p : α → Bool) (a : α) :
    (l.orderedInsert (fun a b => lo a ≤ lo b) a).filter p =
      if p a then (l.filter p).orderedInsert (fun a b => lo a ≤ lo b) a else l.filter p := by
  induction l with
  | nil => by_cases hp : p a <;> simp [hp]
  | cons b l ih =>
    obtain ⟨hb, hl⟩ := pairwise_cons.mp h
    rw [orderedInsert_cons]
    by_cases hab : lo a ≤ lo b
    · have hfrt : ((b :: l).filter p).orderedInsert (fun a b => lo a ≤ lo b) a =
          a :: (b :: l).filter p := by
        cases hf : (b :: l).filter p with
        | nil => rfl
        | cons c m =>
          have hc : c ∈ b :: l := mem_of_mem_filter (hf ▸ mem_cons_self)
          have hbc : lo b ≤ lo c := by
            rcases mem_cons.mp hc with rfl | hc
            · exact le_rfl
            · exact hb c hc
          rw [orderedInsert_cons, if_pos (hab.trans hbc)]
      rw [if_pos hab, hfrt, filter_cons]
    · rw [if_neg hab]
      by_cases hpb : p b <;> by_cases hpa : p a <;>
        simp [hpb, hpa, hab, ih hl]

theorem stableSort_filter (l : List α) (p : α → Bool) :
    stableSort lo (l.filter p) = (stableSort lo l).filter p := by
  induction l with
  | nil => rfl
  | cons a l ih =>
    rw [stableSort_cons, filter_orderedInsert (pairwise_stableSort l), filter_cons]
    split_ifs with hp
    · rw [stableSort_cons, ih]
    · exact ih

theorem pairwise_stableSort_of_eq {R : α → α → Prop} (h : l.Pairwise R) :
    (stableSort lo l).Pairwise fun a b => lo a = lo b → R a b := by
  have hkey : ∀ k, (stableSort lo l).Pairwise fun a b => lo a = k → lo b = k → R a b := by
    intro k
    have hs : (l.filter fun a => decide (lo a = k)).Pairwise fun a b => lo a ≤ lo b := by
      refine pairwise_filter.mpr (pairwise_of_forall_mem_list fun a _ b _ ha hb => ?_)
      rw [of_decide_eq_true ha, of_decide_eq_true hb]
    have hf := h.filter fun a => decide (lo a = k)
    rw [← stableSort_eq_self hs, stableSort_filter, pairwise_filter] at hf
    exact hf.imp fun hab ha hb => hab (decide_eq_true ha) (decide_eq_true hb)
  rw [pairwise_iff_forall_sublist]
  intro a b hab heq
  exact pairwise_iff_forall_sublist.mp (hkey (lo b)) hab heq rfl

theorem mem_stableSort {a : α} : a ∈ stableSort lo l ↔ a ∈ l :=
  mem_insertionSort _

variable (lo) in
theorem map_insertRun (lo' : β → κ) (f : α → β) (hf : ∀ a, lo' (f a) = lo a) (x : α) (l : List α) :
    (insertRun lo x l).map f = insertRun lo' (f x) (l.map f) := by
  induction l with
  | nil => rfl
  | cons a l ih =>
    rw [insertRun_cons, map_cons, insertRun_cons, hf, hf]
    split_ifs
    · rw [map_cons, ih]
    · rfl

end RegolithStore.Lib
