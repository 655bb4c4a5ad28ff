import Mathlib.Data.List.Chain
import Mathlib.Order.Basic
import Mathlib.Tactic.Order

/-! Lists of closed intervals kept as one sorted run: each interval ends at or before the start of
every later one. A binary search over a list is its partition point, whenever the list is split by
the predicate at all. An element is placed after every one that starts no later, and the members
meeting a closed range are one contiguous stretch of the run. -/

namespace RegolithStore.Lib

open List

variable {α κ : Type*} [LinearOrder κ] {l xs : List α} {p : α → Bool} {a x : α}

theorem mem_drop_range {i m n : Nat} : i ∈ (List.range n).drop m ↔ m ≤ i ∧ i < n := by
  rw [range_eq_range', drop_range', mem_range'_1]
  omega

/-- The length of the prefix satisfying `p`: what a binary search for the first
element refusing `p` returns on a list that `p` splits. -/
def partitionPoint (p : α → Bool) (l : List α) : Nat := (l.takeWhile p).length

theorem take_partitionPoint (p : α → Bool) (l : List α) :
    l.take (partitionPoint p l) = l.takeWhile p := by
  induction l with
  | nil => rfl
  | cons a l ih => by_cases h : p a <;> simp_all [partitionPoint]

theorem drop_partitionPoint (p : α → Bool) (l : List α) :
    l.drop (partitionPoint p l) = l.dropWhile p := by
  induction l with
  | nil => rfl
  | cons a l ih => by_cases h : p a <;> simp_all [partitionPoint]

/-- The list is split by `p`: once an element refuses it, so does every later one. -/
def Split (p : α → Bool) (l : List α) : Prop := l.Pairwise fun a b => p b → p a

variable (h : Split p l)

include h

theorem Split.takeWhile_eq_filter : l.takeWhile p = l.filter p := by
  induction l with
  | nil => rfl
  | cons a l ih =>
    obtain ⟨ha, hl⟩ := pairwise_cons.mp h
    by_cases hp : p a
    · rw [takeWhile_cons_of_pos hp, filter_cons_of_pos hp, ih hl]
    · rw [takeWhile_cons_of_neg hp, filter_cons_of_neg hp, eq_comm, filter_eq_nil_iff]
      exact fun b hb hpb => hp (ha b hb hpb)

theorem Split.dropWhile_eq_filter : l.dropWhile p = l.filter fun a => !p a := by
  induction l with
  | nil => rfl
  | cons a l ih =>
    obtain ⟨ha, hl⟩ := pairwise_cons.mp h
    by_cases hp : p a
    · rw [dropWhile_cons_of_pos hp, filter_cons_of_neg (by simp [hp]), ih hl]
    · rw [dropWhile_cons_of_neg hp, filter_cons_of_pos (by simp [hp]),
        filter_eq_self.mpr fun b hb => by simpa using fun hpb => hp (ha b hb hpb)]

theorem Split.filter_append_filter : l.filter p ++ l.filter (fun a => !p a) = l := by
  rw [← h.takeWhile_eq_filter, ← h.dropWhile_eq_filter, takeWhile_append_dropWhile]

theorem Split.mem_takeWhile : a ∈ l.takeWhile p ↔ a ∈ l ∧ p a := by
  rw [h.takeWhile_eq_filter, mem_filter]

theorem Split.mem_dropWhile : a ∈ l.dropWhile p ↔ a ∈ l ∧ p a = false := by
  rw [h.dropWhile_eq_filter, mem_filter, Bool.not_eq_true']

theorem Split.lt_partitionPoint {i : Nat} (ha : l[i]? = some a) : i < partitionPoint p l ↔ p a := by
  constructor
  · intro hlt
    have hmem := mem_of_getElem? ((getElem?_take_of_lt hlt).trans ha)
    rw [take_partitionPoint] at hmem
    exact (h.mem_takeWhile.mp hmem).2
  · intro hpa
    by_contra hge
    have hmem : a ∈ l.drop (partitionPoint p l) := by
      refine mem_of_getElem? (i := i - partitionPoint p l) ?_
      rwa [getElem?_drop, Nat.add_sub_cancel' (not_lt.mp hge)]
    rw [drop_partitionPoint, h.mem_dropWhile, hpa] at hmem
    cases hmem.2

omit h

theorem pairwise_either {R : α → α → Prop} (h : l.Pairwise R) {a b : α} (ha : a ∈ l) (hb : b ∈ l) :
    a = b ∨ R a b ∨ R b a := by
  have hor : l.Pairwise fun a b => R a b ∨ R b a := h.imp Or.inl
  have : Std.Symm fun a b => R a b ∨ R b a := ⟨fun _ _ => Or.symm⟩
  exact or_iff_not_imp_left.mpr (hor.forall ha hb)

section Run

variable (lo hi : α → κ)

/-- Each interval ends at or before every later one begins. -/
def SortedRun (l : List α) : Prop := l.Pairwise fun a b => hi a ≤ lo b

/-- Place `x` after every member that starts no later than it does. -/
def insertRun (x : α) (l : List α) : List α :=
  let at_ := partitionPoint (fun a => decide (lo a ≤ lo x)) l
  l.take at_ ++ x :: l.drop at_

/-- `x` lies apart from `a`: it starts no earlier than `a` ends, or it ends no
later than `a` starts and starts strictly before it. -/
def Apart (x a : α) : Prop := hi a ≤ lo x ∨ (hi x ≤ lo a ∧ lo x < lo a)

variable {lo hi}

theorem insertRun_perm (x : α) (l : List α) : (insertRun lo x l).Perm (x :: l) := by
  exact perm_middle.trans (by rw [take_append_drop])

@[simp] theorem mem_insertRun {a : α} : a ∈ insertRun lo x l ↔ a = x ∨ a ∈ l := by
  rw [(insertRun_perm x l).mem_iff, mem_cons]

theorem SortedRun.sublist {l l' : List α} (h : SortedRun lo hi l) (hs : l'.Sublist l) :
    SortedRun lo hi l' := List.Pairwise.sublist hs h

variable {l : List α} (hl : ∀ a ∈ l, lo a ≤ hi a)

include hl in
theorem SortedRun.pairwise_lo (h : SortedRun lo hi l) : l.Pairwise fun a b => lo a ≤ lo b :=
  h.imp_of_mem fun ha _ hab => (hl _ ha).trans hab

include hl in
theorem SortedRun.pairwise_hi (h : SortedRun lo hi l) : l.Pairwise fun a b => hi a ≤ hi b :=
  h.imp_of_mem fun _ hb hab => hab.trans (hl _ hb)

theorem split_lo_le (h : l.Pairwise fun a b => lo a ≤ lo b) (k : κ) :
    Split (fun a => decide (lo a ≤ k)) l :=
  h.imp fun hab => by simpa using fun hb => hab.trans hb

include hl in
/-- Placing an interval that lies apart keeps the run sorted. -/
theorem SortedRun.insertRun (h : SortedRun lo hi l) (hx : lo x ≤ hi x)
    (hap : ∀ a ∈ l, Apart lo hi x a) : SortedRun lo hi (insertRun lo x l) := by
  have hs := split_lo_le (h.pairwise_lo hl) (lo x)
  rw [Lib.insertRun, take_partitionPoint, drop_partitionPoint]
  refine pairwise_append.mpr ⟨h.sublist (takeWhile_sublist _), ?_, ?_⟩
  · refine pairwise_cons.mpr ⟨fun b hb => ?_, h.sublist (dropWhile_sublist _)⟩
    obtain ⟨hbl, hlt⟩ := hs.mem_dropWhile.mp hb
    have hlt : lo x < lo b := by simpa using hlt
    rcases hap b hbl with hbx | ⟨hxb, -⟩
    · exact absurd ((hl b hbl).trans hbx) hlt.not_ge
    · exact hxb
  · intro a ha b hb
    obtain ⟨hal, hle⟩ := hs.mem_takeWhile.mp ha
    have hle : lo a ≤ lo x := by simpa using hle
    have hax : hi a ≤ lo x := by
      rcases hap a hal with hax | ⟨-, hxa⟩
      · exact hax
      · exact absurd hle hxa.not_ge
    rcases mem_cons.mp hb with rfl | hb
    · exact hax
    · obtain ⟨-, hlt⟩ := hs.mem_dropWhile.mp hb
      exact hax.trans (le_of_lt (by simpa using hlt))

theorem foldl_insertRun_perm (xs l : List α) :
    (xs.foldl (fun run x => Lib.insertRun lo x run) l).Perm (xs ++ l) := by
  induction xs generalizing l with
  | nil => exact .refl _
  | cons x xs ih =>
    exact (ih _).trans ((List.Perm.append_left xs (insertRun_perm x l)).trans perm_middle)

theorem SortedRun.foldl_insertRun {l : List α} (hl : ∀ a ∈ l, lo a ≤ hi a)
    (h : SortedRun lo hi l) (hxs : ∀ x ∈ xs, lo x ≤ hi x) (hap : ∀ x ∈ xs, ∀ a ∈ l, Apart lo hi x a)
    (hpw : xs.Pairwise fun a x => Apart lo hi x a) : SortedRun lo hi
    (xs.foldl (fun run x => Lib.insertRun lo x run) l) := by
  induction xs generalizing l with
  | nil => exact h
  | cons x xs ih =>
    obtain ⟨hx, hpw⟩ := pairwise_cons.mp hpw
    rw [forall_mem_cons] at hxs hap
    refine ih ?_ (h.insertRun hl hxs.1 hap.1) hxs.2 ?_ hpw
    · intro a ha
      rcases mem_insertRun.mp ha with rfl | ha
      · exact hxs.1
      · exact hl a ha
    · intro y hy a ha
      rcases mem_insertRun.mp ha with rfl | ha
      · exact hx y hy
      · exact hap.2 y hy a ha

/-- The members of `l` meeting the closed range `[first, last]`, by two searches. -/
def meeting (lo hi : α → κ) (l : List α) (first last : κ) : List α :=
  let rest := l.drop (partitionPoint (fun a => decide (hi a < first)) l)
  rest.take (partitionPoint (fun a => decide (lo a ≤ last)) rest)

theorem meeting_sublist (first last : κ) : (meeting lo hi l first last).Sublist l :=
  (take_sublist _ _).trans (drop_sublist _ _)

include hl in
theorem SortedRun.meeting_eq_filter (h : SortedRun lo hi l) (first last : κ) :
    meeting lo hi l first last = l.filter fun a => decide (first ≤ hi a) && decide (lo a ≤ last) := by
  have hs : Split (fun a => decide (hi a < first)) l :=
    (h.pairwise_hi hl).imp fun hab => by simpa using fun hb => hab.trans_lt hb
  have hr := split_lo_le ((h.pairwise_lo hl).sublist (drop_sublist
    (partitionPoint (fun a => decide (hi a < first)) l) l)) last
  rw [meeting, take_partitionPoint, hr.takeWhile_eq_filter, drop_partitionPoint,
    hs.dropWhile_eq_filter, filter_filter]
  congr 1
  funext a
  rw [Bool.and_comm, ← decide_not]
  simp

include hl in
theorem SortedRun.mem_meeting (h : SortedRun lo hi l) {first last : κ} :
    a ∈ meeting lo hi l first last ↔ a ∈ l ∧ first ≤ hi a ∧ lo a ≤ last := by
  rw [h.meeting_eq_filter hl, mem_filter, Bool.and_eq_true, decide_eq_true_eq, decide_eq_true_eq]

end Run

/-- The first two neighbours of `l` that `p` holds of. -/
def findNeighbours (p : α → α → Bool) : List α → Option (α × α)
  | a :: b :: l => if p a b then some (a, b) else findNeighbours p (b :: l)
  | _ => none

theorem findNeighbours_eq_none {p : α → α → Bool} :
    findNeighbours p l = none ↔ l.IsChain fun a b => p a b = false := by
  induction l with
  | nil => simp [findNeighbours]
  | cons a l ih =>
    cases l with
    | nil => simp [findNeighbours]
    | cons b l => by_cases h : p a b <;> simp [findNeighbours, h, ih]

/-- The first two neighbours of which the left ends past the right's start. -/
def findOverlapping (lo hi : α → κ) (l : List α) : Option (α × α) :=
  findNeighbours (fun a b => decide (lo b < hi a)) l

theorem findOverlapping_map_eq_none {β : Type*} (f : α → β) (lo' hi' : β → κ) (l : List α) :
    findOverlapping lo' hi' (l.map f) = none ↔
      findOverlapping (fun a => lo' (f a)) (fun a => hi' (f a)) l = none := by
  rw [findOverlapping, findOverlapping, findNeighbours_eq_none, findNeighbours_eq_none, isChain_map]

/-- Where every interval starts no later than it ends, only neighbours need be compared. -/
theorem findOverlapping_eq_none {lo hi : α → κ} (hl : ∀ a ∈ l, lo a ≤ hi a) :
    findOverlapping lo hi l = none ↔ SortedRun lo hi l := by
  rw [findOverlapping, findNeighbours_eq_none, Iff.comm]
  refine ⟨fun h => (List.Pairwise.isChain h).imp fun _ _ hab => by simpa using hab, fun h => ?_⟩
  induction l with
  | nil => exact .nil
  | cons a l ih =>
    have hrun : SortedRun lo hi l := ih (fun b hb => hl b (.tail _ hb)) (isChain_of_isChain_cons h)
    refine pairwise_cons.mpr ⟨fun c hc => ?_, hrun⟩
    cases l with
    | nil => simp at hc
    | cons b l =>
      have hab : hi a ≤ lo b := by simpa using (isChain_cons_cons.mp h).1
      rcases mem_cons.mp hc with rfl | hcl
      · exact hab
      · exact (hab.trans (hl b (by simp))).trans ((pairwise_cons.mp hrun).1 c hcl)

end RegolithStore.Lib
