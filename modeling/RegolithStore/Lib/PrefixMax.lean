import RegolithStore.Lib.SortedRun

/-! Intervals listed by start, with the running maximum of their ends beside them. A search for
the intervals reaching past a bound walks the prefix that starts in time backwards, and stops at
the first running maximum at or below the bound. -/

namespace RegolithStore.Lib

open List

variable {α κ : Type*} [LinearOrder κ] (hi : α → κ) {l : List α} {m b : κ} {a : α}

def prefixMaxFrom : κ → List α → List κ
  | _, [] => []
  | m, a :: l => max m (hi a) :: prefixMaxFrom (max m (hi a)) l

/-- The largest end among each element and those before it. -/
def prefixMax : List α → List κ
  | [] => []
  | a :: l => hi a :: prefixMaxFrom hi (hi a) l

/-- The prefix satisfying `p`, walked backwards while its running maximum is above `b`. -/
def visited (p : α → Bool) (b : κ) (l : List α) : List α :=
  (((l.zip (prefixMax hi l)).take (partitionPoint p l)).reverse.takeWhile
    fun x => decide (b < x.2)).map Prod.fst

theorem length_prefixMaxFrom (m : κ) (l : List α) : (prefixMaxFrom hi m l).length = l.length := by
  induction l generalizing m with
  | nil => rfl
  | cons a l ih => simp [prefixMaxFrom, ih]

theorem length_prefixMax (l : List α) : (prefixMax hi l).length = l.length := by
  cases l with
  | nil => rfl
  | cons a l => simp [prefixMax, length_prefixMaxFrom hi]

variable {hi} {p : α → Bool} {x : α × κ}

theorem le_prefixMaxFrom {c : κ} (h : c ∈ prefixMaxFrom hi m l) : m ≤ c := by
  induction l generalizing m with
  | nil => simp [prefixMaxFrom] at h
  | cons a l ih =>
    rcases mem_cons.mp h with rfl | h
    · exact le_max_left _ _
    · exact (le_max_left _ _).trans (ih h)

variable (hi) in
theorem pairwise_prefixMaxFrom (m : κ) (l : List α) : (prefixMaxFrom hi m l).Pairwise (· ≤ ·) := by
  induction l generalizing m with
  | nil => exact .nil
  | cons a l ih => exact pairwise_cons.mpr ⟨fun c hc => le_prefixMaxFrom hc, ih _⟩

variable (hi) in
theorem pairwise_prefixMax (l : List α) : (prefixMax hi l).Pairwise (· ≤ ·) := by
  cases l with
  | nil => exact .nil
  | cons a l =>
    exact pairwise_cons.mpr ⟨fun c hc => le_prefixMaxFrom hc, pairwise_prefixMaxFrom hi _ _⟩

theorem hi_le_of_mem_zip_prefixMaxFrom (h : x ∈ l.zip (prefixMaxFrom hi m l)) : hi x.1 ≤ x.2 := by
  induction l generalizing m with
  | nil => simp at h
  | cons a l ih =>
    rcases mem_cons.mp h with rfl | h
    · exact le_max_right _ _
    · exact ih h

theorem hi_le_of_mem_zip_prefixMax (h : x ∈ l.zip (prefixMax hi l)) : hi x.1 ≤ x.2 := by
  cases l with
  | nil => simp at h
  | cons a l =>
    rcases mem_cons.mp h with rfl | h
    · exact le_rfl
    · exact hi_le_of_mem_zip_prefixMaxFrom h

variable (hi) in
theorem takeWhile_eq_take_zip (p : α → Bool) (l : List α) :
    ((l.zip (prefixMax hi l)).take (partitionPoint p l)).map Prod.fst = l.takeWhile p := by
  rw [map_take, map_fst_zip (length_prefixMax hi l).ge, take_partitionPoint]

theorem visited_subset (h : a ∈ visited hi p b l) : a ∈ l.takeWhile p := by
  obtain ⟨x, hx, rfl⟩ := mem_map.mp h
  rw [← takeWhile_eq_take_zip hi]
  exact mem_map_of_mem (mem_reverse.mp ((takeWhile_sublist _).subset hx))

/-- The walk misses nothing that satisfies `p` and reaches past the bound. -/
theorem mem_visited (hp : Split p l) (ha : a ∈ l) (hpa : p a)
    (hb : b < hi a) : a ∈ visited hi p b l := by
  have hmem : a ∈ ((l.zip (prefixMax hi l)).take (partitionPoint p l)).map Prod.fst := by
    rw [takeWhile_eq_take_zip]
    exact hp.mem_takeWhile.mpr ⟨ha, hpa⟩
  obtain ⟨x, hx, rfl⟩ := mem_map.mp hmem
  have hsrt : (l.zip (prefixMax hi l)).Pairwise fun x y => x.2 ≤ y.2 := by
    have h := pairwise_prefixMax hi l
    rw [← map_snd_zip (length_prefixMax hi l).le, pairwise_map] at h
    exact h
  have hs : Split (fun y : α × κ => decide (b < y.2))
      ((l.zip (prefixMax hi l)).take (partitionPoint p l)).reverse :=
    pairwise_reverse.mpr ((hsrt.sublist (take_sublist _ _)).imp
      fun hxy => by simpa using fun h => lt_of_lt_of_le h hxy)
  refine mem_map_of_mem (hs.mem_takeWhile.mpr ⟨mem_reverse.mpr hx, ?_⟩)
  simpa using hb.trans_le (hi_le_of_mem_zip_prefixMax (mem_of_mem_take hx))

end RegolithStore.Lib
