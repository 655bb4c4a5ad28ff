import Mathlib.Data.List.Sort

/-! Merging sorted streams, and dropping repeats as they go by. The merge pops the
least head among the streams, the earliest stream on a tie, until all are empty; it
permutes what the streams hold and comes out sorted when each of them is. A repeat
is dropped when it is the same as the last element kept. -/

namespace RegolithStore.Lib

open List Option

variable {α : Type*} {n : Nat}

/-- Pop the least head under the strict order `lt`, the earliest stream's on a tie. -/
def popLeast (lt : α → α → Bool) : List (List α) → Option (α × List (List α))
  | [] => none
  | [] :: ss => (popLeast lt ss).map fun p => (p.1, [] :: p.2)
  | (a :: s) :: ss =>
    match popLeast lt ss with
    | none => some (a, s :: ss)
    | some (b, ss') => if lt b a then some (b, (a :: s) :: ss') else some (a, s :: ss)

def mergeSteps (lt : α → α → Bool) : Nat → List (List α) → List α
  | 0, _ => []
  | n + 1, ss =>
    match popLeast lt ss with
    | none => []
    | some (a, ss') => a :: mergeSteps lt n ss'

def mergeStreams (lt : α → α → Bool) (ss : List (List α)) : List α :=
  mergeSteps lt ss.flatten.length ss

variable {lt : α → α → Bool} {ss ss' : List (List α)} {l : List α} {a : α}

theorem popLeast_eq_none {ss : List (List α)} : popLeast lt ss = none ↔ ss.flatten = [] := by
  induction ss with
  | nil => simp [popLeast]
  | cons s ss ih =>
    cases s with
    | nil => simp [popLeast, ih]
    | cons a s =>
      simp only [popLeast]
      cases popLeast lt ss with
      | none => simp
      | some p => by_cases h : lt p.1 a <;> simp [h]

theorem popLeast_cons_cases {c a : α} {s : List α}
    (h : popLeast lt ((c :: s) :: ss) = some (a, ss')) :
    (a = c ∧ ss' = s :: ss ∧ ∀ p, popLeast lt ss = some p → lt p.1 c = false) ∨ ∃ ts, popLeast lt ss
      = some (a, ts) ∧ lt a c ∧ ss' = (c :: s) :: ts := by
  simp only [popLeast] at h
  cases hp : popLeast lt ss with
  | none =>
    simp only [hp, some.injEq, Prod.mk.injEq] at h
    exact .inl ⟨h.1.symm, h.2.symm, by simp⟩
  | some p =>
    simp only [hp] at h
    split_ifs at h with hpc
    · simp only [some.injEq, Prod.mk.injEq] at h
      exact .inr ⟨p.2, by rw [← h.1], h.1 ▸ hpc, h.2.symm⟩
    · simp only [some.injEq, Prod.mk.injEq] at h
      refine .inl ⟨h.1.symm, h.2.symm, fun q hq => ?_⟩
      rw [← some.inj hq]
      simpa using hpc

theorem popLeast_nil_cases (h : popLeast lt ([] :: ss) = some (a, ss')) :
    ∃ ts, popLeast lt ss = some (a, ts) ∧ ss' = [] :: ts := by
  simp only [popLeast, map_eq_some_iff, Prod.mk.injEq] at h
  obtain ⟨p, hp, rfl, rfl⟩ := h
  exact ⟨p.2, hp, rfl⟩

theorem popLeast_perm (h : popLeast lt ss = some (a, ss')) :
    ss.flatten.Perm (a :: ss'.flatten) := by
  induction ss generalizing ss' a with
  | nil => simp [popLeast] at h
  | cons s ss ih =>
    cases s with
    | nil =>
      obtain ⟨ts, hp, rfl⟩ := popLeast_nil_cases h
      simpa using ih hp
    | cons c s =>
      rcases popLeast_cons_cases h with ⟨rfl, rfl, -⟩ | ⟨ts, hp, -, rfl⟩
      · simp
      · simpa using ((ih hp).append_left (c :: s)).trans perm_middle

theorem popLeast_sublists (h : popLeast lt ss = some (a, ss')) {P : List α → Prop}
    (hP : ∀ c s, P (c :: s) → P s) (hs : ∀ s ∈ ss, P s) : ∀ s ∈ ss', P s := by
  induction ss generalizing ss' a with
  | nil => simp [popLeast] at h
  | cons s ss ih =>
    rw [forall_mem_cons] at hs
    cases s with
    | nil =>
      obtain ⟨ts, hp, rfl⟩ := popLeast_nil_cases h
      exact forall_mem_cons.mpr ⟨hs.1, ih hp hs.2⟩
    | cons c s =>
      rcases popLeast_cons_cases h with ⟨-, rfl, -⟩ | ⟨ts, hp, -, rfl⟩
      · exact forall_mem_cons.mpr ⟨hP c s hs.1, hs.2⟩
      · exact forall_mem_cons.mpr ⟨hs.1, ih hp hs.2⟩

/-- The order a merge needs: a strict order whose incomparable pairs are ties. -/
structure StrictWeak (lt : α → α → Bool) : Prop where
  irrefl : ∀ a, lt a a = false
  trans : ∀ {a b c}, lt b a = false → lt c b = false → lt c a = false
  asymm : ∀ {a b}, lt a b → lt b a = false

variable (hlt : StrictWeak lt)

include hlt in
/-- What is popped is least of all that is left. -/
theorem popLeast_least (hs : ∀ s ∈ ss, s.Pairwise fun x y => lt y x = false)
    (h : popLeast lt ss = some (a, ss')) : ∀ b ∈ ss.flatten, lt b a = false := by
  induction ss generalizing ss' a with
  | nil => simp [popLeast] at h
  | cons s ss ih =>
    rw [forall_mem_cons] at hs
    cases s with
    | nil =>
      obtain ⟨ts, hp, -⟩ := popLeast_nil_cases h
      simpa using ih hs.2 hp
    | cons c s =>
      have hc : ∀ x ∈ c :: s, lt x c = false :=
        forall_mem_cons.mpr ⟨hlt.irrefl c, (pairwise_cons.mp hs.1).1⟩
      intro x hx
      rw [flatten_cons, mem_append] at hx
      rcases popLeast_cons_cases h with ⟨rfl, -, hle⟩ | ⟨ts, hp, hac, -⟩
      · rcases hx with hx | hx
        · exact hc x hx
        · obtain ⟨p, hp⟩ : ∃ p, popLeast lt ss = some p := by
            rw [← ne_none_iff_exists', Ne, popLeast_eq_none]
            exact ne_nil_of_mem hx
          exact hlt.trans (hle p hp) (ih hs.2 hp x hx)
      · rcases hx with hx | hx
        · exact hlt.trans (hlt.asymm hac) (hc x hx)
        · exact ih hs.2 hp x hx

theorem mergeSteps_perm {ss : List (List α)} (hn : ss.flatten.length ≤ n) :
    (mergeSteps lt n ss).Perm ss.flatten := by
  induction n generalizing ss with
  | zero => rw [eq_nil_of_length_eq_zero (Nat.le_zero.mp hn)]; rfl
  | succ n ih =>
    rw [mergeSteps]
    cases h : popLeast lt ss with
    | none => simp [popLeast_eq_none.mp h]
    | some p =>
      have hperm := popLeast_perm h
      have hlen := hperm.length_eq
      rw [length_cons] at hlen
      exact ((ih (by omega)).cons _).trans hperm.symm

theorem mergeStreams_perm (ss : List (List α)) : (mergeStreams lt ss).Perm ss.flatten :=
  mergeSteps_perm le_rfl

include hlt in
section

variable {ss : List (List α)} (hs : ∀ s ∈ ss, s.Pairwise fun x y => lt y x = false)

include hs

theorem mergeSteps_sorted (hn : ss.flatten.length ≤ n) :
    (mergeSteps lt n ss).Pairwise fun x y => lt y x = false := by
  induction n generalizing ss with
  | zero => exact .nil
  | succ n ih =>
    rw [mergeSteps]
    cases h : popLeast lt ss with
    | none => exact .nil
    | some p =>
      have hperm := popLeast_perm h
      have hlen := hperm.length_eq
      rw [length_cons] at hlen
      have hr := popLeast_sublists h (fun _ _ hp => (pairwise_cons.mp hp).2) hs
      refine pairwise_cons.mpr ⟨fun b hb => ?_, ih hr (by omega)⟩
      have hb := (mergeSteps_perm (by omega)).mem_iff.mp hb
      exact popLeast_least hlt hs h b (hperm.mem_iff.mpr (.tail _ hb))

include hlt in
theorem mergeStreams_sorted : (mergeStreams lt ss).Pairwise fun x y => lt y x = false :=
  mergeSteps_sorted hlt hs le_rfl

end

/-- Drop each element the same as the last one kept. -/
def dedupFrom (same : α → α → Bool) : Option α → List α → List α
  | _, [] => []
  | last, a :: l =>
    if last.any fun b => same b a then dedupFrom same last l else a :: dedupFrom same (some a) l

def dedupBy (same : α → α → Bool) (l : List α) : List α := dedupFrom same none l

variable {same : α → α → Bool} {last : Option α}

theorem dedupFrom_sublist (last : Option α) (l : List α) : (dedupFrom same last l).Sublist l := by
  induction l generalizing last with
  | nil => exact List.Sublist.refl _
  | cons a l ih =>
    rw [dedupFrom]
    split_ifs
    · exact (ih last).cons a
    · exact (ih (some a)).cons_cons a

theorem dedupBy_sublist (l : List α) : (dedupBy same l).Sublist l := dedupFrom_sublist none l

theorem exists_same_mem_dedupFrom (ha : a ∈ l) :
    a ∈ dedupFrom same last l ∨ ∃ b, (b ∈ last ∨ b ∈ dedupFrom same last l) ∧ same b a := by
  induction l generalizing last with
  | nil => simp at ha
  | cons c l ih =>
    rw [dedupFrom]
    split_ifs with h
    · rcases mem_cons.mp ha with rfl | ha
      · cases last with
        | none => simp at h
        | some b => exact .inr ⟨b, .inl rfl, by simpa using h⟩
      · exact ih ha
    · rcases mem_cons.mp ha with rfl | ha
      · exact .inl mem_cons_self
      · rcases ih ha with h | ⟨b, hb | hb, hba⟩
        · exact .inl (.tail _ h)
        · obtain rfl := mem_some.mp hb
          exact .inr ⟨_, .inr mem_cons_self, hba⟩
        · exact .inr ⟨b, .inr (.tail _ hb), hba⟩

theorem exists_same_mem_dedupBy (ha : a ∈ l) :
    a ∈ dedupBy same l ∨ ∃ b ∈ dedupBy same l, same b a := by
  rcases exists_same_mem_dedupFrom ha with h | ⟨b, hb | hb, hba⟩
  · exact .inl h
  · simp at hb
  · exact .inr ⟨b, hb, hba⟩

theorem mem_dedupBy_eq [DecidableEq α] : a ∈ dedupBy (fun x y => decide (x = y)) l ↔ a ∈ l := by
  refine ⟨fun h => (dedupBy_sublist l).subset h, fun ha => ?_⟩
  rcases exists_same_mem_dedupBy ha with h | ⟨b, hb, hba⟩
  · exact h
  · exact of_decide_eq_true hba ▸ hb

include hlt in
section

variable (htri : ∀ a b, lt b a = false → lt a b ∨ same a b)
    (hl : l.Pairwise fun x y => lt y x = false)

include htri hl

theorem dedupFrom_strict (hlast : ∀ b ∈ last, ∀ x ∈ l, lt x b = false) :
    (dedupFrom same last l).Pairwise (fun x y => lt x y) ∧
      ∀ b ∈ last, ∀ x ∈ dedupFrom same last l, lt b x := by
  induction l generalizing last with
  | nil => exact ⟨.nil, by simp [dedupFrom]⟩
  | cons a l ih =>
    obtain ⟨ha, hl⟩ := pairwise_cons.mp hl
    rw [dedupFrom]
    split_ifs with h
    · exact ih hl fun b hb x hx => hlast b hb x (.tail _ hx)
    · obtain ⟨hpw, haft⟩ := ih hl (show ∀ b ∈ some a, ∀ x ∈ l, lt x b = false by simpa using ha)
      have haft : ∀ x ∈ dedupFrom same (some a) l, lt a x := haft a rfl
      refine ⟨pairwise_cons.mpr ⟨haft, hpw⟩, fun b hb => ?_⟩
      have hba : lt b a := by
        rcases htri b a (hlast b hb a mem_cons_self) with hlt | hsame
        · exact hlt
        · cases hb
          exact absurd hsame h
      refine forall_mem_cons.mpr ⟨hba, fun x hx => ?_⟩
      by_contra hbx
      have := hlt.trans (hlt.asymm (haft x hx)) (Bool.eq_false_iff.mpr hbx)
      simp [hba] at this

include hlt in
theorem dedupBy_strict : (dedupBy same l).Pairwise fun x y => lt x y :=
  (dedupFrom_strict hlt htri hl (by simp)).1

end

end RegolithStore.Lib
