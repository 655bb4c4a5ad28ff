import Mathlib.Data.List.Infix

/-! Logs of frames. A writer puts one frame after the other, each bound to the offset it stands
at, and a crash or a fault leaves a file that holds some of them. Every file holds a longest run
of the log's first records; what a file keeps of the log's first bytes, it keeps of every record
below them. -/

namespace RegolithStore.Lib

open List

variable {β ρ : Type*} {file : List β} {bytes : List β} {head : List β} {offset : Nat}

def Holds (file : List β) (offset : Nat) (bytes : List β) : Prop := bytes <+: file.drop offset

instance [DecidableEq β] (file : List β) (offset : Nat) (bytes : List β) :
    Decidable (Holds file offset bytes) :=
  inferInstanceAs (Decidable (_ <+: _))

theorem Holds.end_le
    (h : Holds file offset bytes) (hne : bytes ≠ []) : offset + bytes.length ≤ file.length := by
  have hlen := List.IsPrefix.length_le h
  have hpos := length_pos_iff.mpr hne
  rw [length_drop] at hlen
  omega

theorem Holds.of_take_eq {file disk : List β} {synced offset : Nat}
    (hk : disk.take synced = file.take synced) (hend : offset + bytes.length ≤ synced)
    (h : Holds file offset bytes) : Holds disk offset bytes := by
  have hf : bytes <+: (file.take synced).drop offset := by
    rw [drop_take]
    exact prefix_take_iff.mpr ⟨h, by omega⟩
  rw [← hk, drop_take] at hf
  exact hf.trans ( take_prefix _ _)

theorem concat_eq_append_cons {l pre suf : List ρ} {x c : ρ} (h : l ++ [x] = pre ++ c :: suf) :
    (pre = l ∧ c = x) ∨ ∃ rest, l = pre ++ c :: rest := by
  rcases eq_nil_or_concat suf with rfl | ⟨rest, y, rfl⟩
  · obtain ⟨hl, hx⟩ := append_inj' h rfl
    exact .inl ⟨hl.symm, (List.cons.inj hx).1.symm⟩
  · rw [concat_eq_append, ← cons_append, ← append_assoc] at h
    exact .inr ⟨rest, (append_inj' h rfl).1⟩

section Layout

variable (frame : Nat → ρ → List β)

/-- The frames one after the other, from `start`. -/
def layout : Nat → List ρ → List β
  | _, [] => []
  | start, r :: rs => frame start r ++ layout (start + (frame start r).length) rs

/-- Each record and the offset its frame stands at. -/
def placed : Nat → List ρ → List (Nat × ρ)
  | _, [] => []
  | start, r :: rs => (start, r) :: placed (start + (frame start r).length) rs

def endOf (start : Nat) (rs : List ρ) : Nat := start + (layout frame start rs).length

/-- The file still has the record, where it was written. -/
def Intact (file : List β) (p : Nat × ρ) : Prop := Holds file p.1 (frame p.1 p.2)

variable {frame} {start : Nat} {p : Nat × ρ} {rs : List ρ} {pre suf : List ρ} {r : ρ}

@[simp] theorem endOf_nil (start : Nat) : endOf frame start [] = start := by simp [endOf, layout]

theorem endOf_cons (start : Nat) (r : ρ) (rs : List ρ) :
    endOf frame start (r :: rs) = endOf frame (start + (frame start r).length) rs := by
  simp [endOf, layout, Nat.add_assoc]

theorem layout_append (start : Nat) (rs rs' : List ρ) : layout frame start (rs ++ rs') =
      layout frame start rs ++ layout frame (endOf frame start rs) rs' := by
  induction rs generalizing start with
  | nil => simp [layout]
  | cons r rs ih => simp [layout, ih, endOf_cons]

theorem endOf_append (start : Nat) (rs rs' : List ρ) :
    endOf frame start (rs ++ rs') = endOf frame (endOf frame start rs) rs' := by
  simp [endOf, layout_append, Nat.add_assoc]

theorem endOf_concat (start : Nat) (rs : List ρ) (r : ρ) : endOf frame start (rs ++ [r]) =
      endOf frame start rs + (frame (endOf frame start rs) r).length := by
  rw [endOf_append, endOf_cons, endOf_nil]

theorem start_le_endOf (start : Nat) (rs : List ρ) : start ≤ endOf frame start rs :=
  Nat.le_add_right _ _

theorem endOf_mono {rs rs' : List ρ} (h : rs <+: rs') (start : Nat) :
    endOf frame start rs ≤ endOf frame start rs' := by
  obtain ⟨suf, rfl⟩ := h
  rw [endOf_append]
  exact start_le_endOf _ _

theorem placed_append (start : Nat) (rs rs' : List ρ) : placed frame start (rs ++ rs') =
      placed frame start rs ++ placed frame (endOf frame start rs) rs' := by
  induction rs generalizing start with
  | nil => simp [placed]
  | cons r rs ih => simp [placed, ih, endOf_cons]

theorem placed_concat (start : Nat) (rs : List ρ) (r : ρ) :
    placed frame start (rs ++ [r]) = placed frame start rs ++ [(endOf frame start rs, r)] := by
  rw [placed_append]
  rfl

theorem mem_placed : p ∈ placed frame start rs ↔
      ∃ pre suf, rs = pre ++ p.2 :: suf ∧ p.1 = endOf frame start pre := by
  constructor
  · intro h
    induction rs generalizing start with
    | nil => simp [placed] at h
    | cons r rs ih =>
      rcases mem_cons.mp h with rfl | h
      · exact ⟨[], rs, rfl, (endOf_nil start).symm⟩
      · obtain ⟨pre, suf, rfl, ho⟩ := ih h
        exact ⟨r :: pre, suf, rfl, by rw [ho, endOf_cons]⟩
  · rintro ⟨pre, suf, rfl, ho⟩
    rw [placed_append, ← ho]
    exact mem_append_right _ (mem_cons_self ..)

theorem mem_placed_of_split : (endOf frame start pre, r) ∈ placed frame start (pre ++ r :: suf) :=
  mem_placed.mpr ⟨pre, suf, rfl, rfl⟩

theorem start_le_of_mem_placed (h : p ∈ placed frame start rs) : start ≤ p.1 := by
  obtain ⟨pre, suf, -, ho⟩ := mem_placed.mp h
  exact ho ▸ start_le_endOf _ _

theorem end_le_of_mem_placed (h : p ∈ placed frame start rs) :
    p.1 + (frame p.1 p.2).length ≤ endOf frame start rs := by
  obtain ⟨pre, suf, rfl, ho⟩ := mem_placed.mp h
  rw [ho, ← endOf_concat]
  exact endOf_mono (by simp) start

theorem intact_of_mem_placed (h : p ∈ placed frame head.length rs) :
    Intact frame (head ++ layout frame head.length rs) p := by
  obtain ⟨pre, suf, rfl, ho⟩ := mem_placed.mp h
  rw [Intact, ho, endOf, layout_append, layout, Holds, ← drop_drop, drop_left, drop_left]
  exact prefix_append _ _

variable (frame) in
/-- The record after those of `pre`, if there is one, is not whole in the file. -/
def LostAt (file : List β) (start : Nat) (pre suf : List ρ) : Prop :=
  ∀ r rest, suf = r :: rest → ¬ Intact frame file (endOf frame start pre, r)

variable (frame) in
/-- The records the file holds from the start on, and the first one it does not. -/
theorem exists_intact_split (file : List β) (start : Nat) (rs : List ρ) :
    ∃ pre suf, rs = pre ++ suf ∧ (∀ p ∈ placed frame start pre, Intact frame file p) ∧
      LostAt frame file start pre suf := by
  classical
  induction rs generalizing start with
  | nil => exact ⟨[], [], rfl, by simp [placed], by simp [LostAt]⟩
  | cons r rs ih =>
    by_cases hr : Intact frame file (start, r)
    · obtain ⟨pre, suf, rfl, hp, hsuf⟩ := ih (start + (frame start r).length)
      refine ⟨r :: pre, suf, rfl, ?_, ?_⟩
      · rw [placed, forall_mem_cons]
        exact ⟨hr, hp⟩
      · rwa [LostAt, endOf_cons]
    · refine ⟨[], r :: rs, rfl, by simp [placed], ?_⟩
      rintro r' rest ⟨⟩
      rwa [endOf_nil]

theorem endOf_le_of_not_intact (hpre : ∀ p ∈ placed frame start pre, Intact frame file p)
    (hp : p ∈ placed frame start (pre ++ suf)) (hnot : ¬ Intact frame file p) :
    endOf frame start pre ≤ p.1 := by
  rw [placed_append, mem_append] at hp
  rcases hp with hp | hp
  · exact absurd (hpre p hp) hnot
  · exact start_le_of_mem_placed hp

section Positive

variable (hpos : ∀ offset r, frame offset r ≠ []) {start : Nat} {rs : List ρ}

include hpos

theorem lt_end_of_mem_placed (h : p ∈ placed frame start rs) : p.1 < endOf frame start rs := by
  have hlen := length_pos_iff.mpr (hpos p.1 p.2)
  have hend := end_le_of_mem_placed h
  omega

theorem length_le_layout (start : Nat) (rs : List ρ) : rs.length ≤ (layout frame start rs).length := by
  induction rs generalizing start with
  | nil => exact Nat.zero_le _
  | cons r rs ih =>
    have hlen := length_pos_iff.mpr (hpos start r)
    have hr := ih (start + (frame start r).length)
    rw [layout, length_append, length_cons]
    omega

theorem eq_of_mem_placed {r r' : ρ}
    (h : (endOf frame start pre, r') ∈ placed frame start (pre ++ r :: suf)) : r' = r := by
  rw [placed_append, mem_append, placed, mem_cons] at h
  rcases h with h | h | h
  · exact absurd (lt_end_of_mem_placed hpos h) (lt_irrefl _)
  · exact (Prod.ext_iff.mp h).2
  · have hlen := length_pos_iff.mpr (hpos (endOf frame start pre) r)
    have hle := start_le_of_mem_placed h
    exact absurd hle (by simp only; omega)

theorem endOf_le_length (hs : start ≤ file.length)
    (h : ∀ p ∈ placed frame start rs, Intact frame file p) :
    endOf frame start rs ≤ file.length := by
  induction rs generalizing start with
  | nil => rwa [endOf_nil]
  | cons r rs ih =>
    rw [placed, forall_mem_cons] at h
    rw [endOf_cons]
    exact ih (h.1.end_le (hpos start r)) h.2

theorem length_le_of_endOf_le {xs ys zs : List ρ} (hxs : xs <+: zs) (hys : ys <+: zs)
    (h : endOf frame start xs ≤ endOf frame start ys) : xs.length ≤ ys.length := by
  rcases prefix_or_prefix_of_prefix hxs hys with hp | ⟨_ | ⟨r, rest⟩, rfl⟩
  · exact hp.length_le
  · simp
  · have hl : (endOf frame start ys, r) ∈ placed frame start (ys ++ r :: rest) :=
      mem_placed_of_split
    exact absurd (lt_end_of_mem_placed hpos hl) h.not_gt

/-- What stands after the records of `pre` is not a whole record of the log. -/
theorem LostAt.not_intact (hl : LostAt frame file start pre suf)
    (hr : (endOf frame start pre, r) ∈ placed frame start (pre ++ suf)) :
    ¬ Intact frame file (endOf frame start pre, r) := by
  cases suf with
  | nil =>
    rw [append_nil] at hr
    exact absurd (lt_end_of_mem_placed hpos hr) (lt_irrefl _)
  | cons r₀ rest => exact eq_of_mem_placed hpos hr ▸ hl r₀ rest rfl

end Positive

theorem endOf_concat_le {pre suf upTo : List ρ} (hup : upTo <+: pre ++ r :: suf)
    (hlt : endOf frame start pre < endOf frame start upTo) :
    endOf frame start (pre ++ [r]) ≤ endOf frame start upTo := by
  have hcat : pre ++ [r] <+: pre ++ r :: suf := by simp
  rcases prefix_or_prefix_of_prefix hcat hup with h | h
  · exact endOf_mono h start
  · rcases prefix_concat_iff.mp h with rfl | h
    · exact le_rfl
    · exact absurd (endOf_mono h start) hlt.not_ge

theorem end_le_of_placed_lt {p q : Nat × ρ} (hp : p ∈ placed frame start rs)
    (hq : q ∈ placed frame start rs) (hlt : p.1 < q.1) : p.1 + (frame p.1 p.2).length ≤ q.1 := by
  obtain ⟨pre, suf, hpre, hpo⟩ := mem_placed.mp hp
  obtain ⟨upTo, rest, hup, hqo⟩ := mem_placed.mp hq
  rw [hpo, hqo] at hlt
  have hle := endOf_concat_le (hpre ▸ hup ▸ prefix_append _ _) hlt
  rw [endOf_concat] at hle
  rwa [hpo, hqo]

end Layout

end RegolithStore.Lib
