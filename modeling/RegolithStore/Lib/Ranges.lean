import Mathlib.Data.List.Sort
import Mathlib.Data.Prod.Lex
import Mathlib.Order.MinMax
import RegolithStore.Lib.SortedRun

/-! Half-open ranges over a linear order: joining the ranges that touch, the gaps a set
of ranges leaves in an interval, and grouping intervals that touch. Each operation is
stated by the keys it keeps: joining keeps the union, the gaps are what the ranges do
not cover, and a group covers its hull without a hole. So the groups are counted by the
ranges that hold them, where each of these meets what is covered in one piece. -/

namespace RegolithStore.Lib

open List

variable {α β κ : Type*} [LinearOrder κ] {l : List (κ × κ)} {cursor stop start : κ}
  {covered : List (κ × κ)} {cur b : κ × κ} {r : κ × κ} {k : κ}

def InRange (r : κ × κ) (k : κ) : Prop := r.1 ≤ k ∧ k < r.2

def RangeLe (a b : κ × κ) : Prop := a.1 < b.1 ∨ a.1 = b.1 ∧ a.2 ≤ b.2

instance : DecidableRel (RangeLe : κ × κ → κ × κ → Prop) := fun _ _ => inferInstanceAs (Decidable (_ ∨ _))

theorem RangeLe.fst_le {a : κ × κ} (h : RangeLe a b) : a.1 ≤ b.1 := by
  rcases h with h | h
  · exact h.le
  · exact h.1.le

theorem rangeLe_iff {a : κ × κ} : RangeLe a b ↔ toLex a ≤ toLex b := Prod.Lex.toLex_le_toLex.symm

instance : Std.Total (RangeLe : κ × κ → κ × κ → Prop) :=
  ⟨fun a b => by simpa only [rangeLe_iff] using le_total (toLex a) (toLex b)⟩

instance : IsTrans (κ × κ) RangeLe :=
  ⟨fun _ _ _ hab hbc => rangeLe_iff.mpr ((rangeLe_iff.mp hab).trans (rangeLe_iff.mp hbc))⟩

/-- Join each range onto the current one while it starts no later than that ends. -/
def joinFrom (cur : κ × κ) : List (κ × κ) → List (κ × κ)
  | [] => [cur]
  | r :: rest => if r.1 ≤ cur.2 then joinFrom (cur.1, max cur.2 r.2) rest else cur :: joinFrom r rest

/-- The nonempty ranges of `l`, sorted, with every run that touches joined into one. -/
def joinRanges (l : List (κ × κ)) : List (κ × κ) :=
  match (l.filter fun r => decide (r.1 < r.2)).insertionSort RangeLe with
  | [] => []
  | r :: rest => joinFrom r rest

/-- Nonempty ranges with a gap after each. -/
def Separated (l : List (κ × κ)) : Prop :=
  (∀ r ∈ l, r.1 < r.2) ∧ l.Pairwise fun a b => a.2 < b.1

theorem exists_inRange_joinFrom (hl : (cur :: l).Pairwise fun a b => a.1 ≤ b.1) :
    (∃ r ∈ joinFrom cur l, InRange r k) ↔ ∃ r ∈ cur :: l, InRange r k := by
  induction l generalizing cur with
  | nil => rfl
  | cons r l ih =>
    obtain ⟨hcur, hrl⟩ := pairwise_cons.mp hl
    have hr : cur.1 ≤ r.1 := hcur r mem_cons_self
    rw [joinFrom]
    split_ifs with h
    · have hj : InRange (cur.1, max cur.2 r.2) k ↔ InRange cur k ∨ InRange r k := by
        simp only [InRange, lt_max_iff]
        constructor
        · rintro ⟨h1, h2 | h2⟩
          · exact .inl ⟨h1, h2⟩
          · rcases lt_or_ge k r.1 with g | g
            · exact .inl ⟨h1, g.trans_le h⟩
            · exact .inr ⟨g, h2⟩
        · rintro (⟨h1, h2⟩ | ⟨h1, h2⟩)
          · exact ⟨h1, .inl h2⟩
          · exact ⟨hr.trans h1, .inr h2⟩
      have hpw : ((cur.1, max cur.2 r.2) :: l).Pairwise fun a b => a.1 ≤ b.1 :=
        pairwise_cons.mpr ⟨fun b hb => hcur b (.tail _ hb), (pairwise_cons.mp hrl).2⟩
      rw [ih hpw]
      simp only [exists_mem_cons_iff, hj, or_assoc]
    · simp only [exists_mem_cons_iff, ih hrl]

theorem separated_joinFrom (hl : (cur :: l).Pairwise fun a b => a.1 ≤ b.1)
    (hne : ∀ r ∈ cur :: l, r.1 < r.2) :
    Separated (joinFrom cur l) ∧ ∀ r ∈ joinFrom cur l, cur.1 ≤ r.1 := by
  induction l generalizing cur with
  | nil => simpa [joinFrom, Separated] using hne
  | cons r l ih =>
    obtain ⟨hcur, hrl⟩ := pairwise_cons.mp hl
    have hlt := hne cur mem_cons_self
    rw [joinFrom]
    split_ifs with h
    · refine ih (pairwise_cons.mpr ⟨fun b hb => hcur b (.tail _ hb), (pairwise_cons.mp hrl).2⟩) ?_
      exact forall_mem_cons.mpr ⟨lt_max_of_lt_left hlt, fun b hb => hne b (by simp [hb])⟩
    · obtain ⟨⟨hne', hsep⟩, hf⟩ := ih hrl fun b hb => hne b (.tail _ hb)
      have hr : cur.2 < r.1 := not_le.mp h
      refine ⟨⟨forall_mem_cons.mpr ⟨hlt, hne'⟩,
        pairwise_cons.mpr ⟨fun b hb => hr.trans_le (hf b hb), hsep⟩⟩, ?_⟩
      exact forall_mem_cons.mpr ⟨le_rfl, fun b hb => (hlt.trans hr).le.trans (hf b hb)⟩

theorem exists_inRange_joinRanges : (∃ r ∈ joinRanges l, InRange r k) ↔ ∃ r ∈ l, InRange r k := by
  have hmem : (∃ r ∈ (l.filter fun r => decide (r.1 < r.2)).insertionSort RangeLe, InRange r k) ↔
      ∃ r ∈ l, InRange r k := by
    simp only [mem_insertionSort, mem_filter, decide_eq_true_eq]
    exact ⟨fun ⟨r, hr, hk⟩ => ⟨r, hr.1, hk⟩, fun ⟨r, hr, hk⟩ => ⟨r, ⟨hr, hk.1.trans_lt hk.2⟩, hk⟩⟩
  have hs := (pairwise_insertionSort RangeLe
    (l.filter fun r => decide (r.1 < r.2))).imp RangeLe.fst_le
  rw [← hmem, joinRanges]
  split
  · rename_i h
    rw [h]
  · rename_i r rest h
    rw [h] at hs ⊢
    exact exists_inRange_joinFrom hs

theorem separated_joinRanges (l : List (κ × κ)) : Separated (joinRanges l) := by
  have hs := (pairwise_insertionSort RangeLe
    (l.filter fun r => decide (r.1 < r.2))).imp RangeLe.fst_le
  have hne : ∀ r ∈ (l.filter fun r => decide (r.1 < r.2)).insertionSort RangeLe, r.1 < r.2 := by
    intro r hr
    simpa using (mem_filter.mp ((mem_insertionSort _).mp hr)).2
  rw [joinRanges]
  split
  · exact ⟨by simp, .nil⟩
  · rename_i r rest h
    rw [h] at hs hne
    exact (separated_joinFrom hs hne).1

def rest? (cursor stop : κ) : List (κ × κ) := if cursor < stop then [(cursor, stop)] else []

/-- The parts of `[cursor, stop)` outside the ranges `covered`, left to right. -/
def gaps (stop : κ) : κ → List (κ × κ) → List (κ × κ)
  | cursor, [] => rest? cursor stop
  | cursor, (start, next) :: covered =>
    if next ≤ cursor then gaps stop cursor covered
    else if stop ≤ start then rest? cursor stop
    else rest? cursor start ++ gaps stop next covered

theorem inRange_rest? {cursor stop k : κ} :
    (∃ r ∈ rest? cursor stop, InRange r k) ↔ cursor ≤ k ∧ k < stop := by
  unfold rest?
  split_ifs with h
  · simp [InRange]
  · simpa using fun hk => (not_lt.mp h).trans hk

theorem nonempty_of_mem_rest? (h : r ∈ rest? cursor stop) : r.1 < r.2 := by
  unfold rest? at h
  split_ifs at h with hlt
  · rw [mem_singleton.mp h]
    exact hlt
  · simp at h

theorem nonempty_of_mem_gaps {stop cursor : κ} (h : r ∈ gaps stop cursor covered) : r.1 < r.2 := by
  induction covered generalizing cursor with
  | nil => exact nonempty_of_mem_rest? h
  | cons c covered ih =>
    rw [gaps] at h
    split_ifs at h
    · exact ih h
    · exact nonempty_of_mem_rest? h
    · exact (mem_append.mp h).elim nonempty_of_mem_rest? ih

theorem gaps_eq_nil {stop cursor : κ} (covered : List (κ × κ)) (h : stop ≤ cursor) :
    gaps stop cursor covered = [] := by
  induction covered generalizing cursor with
  | nil => exact if_neg h.not_gt
  | cons c covered ih =>
    rw [gaps]
    split_ifs with h1 h2
    · exact ih h
    · exact if_neg h.not_gt
    · have hs : ¬ cursor < c.1 := fun hlt => h2 (h.trans hlt.le)
      rw [rest?, if_neg hs, ih (h.trans (not_le.mp h1).le), append_nil]

/-- The gaps hold exactly the keys of the interval that no range covers. -/
theorem exists_inRange_gaps {stop cursor k : κ} (hs : Separated covered) :
    (∃ r ∈ gaps stop cursor covered, InRange r k) ↔
      (cursor ≤ k ∧ k < stop) ∧ ∀ r ∈ covered, ¬ InRange r k := by
  induction covered generalizing cursor with
  | nil =>
    rw [gaps, inRange_rest?]
    simp
  | cons c covered ih =>
    obtain ⟨hne, hpw⟩ := hs
    obtain ⟨ha, hpw⟩ := pairwise_cons.mp hpw
    have hc : c.1 < c.2 := hne c mem_cons_self
    have hs : Separated covered := ⟨fun r hr => hne r (.tail _ hr), hpw⟩
    rw [gaps, forall_mem_cons]
    split_ifs with h1 h2
    · -- the range ends before the cursor
      rw [ih hs]
      refine and_congr_right fun hk => ⟨fun h => ⟨fun hin => ?_, h⟩, And.right⟩
      exact absurd (h1.trans hk.1) (not_le.mpr hin.2)
    · -- it and every later range start at or past the stop
      rw [inRange_rest?]
      refine ⟨fun hk => ⟨hk, fun hin => ?_, fun r hr hin => ?_⟩, And.left⟩
      · exact absurd (h2.trans hin.1) (not_le.mpr hk.2)
      · exact absurd ((h2.trans (hc.trans (ha r hr)).le).trans hin.1) (not_le.mpr hk.2)
    · -- the gap before it, then on from its end
      simp only [mem_append, or_and_right, exists_or, inRange_rest?, ih hs]
      have h1 := not_le.mp h1
      have h2 := not_le.mp h2
      constructor
      · rintro (⟨hk, hlt⟩ | ⟨⟨hk, hlt⟩, hcov⟩)
        · refine ⟨⟨hk, hlt.trans h2⟩, fun hin => absurd hin.1 hlt.not_ge, fun r hr hin => ?_⟩
          exact absurd ((hlt.trans (hc.trans (ha r hr))).trans_le hin.1) (lt_irrefl _)
        · exact ⟨⟨h1.le.trans hk, hlt⟩, fun hin => absurd hk (not_le.mpr hin.2), hcov⟩
      · rintro ⟨⟨hk, hlt⟩, hnot, hcov⟩
        rcases lt_or_ge k c.1 with hkc | hkc
        · exact .inl ⟨hk, hkc⟩
        · exact .inr ⟨⟨not_lt.mp fun h => hnot ⟨hkc, h⟩, hlt⟩, hcov⟩

section Group

variable (lo hi : α → κ)

/-- Split off the current group where an interval starts past its end. -/
def groupFrom (cur : List α) (stop : κ) : List α → List (List α)
  | [] => [cur]
  | a :: rest =>
    if stop < lo a then cur :: groupFrom [a] (hi a) rest
    else groupFrom (cur ++ [a]) (max stop (hi a)) rest

def groupTouching : List α → List (List α)
  | [] => []
  | a :: rest => groupFrom lo hi [a] (hi a) rest

/-- `[start, stop)` is the hull of the intervals, and they cover it without a hole. -/
structure Block (l : List α) (start stop : κ) : Prop where
  within : ∀ a ∈ l, start ≤ lo a ∧ hi a ≤ stop
  first : ∃ a ∈ l, lo a = start
  last : ∃ a ∈ l, hi a = stop
  solid : ∀ k, start ≤ k → k < stop → ∃ a ∈ l, lo a ≤ k ∧ k < hi a

variable {lo hi}

theorem block_singleton (a : α) : Block lo hi [a] (lo a) (hi a) where
  within b hb := by rw [mem_singleton.mp hb]; exact ⟨le_rfl, le_rfl⟩
  first := ⟨a, mem_singleton_self a, rfl⟩
  last := ⟨a, mem_singleton_self a, rfl⟩
  solid k h1 h2 := ⟨a, mem_singleton_self a, h1, h2⟩

theorem Block.append {l : List α} {stop : κ} (h : Block lo hi l start stop) {a : α}
    (h1 : start ≤ lo a) (h2 : lo a ≤ stop) : Block lo hi (l ++ [a]) start (max stop (hi a)) where
  within b hb := by
    rcases mem_append.mp hb with hb | hb
    · exact ⟨(h.within b hb).1, (h.within b hb).2.trans (le_max_left _ _)⟩
    · rw [mem_singleton.mp hb]
      exact ⟨h1, le_max_right _ _⟩
  first := by
    obtain ⟨b, hb, hlo⟩ := h.first
    exact ⟨b, mem_append_left _ hb, hlo⟩
  last := by
    rcases le_total stop (hi a) with hle | hle
    · exact ⟨a, by simp, (max_eq_right hle).symm⟩
    · obtain ⟨b, hb, hhi⟩ := h.last
      exact ⟨b, mem_append_left _ hb, hhi.trans (max_eq_left hle).symm⟩
  solid k hk hlt := by
    rcases lt_or_ge k stop with hks | hks
    · obtain ⟨b, hb, hin⟩ := h.solid k hk hks
      exact ⟨b, mem_append_left _ hb, hin⟩
    · refine ⟨a, by simp, h2.trans hks, ?_⟩
      exact (lt_max_iff.mp hlt).resolve_left hks.not_gt

theorem flatten_groupFrom (cur : List α) (stop : κ) (l : List α) :
    (groupFrom lo hi cur stop l).flatten = cur ++ l := by
  induction l generalizing cur stop with
  | nil => simp [groupFrom]
  | cons a l ih =>
    rw [groupFrom]
    split_ifs
    · rw [flatten_cons, ih, singleton_append]
    · rw [ih, append_assoc, singleton_append]

theorem flatten_groupTouching (l : List α) : (groupTouching lo hi l).flatten = l := by
  cases l with
  | nil => rfl
  | cons a l => rw [groupTouching, flatten_groupFrom, singleton_append]

theorem mem_of_mem_groupFrom {cur l g : List α} {stop : κ} {a : α}
    (hg : g ∈ groupFrom lo hi cur stop l) (ha : a ∈ g) : a ∈ cur ++ l := by
  have hmem := mem_flatten.mpr ⟨g, hg, ha⟩
  rwa [flatten_groupFrom] at hmem

theorem groupFrom_blocks {cur l : List α} {stop : κ} (hcur : Block lo hi cur start stop)
    (hs : ∀ a ∈ l, start ≤ lo a) (hl : l.Pairwise fun a b => lo a ≤ lo b) :
    (∀ g ∈ groupFrom lo hi cur stop l, ∃ s e, Block lo hi g s e) ∧
      (groupFrom lo hi cur stop l).Pairwise fun g g' => ∀ a ∈ g, ∀ b ∈ g', hi a < lo b := by
  induction l generalizing cur start stop with
  | nil => exact ⟨fun g hg => ⟨start, stop, mem_singleton.mp hg ▸ hcur⟩, pairwise_singleton _ _⟩
  | cons a l ih =>
    obtain ⟨ha, hl⟩ := pairwise_cons.mp hl
    rw [groupFrom]
    split_ifs with hgap
    · obtain ⟨hblocks, hpw⟩ := ih (block_singleton a) ha hl
      refine ⟨forall_mem_cons.mpr ⟨⟨start, stop, hcur⟩, hblocks⟩,
        pairwise_cons.mpr ⟨fun g hg x hx b hb => ?_, hpw⟩⟩
      have hab : lo a ≤ lo b := by
        rcases mem_cons.mp (mem_of_mem_groupFrom hg hb) with rfl | hb
        · exact le_rfl
        · exact ha b hb
      exact (hcur.within x hx).2.trans_lt (hgap.trans_le hab)
    · exact ih (hcur.append (hs a mem_cons_self) (not_lt.mp hgap))
        (fun b hb => hs b (.tail _ hb)) hl

/-- The groups of intervals sorted by start: blocks without a hole, with a gap between any two. -/
theorem groupTouching_blocks {l : List α} (hl : l.Pairwise fun a b => lo a ≤ lo b) :
    (∀ g ∈ groupTouching lo hi l, ∃ s e, Block lo hi g s e) ∧
      (groupTouching lo hi l).Pairwise fun g g' => ∀ a ∈ g, ∀ b ∈ g', hi a < lo b := by
  cases l with
  | nil => exact ⟨by simp [groupTouching], .nil⟩
  | cons a l =>
    obtain ⟨ha, hl⟩ := pairwise_cons.mp hl
    exact groupFrom_blocks (block_singleton a) ha hl

end Group

end RegolithStore.Lib
