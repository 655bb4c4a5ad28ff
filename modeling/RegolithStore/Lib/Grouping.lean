import Mathlib.Data.List.SplitBy
import Mathlib.Order.Lattice

/-! Splitting a list into the runs of one key. On a list whose keys ascend, each run is
all of its key: the runs' keys ascend strictly. What relates the members of a list
relates what is made of them by position. -/

namespace RegolithStore.Lib

open List

variable {α κ β : Type*}

section Runs

variable [DecidableEq κ] (f : α → κ)

/-- The maximal runs of equal `f`. -/
def runsOf (l : List α) : List (List α) := l.splitBy fun a b => decide (f a = f b)

variable {f} {l g : List α}

@[simp] theorem flatten_runsOf (l : List α) : (runsOf f l).flatten = l := flatten_splitBy _ l

theorem ne_nil_of_mem_runsOf (h : g ∈ runsOf f l) : g ≠ [] :=
  ne_nil_of_mem_splitBy h

theorem eq_of_mem_runsOf (hg : g ∈ runsOf f l) {a b : α} (ha : a ∈ g) (hb : b ∈ g) : f a = f b := by
  have hc : g.IsChain fun a b => f a = f b :=
    (isChain_of_mem_splitBy hg).imp fun _ _ h => by simpa using h
  have hpw : g.Pairwise fun a b => f a = f b := isChain_iff_pairwise.mp hc
  exact hpw.forall_of_forall (R := fun a b => f a = f b) (fun _ _ => rfl) ha hb

theorem isChain_ne_runsOf (l : List α) :
    (runsOf f l).IsChain fun g g' => ∀ a ∈ g, ∀ b ∈ g', f a ≠ f b := by
  have hc := isChain_getLast_head_splitBy (fun a b => decide (f a = f b)) l
  have hs : ∀ g ∈ runsOf f l, ∀ a ∈ g, ∀ b ∈ g, f a = f b :=
    fun g hg a ha b hb => eq_of_mem_runsOf hg ha hb
  unfold runsOf at hs ⊢
  generalize l.splitBy (fun a b => decide (f a = f b)) = gs at hc hs
  induction gs with
  | nil => exact .nil
  | cons g gs ih =>
    have htail := ih (isChain_of_isChain_cons hc) fun g' h => hs g' (.tail _ h)
    cases gs with
    | nil => exact .singleton _
    | cons g₁ gs =>
      refine isChain_cons_cons.mpr ⟨fun a ha b hb hab => ?_, htail⟩
      obtain ⟨hg, hg1, hdiff⟩ := (isChain_cons_cons.mp hc).1
      have h1 := hs g mem_cons_self _ (getLast_mem hg) a ha
      have h2 := hs g₁ (by simp) b hb _ (head_mem hg1)
      exact of_decide_eq_false hdiff (h1.trans (hab.trans h2))

end Runs

section Order

variable [LinearOrder κ] [DecidableEq κ] {f : α → κ} {gs : List (List α)} {l : List α}

omit [DecidableEq κ] in
/-- Nonempty groups of one key each, neighbours differing, ascend strictly if they ascend. -/
theorem pairwise_lt_of_isChain_ne (hne : ∀ g ∈ gs, g ≠ [])
    (hle : gs.Pairwise fun g g' => ∀ a ∈ g, ∀ b ∈ g', f a ≤ f b)
    (hchn : gs.IsChain fun g g' => ∀ a ∈ g, ∀ b ∈ g', f a ≠ f b) :
    gs.Pairwise fun g g' => ∀ a ∈ g, ∀ b ∈ g', f a < f b := by
  induction gs with
  | nil => exact .nil
  | cons g gs ih =>
    obtain ⟨hg, hle⟩ := pairwise_cons.mp hle
    have hpw := ih (fun g' h => hne g' (.tail _ h)) hle (isChain_of_isChain_cons hchn)
    refine pairwise_cons.mpr ⟨fun g' hg' a ha b hb => ?_, hpw⟩
    cases gs with
    | nil => cases hg'
    | cons g₁ gs =>
      obtain ⟨c, hc⟩ := exists_mem_of_ne_nil _ (hne g₁ (by simp))
      have hac : ∀ c ∈ g₁, f a < f c := fun c hc =>
        lt_of_le_of_ne (hg g₁ mem_cons_self a ha c hc) ((isChain_cons_cons.mp hchn).1 a ha c hc)
      rcases mem_cons.mp hg' with rfl | hg'
      · exact hac b hb
      · exact (hac c hc).trans ((pairwise_cons.mp hpw).1 g' hg' c hc b hb)

theorem runsOf_pairwise_lt (hl : l.Pairwise fun a b => f a ≤ f b) :
    (runsOf f l).Pairwise fun g g' => ∀ a ∈ g, ∀ b ∈ g', f a < f b := by
  refine pairwise_lt_of_isChain_ne (fun g => ne_nil_of_mem_runsOf) ?_ (isChain_ne_runsOf l)
  rw [← flatten_runsOf (f := f) l] at hl
  exact (pairwise_flatten.mp hl).2

theorem runsOf_pairwise_gt (hl : l.Pairwise fun a b => f b ≤ f a) :
    (runsOf f l).Pairwise fun g g' => ∀ a ∈ g, ∀ b ∈ g', f b < f a := by
  have hne := isChain_ne_runsOf (f := f) l
  rw [← flatten_runsOf (f := f) l] at hl
  exact pairwise_lt_of_isChain_ne (κ := κᵒᵈ) (fun g hg => ne_nil_of_mem_runsOf hg)
    (pairwise_flatten.mp hl).2 hne

/-- Where each group is made into something of its own key, picking a key out of the results
is making it of that key's group. -/
theorem filter_flatMap_groups (key : β → κ) (make : List α → List β)
    (hnil : make [] = []) (hne : ∀ g ∈ gs, g ≠ []) (hs : ∀ g ∈ gs, ∀ a ∈ g, ∀ b ∈ g, f a = f b)
    (hlt : gs.Pairwise fun g g' => ∀ a ∈ g, ∀ b ∈ g', f a < f b)
    (hmake : ∀ g ∈ gs, ∀ b ∈ make g, ∃ a ∈ g, key b = f a) (k : κ) : (gs.flatMap make).filter
    (fun b => decide (key b = k)) =
      make (gs.flatten.filter fun a => decide (f a = k)) := by
  induction gs with
  | nil => simpa using hnil.symm
  | cons g gs ih =>
    rw [forall_mem_cons] at hne hs hmake
    obtain ⟨hg, hlt⟩ := pairwise_cons.mp hlt
    have hih := ih hne.2 hs.2 hlt hmake.2
    obtain ⟨a, ha⟩ := exists_mem_of_ne_nil g hne.1
    rw [flatMap_cons, flatten_cons, filter_append, filter_append]
    by_cases hk : f a = k
    · -- this is the group of `k`, and no later one is
      have hself : g.filter (fun a => decide (f a = k)) = g :=
        filter_eq_self.mpr fun b hb => decide_eq_true ((hs.1 b hb a ha).trans hk)
      have hmade : (make g).filter (fun b => decide (key b = k)) = make g :=
        filter_eq_self.mpr fun b hb => by
          obtain ⟨c, hc, hbc⟩ := hmake.1 b hb
          exact decide_eq_true (hbc.trans ((hs.1 c hc a ha).trans hk))
      have hlater : gs.flatten.filter (fun a => decide (f a = k)) = [] :=
        filter_eq_nil_iff.mpr fun b hb hbk => by
          obtain ⟨g', hg', hb⟩ := mem_flatten.mp hb
          exact (hg g' hg' a ha b hb).ne (hk.trans (of_decide_eq_true hbk).symm)
      rw [hih, hlater, hnil, hself, hmade, append_nil, append_nil]
    · have hn : g.filter (fun a => decide (f a = k)) = [] :=
        filter_eq_nil_iff.mpr fun b hb hbk =>
          hk ((hs.1 a ha b hb).trans (of_decide_eq_true hbk))
      have hmade : (make g).filter (fun b => decide (key b = k)) = [] :=
        filter_eq_nil_iff.mpr fun b hb hbk => by
          obtain ⟨c, hc, hbc⟩ := hmake.1 b hb
          exact hk ((hs.1 a ha c hc).trans (hbc.symm.trans (of_decide_eq_true hbk)))
      rw [hih, hn, hmade, nil_append, nil_append]

end Order

theorem pairwise_filterMap_zipIdx {γ : Type*} {l : List β} {n : Nat} {R : β → β → Prop}
    {f : β × Nat → Option γ} {S : γ → γ → Prop} (h : l.Pairwise R)
    (hRS : ∀ x ∈ l, ∀ y ∈ l, R x y → ∀ i j a b, f (x, i) = some a → f (y, j) = some b → S a b) :
    ((l.zipIdx n).filterMap f).Pairwise S := by
  have hi : (l.zipIdx n).Pairwise fun p q => R p.1 q.1 := by
    rw [← pairwise_map, zipIdx_map_fst]
    exact h
  refine pairwise_filterMap.mpr (hi.imp_of_mem fun {p q} hp hq hr a ha b hb => ?_)
  exact hRS p.1 (fst_mem_of_mem_zipIdx hp) q.1 (fst_mem_of_mem_zipIdx hq) hr p.2 q.2 a b ha hb

end RegolithStore.Lib
