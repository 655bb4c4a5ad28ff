import RegolithStore.Lib.SortedRun

/-! Pieces that lie one after the other. Each piece has a first position and one past its
last; a list tiles the positions from `o` to `e` when each piece begins where the one
before it ends. What lies below a position no piece straddles tiles the positions up to
it. -/

namespace RegolithStore.Lib

open List

variable {ρ : Type*} (first past : ρ → Nat) {p : ρ}

/-- The pieces lie one after the other from `o` to `e`. -/
def Tiles : Nat → List ρ → Nat → Prop
  | o, [], e => o = e
  | o, p :: ps, e => first p = o ∧ Tiles (past p) ps e

variable {first past} {ps : List ρ} {o e : Nat}

theorem tiles_append {ps qs : List ρ} :
    Tiles first past o (ps ++ qs) e ↔ ∃ m, Tiles first past o ps m ∧ Tiles first past m qs e := by
  induction ps generalizing o with
  | nil => simp [Tiles]
  | cons p ps ih => simp [Tiles, ih, and_assoc]

theorem tiles_concat :
    Tiles first past o (ps ++ [p]) e ↔ Tiles first past o ps (first p) ∧ past p = e := by
  rw [tiles_append]
  exact ⟨fun ⟨_, hps, hf, hpast⟩ => ⟨hf ▸ hps, hpast⟩, fun ⟨hps, hpast⟩ => ⟨_, hps, rfl, hpast⟩⟩

variable (h : Tiles first past o ps e)

include h

variable (hpos : ∀ p ∈ ps, first p < past p)

include hpos

theorem Tiles.le : o ≤ e := by
  induction ps generalizing o with
  | nil => exact Nat.le_of_eq h
  | cons p ps ih =>
    rw [forall_mem_cons] at hpos
    have hr := ih h.2 hpos.2
    have hf := h.1
    omega

omit hpos in
theorem Tiles.bounds (hpos : ∀ p ∈ ps, first p < past p)
    (hp : p ∈ ps) : o ≤ first p ∧ past p ≤ e := by
  obtain ⟨pre, suf, rfl⟩ := append_of_mem hp
  obtain ⟨m, hpre, hm, hsuf⟩ := tiles_append.mp h
  refine ⟨?_, hsuf.le fun q hq => hpos q (by simp [hq])⟩
  rw [hm]
  exact hpre.le fun q hq => hpos q (by simp [hq])

theorem Tiles.pairwise : ps.Pairwise fun p q => past p ≤ first q := by
  induction ps generalizing o with
  | nil => exact .nil
  | cons p ps ih =>
    rw [forall_mem_cons] at hpos
    exact .cons (fun q hq => (h.2.bounds hpos.2 hq).1) (ih h.2 hpos.2)

theorem Tiles.nodup :
    ps.Nodup := by
  refine (h.pairwise hpos).imp_of_mem fun {p q} hp _ hle heq => ?_
  have hlt := hpos p hp
  rw [heq] at hle hlt
  omega

omit hpos

theorem Tiles.apart {q : ρ} (hpos : ∀ p ∈ ps, first p < past p)
    (hp : p ∈ ps) (hq : q ∈ ps) (hne : p ≠ q) : past p ≤ first q ∨ past q ≤ first p :=
  (pairwise_either (h.pairwise hpos) hp hq).resolve_left hne

omit h

/-- The pieces below a position none straddles tile the positions up to it. -/
theorem Tiles.below {o e cut : Nat} (h : Tiles first past o ps e)
    (hpos : ∀ p ∈ ps, first p < past p) (hcut : ∀ p ∈ ps, first p < cut → past p ≤ cut)
    (hf : o ≤ cut) (hto : cut ≤ e) : Tiles first past o (ps.filter fun p => first p < cut) cut := by
  induction ps generalizing o with
  | nil => exact Nat.le_antisymm hf (Nat.le_trans hto (Nat.le_of_eq h.symm))
  | cons p ps ih =>
    have hb : ∀ q ∈ ps, past p ≤ first q := fun q hq =>
      (h.2.bounds (fun r hr => hpos r (mem_cons_of_mem p hr)) hq).1
    rw [forall_mem_cons] at hpos hcut
    by_cases hp : first p < cut
    · rw [filter_cons_of_pos (by simpa using hp)]
      exact ⟨h.1, ih h.2 hpos.2 hcut.2 (hcut.1 hp)⟩
    · have hn : ps.filter (fun q => first q < cut) = [] := by
        rw [filter_eq_nil_iff]
        intro q hq
        have hq := hb q hq
        simp only [decide_eq_true_eq]
        omega
      rw [filter_cons_of_neg (by simpa using hp), hn]
      have hfst := h.1
      exact Nat.le_antisymm hf (by omega)

theorem tiles_map :
    Tiles Prod.fst Prod.snd o (ps.map fun p => (first p, past p)) e ↔ Tiles first past o ps e := by
  induction ps generalizing o with
  | nil => exact Iff.rfl
  | cons p ps ih => exact and_congr_right fun _ => ih

/-- Where the longest run of whole pieces from `o` ends. -/
def wholeTo (past : ρ → Nat) (whole : ρ → Bool) : Nat → List ρ → Nat
  | o, [] => o
  | o, p :: ps => if whole p then wholeTo past whole (past p) ps else o

/-- A position below which every piece that begins is whole lies in the run of whole pieces. -/
theorem Tiles.le_wholeTo {o e x : Nat} {whole : ρ → Bool} (h : Tiles first past o ps e) (hx : x ≤ e)
    (hw : ∀ p ∈ ps, first p < x → whole p = true) : x ≤ wholeTo past whole o ps := by
  induction ps generalizing o with
  | nil => exact h ▸ hx
  | cons p ps ih =>
    rw [forall_mem_cons] at hw
    rw [wholeTo]
    by_cases hp : whole p = true
    · rw [if_pos hp]
      exact ih h.2 hw.2
    · rw [if_neg hp, ← h.1]
      exact Nat.le_of_not_lt fun hlt => hp (hw.1 hlt)

end RegolithStore.Lib
