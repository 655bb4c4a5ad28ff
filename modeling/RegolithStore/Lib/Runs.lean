import Mathlib.Data.Option.Basic

/-! Runs of a transition function that may refuse an action. What every step keeps
holds after every run; a property of each step of a run is stated by `Along`, in the
state the step is taken from. -/

namespace RegolithStore.Lib

variable {σ α : Type*} (step : σ → α → Option σ)

theorem guarded_eq_some {p : Prop} [Decidable p] {a b : α} :
    (if p then some a else none) = some b ↔ p ∧ a = b := by
  rw [Option.ite_none_right_eq_some, Option.some.injEq]

def run : σ → List α → Option σ
  | s, [] => some s
  | s, a :: as => (step s a).bind fun s' => run s' as

/-- Every step of the run is taken where `C` allows it. -/
def Along (C : σ → α → Prop) : σ → List α → Prop
  | _, [] => True
  | s, a :: as => C s a ∧ ∀ s', step s a = some s' → Along C s' as

variable {step} {C : σ → α → Prop} {as : List α} {s s' : σ}

@[simp] theorem run_nil (s : σ) : run step s [] = some s := rfl

theorem run_cons {a : α} :
    run step s (a :: as) = some s' ↔ ∃ t, step s a = some t ∧ run step t as = some s' := by
  rw [run, Option.bind_eq_some_iff]

theorem run_append {as bs : List α} :
    run step s (as ++ bs) = some s' ↔ ∃ t, run step s as = some t ∧ run step t bs = some s' := by
  induction as generalizing s with
  | nil => simp
  | cons a as ih =>
    simp only [List.cons_append, run_cons, ih]
    exact ⟨fun ⟨t, ht, u, hu, h⟩ => ⟨u, ⟨t, ht, hu⟩, h⟩, fun ⟨u, ⟨t, ht, hu⟩, h⟩ => ⟨t, ht, u, hu, h⟩⟩

/-- What every allowed step keeps, every run of allowed steps keeps. -/
theorem run_invariant {I : σ → Prop} (hstep : ∀ s a s', I s → C s a → step s a = some s' → I s')
    (hs : I s) (hC : Along step C s as) (hrun : run step s as = some s') : I s' := by
  induction as generalizing s with
  | nil => exact Option.some.inj hrun ▸ hs
  | cons a as ih =>
    obtain ⟨t, ht, hrun⟩ := run_cons.mp hrun
    exact ih (hstep s a t hs hC.1 ht) (hC.2 t ht) hrun

theorem along_append {s : σ} {as bs : List α} : Along step C s (as ++ bs) ↔
      Along step C s as ∧ ∀ t, run step s as = some t → Along step C t bs := by
  induction as generalizing s with
  | nil => simp [Along]
  | cons a as ih =>
    simp only [List.cons_append, Along, ih, run_cons, and_assoc]
    refine and_congr_right fun _ => ⟨fun h => ⟨fun t ht => (h t ht).1, ?_⟩, fun h t ht => ?_⟩
    · rintro u ⟨t, ht, hu⟩
      exact (h t ht).2 u hu
    · exact ⟨h.1 t ht, fun u hu => h.2 u ⟨t, ht, hu⟩⟩

theorem along_and {D : σ → α → Prop} : Along step (fun s a => C s a ∧ D s a) s as ↔
    Along step C s as ∧ Along step D s as := by
  induction as generalizing s with
  | nil => exact ⟨fun _ => ⟨trivial, trivial⟩, fun _ => trivial⟩
  | cons a as ih =>
    simp only [Along, ih]
    exact ⟨fun h => ⟨⟨h.1.1, fun t ht => (h.2 t ht).1⟩, h.1.2, fun t ht => (h.2 t ht).2⟩,
      fun h => ⟨⟨h.1.1, h.2.1⟩, fun t ht => ⟨h.1.2 t ht, h.2.2 t ht⟩⟩⟩

instance decidableAlong (C : σ → α → Prop) [∀ s a, Decidable (C s a)] :
    ∀ s as, Decidable (Along step C s as)
  | _, [] => isTrue trivial
  | s, a :: as =>
    match h : step s a with
    | none => decidable_of_iff (C s a) ⟨fun hC => ⟨hC, fun t ht => by simp [h] at ht⟩, And.left⟩
    | some t =>
      have := decidableAlong C t as
      decidable_of_iff (C s a ∧ Along step C t as)
        ⟨fun hC => ⟨hC.1, fun t' ht' => Option.some.inj (h.symm.trans ht') ▸ hC.2⟩,
          fun hC => ⟨hC.1, hC.2 t h⟩⟩

theorem along_of_forall (h : ∀ a ∈ as, ∀ s, C s a) (s : σ) :
    Along step C s as := by
  induction as generalizing s with
  | nil => trivial
  | cons a as ih =>
    rw [List.forall_mem_cons] at h
    exact ⟨h.1 s, fun t _ => ih h.2 t⟩

/-- What no action of the run changes is unchanged after it. -/
theorem run_frame {β : Type*} {f : σ → β} (h : ∀ a ∈ as, ∀ s s', step s a = some s' → f s' = f s)
    (hrun : run step s as = some s') : f s' = f s := by
  induction as generalizing s with
  | nil => rw [Option.some.inj hrun]
  | cons a as ih =>
    rw [List.forall_mem_cons] at h
    obtain ⟨t, ht, hrun⟩ := run_cons.mp hrun
    rw [ih h.2 hrun, h.1 s t ht]

end RegolithStore.Lib
