import Mathlib.Data.List.Forall2
import Mathlib.Order.MinMax

/-! A walk over places, each a list of sources, under a running mark: every source of a
place raises the mark before any of them is visited, and a visit may end the walk. Where
what a source holds is above every mark of the places after it, and a visit looks at the
mark only to ask whether an item is above it, the walk is one fold over everything held,
under the largest mark of all. -/

namespace RegolithStore.Lib

open List

variable {τ ε α σ β : Type*} [LinearOrder α] {R : ε → τ → Prop} {bs : List τ} {as : List ε}

/-- The largest mark of `sources`, or `m` if that is larger. -/
def raise (mark : τ → α) (m : α) (sources : List τ) : α :=
  sources.foldl (fun m t => max m (mark t)) m

/-- The sources of each place whose marks count, and those visited. -/
def walkPlaces (mark : τ → α) (visit : α → σ → τ → Except β σ) :
    α → σ → List (List τ × List τ) → Except β (σ × α)
  | m, s, [] => .ok (s, m)
  | m, s, (gathered, visited) :: rest =>
    let m := raise mark m gathered
    match visited.foldlM (visit m) s with
    | .error b => .error b
    | .ok s => walkPlaces mark visit m s rest

section Raise

variable {mark : τ → α} {m q : α} {ts us : List τ}

@[simp] theorem raise_nil : raise mark m [] = m := rfl

theorem raise_append : raise mark m (ts ++ us) = raise mark (raise mark m ts) us :=
  foldl_append

theorem raise_lt : raise mark m ts < q ↔ m < q ∧ ∀ t ∈ ts, mark t < q := by
  induction ts generalizing m with
  | nil => simp
  | cons t ts ih =>
    rw [forall_mem_cons, ← and_assoc, ← max_lt_iff]
    exact ih

theorem raise_le : raise mark m ts ≤ q ↔ m ≤ q ∧ ∀ t ∈ ts, mark t ≤ q := by
  induction ts generalizing m with
  | nil => simp
  | cons t ts ih =>
    rw [forall_mem_cons, ← and_assoc, ← max_le_iff]
    exact ih

theorem lt_raise : q < raise mark m ts ↔ q < m ∨ ∃ t ∈ ts, q < mark t := by
  rw [← not_le, raise_le, not_and_or, not_le]
  simp

theorem raise_eq_self (h : ∀ t ∈ ts, mark t ≤ m) : raise mark m ts = m :=
  le_antisymm (raise_le.mpr ⟨le_rfl, h⟩) (raise_le.mp le_rfl).1

end Raise

theorem exists_of_forall₂ (h : List.Forall₂ R as bs) {a : ε} (ha : a ∈ as) : ∃ b ∈ bs, R a b := by
  induction h with
  | nil => exact absurd ha not_mem_nil
  | cons hab _ ih =>
    rcases mem_cons.mp ha with rfl | ha
    · exact ⟨_, mem_cons_self, hab⟩
    · obtain ⟨b, hb, hab⟩ := ih ha
      exact ⟨b, mem_cons_of_mem _ hb, hab⟩

theorem pairwise_of_forall₂ {S : τ → τ → Prop} {S' : ε → ε → Prop} (h : List.Forall₂ R as bs) (hbs : bs.Pairwise S)
    (hS : ∀ a ∈ as, ∀ a' b b', R a b → R a' b' → S b b' → S' a a') : as.Pairwise S' := by
  induction h with
  | nil => exact .nil
  | cons hab h ih =>
    obtain ⟨hf, hbs⟩ := pairwise_cons.mp hbs
    rw [forall_mem_cons] at hS
    refine pairwise_cons.mpr ⟨fun a' ha' => ?_, ih hbs hS.2⟩
    obtain ⟨b', hb', hab'⟩ := exists_of_forall₂ h ha'
    exact hS.1 a' _ b' hab hab' (hf b' hb')

theorem foldlM_congr_mem {f g : σ → ε → Except β σ} {es : List ε}
    (h : ∀ e ∈ es, ∀ s, f s e = g s e) (s : σ) : es.foldlM f s = es.foldlM g s := by
  induction es generalizing s with
  | nil => rfl
  | cons e es ih =>
    rw [forall_mem_cons] at h
    rw [foldlM_cons, foldlM_cons, h.1]
    exact bind_congr fun s => ih h.2 s

theorem walkPlaces_map {mark : τ → α} {visit : α → σ → τ → Except β σ} {f : ε → τ} {mark' : ε → α}
    {visit' : α → σ → ε → Except β σ} (hm : ∀ t, mark (f t) = mark' t)
    (hvisit : ∀ m s t, visit m s (f t) = visit' m s t) (places : List (List ε × List ε)) (m : α)
    (s : σ) : walkPlaces mark visit m s (places.map fun p => (p.1.map f, p.2.map f)) =
      walkPlaces mark' visit' m s places := by
  induction places generalizing m s with
  | nil => rfl
  | cons p rest ih =>
    have hraise : raise mark m (p.1.map f) = raise mark' m p.1 := by
      simp only [raise, foldl_map, hm]
    rw [map_cons, walkPlaces, walkPlaces, hraise, foldlM_map]
    simp only [hvisit]
    cases p.2.foldlM (visit' (raise mark' m p.1)) s with
    | error b => rfl
    | ok s => exact ih _ s

theorem walkPlaces_append {mark : τ → α} {visit : α → σ → τ → Except β σ}
    (places rest : List (List τ × List τ)) (m : α) (s : σ) :
    walkPlaces mark visit m s (places ++ rest) =
      (walkPlaces mark visit m s places).bind fun p => walkPlaces mark visit p.2 p.1 rest := by
  induction places generalizing m s with
  | nil => rfl
  | cons p places ih =>
    rw [cons_append, walkPlaces, walkPlaces]
    cases p.2.foldlM (visit (raise mark m p.1)) s with
    | error b => rfl
    | ok s => exact ih _ s

/-- A place that raises no mark, and whose sources no visit looks at, may be left out. -/
theorem walkPlaces_filter {mark : τ → α} {visit : α → σ → τ → Except β σ}
    {keep : List τ × List τ → Bool} {places : List (List τ × List τ)}
    (h : ∀ p ∈ places, keep p = false →
      (∀ t ∈ p.1, ∀ m, mark t ≤ m) ∧ ∀ t ∈ p.2, ∀ m s, visit m s t = .ok s) (m : α) (s : σ) :
    walkPlaces mark visit m s (places.filter keep) = walkPlaces mark visit m s places := by
  induction places generalizing m s with
  | nil => rfl
  | cons p rest ih =>
    obtain ⟨hp, h⟩ := forall_mem_cons.mp h
    cases hk : keep p with
    | true =>
      rw [filter_cons_of_pos hk, walkPlaces, walkPlaces]
      cases p.2.foldlM (visit (raise mark m p.1)) s with
      | error b => rfl
      | ok s => exact ih h _ s
    | false =>
      obtain ⟨hm, hvisit⟩ := hp hk
      have hskip : ∀ ts : List τ, (∀ t ∈ ts, visit m s t = .ok s) →
          ts.foldlM (visit m) s = .ok s := fun ts hts => by
        induction ts with
        | nil => rfl
        | cons t ts ih =>
          rw [forall_mem_cons] at hts
          rw [foldlM_cons, hts.1]
          exact ih hts.2
      rw [filter_cons_of_neg (by simp [hk]), ih h, walkPlaces, raise_eq_self fun t ht => hm t ht m,
        hskip p.2 fun t ht => hvisit t ht m s]

theorem foldlM_flatMap {held : τ → List ε} {step : σ → ε → Except β σ} (ts : List τ) (s : σ) :
    (ts.flatMap held).foldlM step s = ts.foldlM (fun s t => (held t).foldlM step s) s := by
  induction ts generalizing s with
  | nil => rfl
  | cons t ts ih =>
    rw [flatMap_cons, foldlM_append, foldlM_cons]
    exact bind_congr ih

section Walk

variable {mark : τ → α} {seq : ε → α} {held : τ → List ε} {visit : α → σ → τ → Except β σ}
  {step : α → σ → ε → Except β σ}

/-- A step looks at the mark only to ask whether the item is above it. -/
def Steady (seq : ε → α) (step : α → σ → ε → Except β σ) : Prop :=
  ∀ m m' s e, m < seq e → m' < seq e → step m s e = step m' s e

/-- What the places before hold is above the marks of the places after. -/
def AboveLater (mark : τ → α) (seq : ε → α) (held : τ → List ε)
    (places : List (List τ × List τ)) : Prop :=
  places.Pairwise fun p q => ∀ t ∈ p.1, ∀ e ∈ held t, ∀ u ∈ q.1, mark u < seq e

theorem Steady.raise (hsteady : Steady seq step) {m : α} {e : ε} {ts : List τ}
    (hlater : ∀ u ∈ ts, mark u < seq e) (s : σ) : step m s e = step (raise mark m ts) s e := by
  by_cases hm : m < seq e
  · exact hsteady _ _ s e hm (raise_lt.mpr ⟨hm, hlater⟩)
  · rw [raise_eq_self fun u hu => ((hlater u hu).trans_le (not_lt.mp hm)).le]

/-- The walk is one fold under the largest mark. -/
theorem walkPlaces_eq (hvisit : ∀ m s t, visit m s t = (held t).foldlM (step m) s)
    (hsteady : Steady seq step) {places : List (List τ × List τ)}
    (hh : ∀ p ∈ places, p.2.flatMap held = p.1.flatMap held)
    (habv : AboveLater mark seq held places) (m : α) (s : σ) : walkPlaces mark visit m s places =
      (((places.flatMap Prod.fst).flatMap held).foldlM
        (step (raise mark m (places.flatMap Prod.fst))) s).map
          fun s => (s, raise mark m (places.flatMap Prod.fst)) := by
  induction places generalizing m s with
  | nil => rfl
  | cons p places ih =>
    obtain ⟨gathered, visited⟩ := p
    rw [forall_mem_cons] at hh
    obtain ⟨hf, habv⟩ := pairwise_cons.mp habv
    -- the marks still to come are below everything this place holds
    have hpl : visited.foldlM (visit (raise mark m gathered)) s = (gathered.flatMap held).foldlM
          (step (raise mark m (gathered ++ places.flatMap Prod.fst))) s := by
      rw [← hh.1, foldlM_flatMap]
      refine foldlM_congr_mem (fun t ht s => ?_) s
      rw [hvisit]
      refine foldlM_congr_mem (fun e he s => ?_) s
      have hmem : e ∈ gathered.flatMap held := hh.1 ▸ mem_flatMap.mpr ⟨t, ht, he⟩
      obtain ⟨u, hu, heu⟩ := mem_flatMap.mp hmem
      rw [raise_append]
      refine hsteady.raise (fun w hw => ?_) s
      obtain ⟨q, hq, hwq⟩ := mem_flatMap.mp hw
      exact hf q hq u hu e heu w hwq
    rw [walkPlaces, hpl, flatMap_cons, flatMap_append, foldlM_append]
    cases (gathered.flatMap held).foldlM
      (step (raise mark m (gathered ++ places.flatMap Prod.fst))) s with
    | error b => rfl
    | ok s =>
      simp only [ih hh.2 habv, raise_append]
      rfl

end Walk

end RegolithStore.Lib
