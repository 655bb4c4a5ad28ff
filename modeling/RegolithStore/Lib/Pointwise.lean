import Mathlib.Data.List.Basic

/-! Lists of one length whose entries are related place by place, read through `getElem?`: the
slots of a machine before a step and after it; and lists one entry longer. -/

namespace RegolithStore.Lib

open List

variable {α β : Type*} {xs : List α} {f : α → α} {p : α → Prop} {i : Nat} {b x a : α}

theorem getElem?_append_singleton {b : α}
    (h : (xs ++ [x])[i]? = some b) : xs[i]? = some b ∨ i = xs.length ∧ b = x := by
  rcases Nat.lt_or_ge i xs.length with hlt | hge
  · exact .inl ((getElem?_append_left hlt).symm.trans h)
  · rw [getElem?_append_right hge] at h
    obtain ⟨hlt, rfl⟩ := List.getElem?_eq_some_iff.mp h
    refine .inr ⟨?_, by simp⟩
    rw [length_singleton] at hlt
    omega

theorem mem_modify {k : Nat} (h : b ∈ xs.modify k f) :
    ∃ i a, xs[i]? = some a ∧ (i = k ∧ b = f a ∨ i ≠ k ∧ b = a) := by
  obtain ⟨i, hi⟩ := mem_iff_getElem?.mp h
  rw [getElem?_modify] at hi
  obtain ⟨a, ha, rfl⟩ := Option.map_eq_some_iff.mp hi
  by_cases hik : k = i
  · exact ⟨i, a, ha, .inl ⟨hik.symm, if_pos hik⟩⟩
  · exact ⟨i, a, ha, .inr ⟨fun heq => hik heq.symm, if_neg hik⟩⟩

theorem lt_of_getElem? {i : Nat} (h : xs[i]? = some a) : i < xs.length :=
  (List.getElem?_eq_some_iff.mp h).1

theorem mem_concat : a ∈ xs ++ [x] ↔ a ∈ xs ∨ a = x := by
  rw [mem_append, mem_singleton]

theorem forall_mem_concat : (∀ a ∈ xs ++ [x], p a) ↔ (∀ a ∈ xs, p a) ∧ p x := by
  rw [forall_mem_append, forall_mem_singleton]

theorem exists_mem_concat : (∃ a ∈ xs ++ [x], p a) ↔ (∃ a ∈ xs, p a) ∨ p x := by
  simp [or_and_right, exists_or]

/-- The entries of two lists of one length are related place by place. -/
def Pointwise (R : α → α → Prop) (xs ys : List α) : Prop :=
  xs.length = ys.length ∧ ∀ (i : Nat) (a b : α), xs[i]? = some a → ys[i]? = some b → R a b

namespace Pointwise

variable {R : α → α → Prop} {xs ys zs : List α}

theorem refl (hR : ∀ a, R a a) (xs : List α) : Pointwise R xs xs :=
  ⟨rfl, fun _ a _ ha hb => Option.mem_unique ha hb ▸ hR a⟩

variable (h : Pointwise R xs ys)

include h

theorem get (ha : xs[i]? = some a) : ∃ b, ys[i]? = some b ∧ R a b := by
  obtain ⟨hlt, -⟩ := List.getElem?_eq_some_iff.mp ha
  have hb := getElem?_eq_getElem (h.1 ▸ hlt)
  exact ⟨_, hb, h.2 i a _ ha hb⟩

theorem get_old (hb : ys[i]? = some b) : ∃ a, xs[i]? = some a ∧ R a b := by
  obtain ⟨hlt, -⟩ := List.getElem?_eq_some_iff.mp hb
  have ha := getElem?_eq_getElem (h.1.symm ▸ hlt)
  exact ⟨_, ha, h.2 i _ b ha hb⟩

theorem mem_old (hb : b ∈ ys) : ∃ a ∈ xs, R a b := by
  obtain ⟨i, hi⟩ := mem_iff_getElem?.mp hb
  obtain ⟨a, ha, hab⟩ := h.get_old hi
  exact ⟨a, mem_of_getElem? ha, hab⟩

theorem forall_mem {p q : α → Prop} (hp : ∀ a ∈ xs, p a)
    (hpq : ∀ {a b}, R a b → p a → q b) : ∀ b ∈ ys, q b := fun _ hb => by
  obtain ⟨a, ha, hab⟩ := h.mem_old hb
  exact hpq hab (hp a ha)

omit h

theorem trans (hR : ∀ a b c, R a b → R b c → R a c) (h : Pointwise R xs ys)
    (h' : Pointwise R ys zs) : Pointwise R xs zs := by
  refine ⟨h.1.trans h'.1, fun i a c ha hc => ?_⟩
  obtain ⟨b, hb, hab⟩ := h.get ha
  exact hR a b c hab (h'.2 i b c hb hc)

theorem modify (hR : ∀ a, R a a) (xs : List α) (i : Nat) (hf : ∀ a, R a (f a)) :
    Pointwise R xs (xs.modify i f) := by
  refine ⟨by simp, fun j a b ha hb => ?_⟩
  rw [getElem?_modify, ha] at hb
  cases hb
  by_cases hij : i = j
  · simpa only [if_pos hij] using hf a
  · simpa only [if_neg hij] using hR a

theorem map (xs : List α) (hf : ∀ a ∈ xs, R a (f a)) : Pointwise R xs (xs.map f) := by
  refine ⟨(length_map _).symm, fun i a b ha hb => ?_⟩
  rw [getElem?_map, ha] at hb
  cases hb
  exact hf a (mem_of_getElem? ha)

theorem filterMap_eq {f : α → Option β} (hf : ∀ a b, R a b → f a = f b) (h : Pointwise R xs ys) :
    xs.filterMap f = ys.filterMap f := by
  have hmap : xs.map f = ys.map f := by
    refine ext_getElem? fun i => ?_
    rw [getElem?_map, getElem?_map]
    cases ha : xs[i]? with
    | none =>
      rw [getElem?_eq_none (h.1 ▸ getElem?_eq_none_iff.mp ha)]
    | some a =>
      obtain ⟨b, hb, hab⟩ := h.get ha
      rw [hb, Option.map_some, Option.map_some, hf a b hab]
  rw [← Function.id_comp f, ← filterMap_map, ← filterMap_map, hmap]

end Pointwise

end RegolithStore.Lib
