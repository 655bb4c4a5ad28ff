import Mathlib.Order.Lattice
import Mathlib.Data.List.Basic

/-! Lists in age order. Each element stamps some keys; of two elements the earlier one has no
stamp of a key above one the later has of it, or, strictly, none at or above it. A walk from the
newest may then end at the first element that has a stamp it may see. -/

namespace RegolithStore.Lib

open List

variable {α κ σ : Type*} (r : σ → σ → Prop) (stamps : α → κ → σ → Prop) {a b : α}

/-- Every stamp of a key in `a` comes before every one in `b`. -/
def Older (a b : α) : Prop := ∀ k q q', stamps a k q → stamps b k q' → r q q'

def InAgeOrder (l : List α) : Prop := l.Pairwise (Older r stamps)

variable {r stamps} {as : List α}

/-- The stamps of `a` are stamps of `as`. -/
def StampedWithin (stamps : α → κ → σ → Prop) (a : α) (as : List α) : Prop :=
  ∀ k q, stamps a k q → ∃ b ∈ as, stamps b k q

theorem StampedWithin.older (ha : StampedWithin stamps a as)
    (h : ∀ x ∈ as, Older r stamps x b) : Older r stamps a b := by
  intro k q q' hq hq'
  obtain ⟨x, hx, hxq⟩ := ha k q hq
  exact h x hx k q q' hxq hq'

theorem StampedWithin.newer (ha : StampedWithin stamps a as)
    (h : ∀ x ∈ as, Older r stamps b x) : Older r stamps b a := by
  intro k q q' hq hq'
  obtain ⟨x, hx, hxq⟩ := ha k q' hq'
  exact h x hx k q q' hq hxq

/-- Neighbours make room for elements that stand to any other as they do. -/
theorem pairwise_splice {R : α → α → Prop} {front block back new : List α}
    (h : (front ++ (block ++ back)).Pairwise R) (hnew : new.Pairwise R)
    (haft : ∀ a ∈ new, ∀ b, (∀ x ∈ block, R x b) → R a b)
    (hbef : ∀ a ∈ new, ∀ b, (∀ x ∈ block, R b x) → R b a) :
    (front ++ (new ++ back)).Pairwise R := by
  obtain ⟨hf, hr, hcross⟩ := pairwise_append.mp h
  obtain ⟨-, hback, hblk⟩ := pairwise_append.mp hr
  refine pairwise_append.mpr ⟨hf, pairwise_append.mpr ⟨hnew, hback, ?_⟩, ?_⟩
  · exact fun a ha b hb => haft a ha b fun x hx => hblk x hx b hb
  · intro a ha b hb
    rcases mem_append.mp hb with hb | hb
    · exact hbef b hb a fun x hx => hcross a ha x (mem_append_left _ hx)
    · exact hcross a ha b (mem_append_right _ hb)

namespace InAgeOrder

variable {l front block back new : List α}

theorem sublist {l' : List α} (h : InAgeOrder r stamps l) (hsub : l'.Sublist l) :
    InAgeOrder r stamps l' := List.Pairwise.sublist hsub h

/-- Neighbours make room for elements that stamp no more than they do. -/
theorem splice (h : InAgeOrder r stamps (front ++ (block ++ back))) (hnew : InAgeOrder r stamps new)
    (hw : ∀ a ∈ new, StampedWithin stamps a block) : InAgeOrder r stamps (front ++ (new ++ back)) :=
  pairwise_splice h hnew (fun a ha _ => (hw a ha).older) fun a ha _ => (hw a ha).newer

/-- An element goes between those older than it and those that share no key with it. -/
theorem insert (h : InAgeOrder r stamps (front ++ back)) (hf : ∀ b ∈ front, Older r stamps b a)
    (hback : ∀ b ∈ back, ∀ k q q', stamps a k q → ¬ stamps b k q') : InAgeOrder r stamps
    (front ++ a :: back) := by
  obtain ⟨h1, h2, hcross⟩ := pairwise_append.mp h
  refine pairwise_append.mpr ⟨h1, .cons (fun b hb k q q' hq hq' => ?_) h2, ?_⟩
  · exact absurd hq' (hback b hb k q q' hq)
  · intro b hb c hc
    rcases mem_cons.mp hc with rfl | hc
    · exact hf b hb
    · exact hcross b hb c hc

variable [LinearOrder σ]

/-- The last element takes stamps newer than any. -/
theorem grow {a' : α} (h : InAgeOrder r stamps (front ++ [a])) {bound : σ}
    (hbnd : ∀ b ∈ front, ∀ k q, stamps b k q → ∀ q', bound < q' → r q q')
    (ha' : ∀ k q, stamps a' k q → stamps a k q ∨ bound < q) : InAgeOrder r stamps (front ++ [a']) := by
  obtain ⟨hf, -, hcross⟩ := pairwise_append.mp h
  refine pairwise_append.mpr ⟨hf, pairwise_singleton _ _, fun b hb c hc => ?_⟩
  obtain rfl := mem_singleton.mp hc
  intro k q q' hq hq'
  rcases ha' k q' hq' with hold | hnew
  · exact hcross b hb a (mem_singleton_self a) k q q' hq hold
  · exact hbnd b hb k q hq q' hnew

/-- The first element from the newest with a stamp at or below `r` has the newest of all. -/
theorem le_of_findSome? (h : InAgeOrder (· ≤ ·) stamps l) {k : κ} {r : σ} {newest : α → Option σ}
    (hs : ∀ a q, newest a = some q →
      stamps a k q ∧ ∀ q', stamps a k q' → q' ≤ r → q' ≤ q)
    (hn : ∀ a, newest a = none → ∀ q, stamps a k q → ¬ q ≤ r) {q : σ}
    (hf : l.reverse.findSome? newest = some q) (ha : a ∈ l) {q' : σ}
    (hq' : stamps a k q') (hle : q' ≤ r) : q' ≤ q := by
  obtain ⟨later, b, earlier, hspl, hb, hlater⟩ := findSome?_eq_some_iff.mp hf
  have hl : l = earlier.reverse ++ b :: later.reverse := by
    rw [← reverse_reverse l, hspl]
    simp
  rw [hl] at h ha
  rcases mem_append.mp ha with ha | ha
  · have holder := (pairwise_append.mp h).2.2 a ha b mem_cons_self
    exact holder k q' q hq' (hs b q hb).1
  · rcases mem_cons.mp ha with rfl | ha
    · exact (hs _ q hb).2 q' hq' hle
    · exact absurd hle (hn a (hlater a (mem_reverse.mp ha)) q' hq')

end InAgeOrder

end RegolithStore.Lib
