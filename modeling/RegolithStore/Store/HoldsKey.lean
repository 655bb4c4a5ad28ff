import RegolithStore.Store.SourceWalk

/-! Whether a source holds a key of a range (`memtable/key_walk.rs`, `sstable/key_walk.rs`): one
seek to the range's first key, and the range tombstones that reach into it. -/

namespace RegolithStore

open Lib List

variable {e : Entry} {first last : Key} {m : MemTable}

theorem find?_userKey_le {es : List Entry} (hes : es.Pairwise Entry.Before) (he : e ∈ es) (hfst : first ≤ e.userKey) :
    ∃ found, es.find? (fun e => decide (first ≤ e.userKey)) = some found ∧
      found.userKey ≤ e.userKey := by
  cases hf : es.find? fun e => decide (first ≤ e.userKey) with
  | none => exact absurd (decide_eq_true hfst) (find?_eq_none.mp hf e he)
  | some found =>
    refine ⟨found, rfl, ?_⟩
    obtain ⟨-, front, back, rfl, hfrt⟩ := find?_eq_some_iff_append.mp hf
    rcases mem_append.mp he with hin | hin
    · have hno := hfrt e hin
      simp [hfst] at hno
    · rcases mem_cons.mp hin with rfl | hin
      · exact le_rfl
      · exact (rel_of_pairwise_cons (pairwise_append.mp hes).2.1 hin).userKey_le

namespace MemTable

/-- `holds_key_in`: one seek, then the range tombstones. -/
def holdsKeyIn (m : MemTable) (first last : Key) : Bool :=
  (match m.entries.find? fun e => decide (first ≤ e.userKey) with
    | some e => decide (e.userKey ≤ last)
    | none => false) ||
  m.rangeTombstones.any fun t => decide (t.start ≤ last) && decide (first < t.stop)

variable (hm : m.entries.Pairwise Entry.Before)

include hm

theorem holdsKeyIn_iff : m.holdsKeyIn first last = true ↔
    (∃ e ∈ m.entries, first ≤ e.userKey ∧ e.userKey ≤ last) ∨
      ∃ t ∈ m.rangeTombstones, t.start ≤ last ∧ first < t.stop := by
  rw [holdsKeyIn, Bool.or_eq_true]
  refine or_congr ⟨?_, ?_⟩ (by simp)
  · intro h
    cases hf : m.entries.find? fun e => decide (first ≤ e.userKey) with
    | none => simp [hf] at h
    | some e =>
      rw [hf] at h
      have hfst := (find?_eq_some_iff_append.mp hf).1
      exact ⟨e, mem_of_find?_eq_some hf, of_decide_eq_true hfst, of_decide_eq_true h⟩
  · rintro ⟨e, he, hfst, hl⟩
    obtain ⟨found, hf, hle⟩ := find?_userKey_le hm he hfst
    rw [hf]
    exact decide_eq_true (hle.trans hl)

theorem not_holds_of_holdsKeyIn {k : Key} (h : m.holdsKeyIn first last = false)
    (hf : first ≤ k) (hl : k ≤ last) : ¬ (Source.memtable m).Holds k := by
  rw [Bool.eq_false_iff, ne_eq, holdsKeyIn_iff hm] at h
  rintro (⟨e, he, rfl⟩ | ⟨t, ht, hk⟩)
  · exact h (.inl ⟨e, he, hf, hl⟩)
  · exact h (.inr ⟨t, ht, hk.1.trans hl, hf.trans_lt hk.2⟩)

end MemTable

namespace LiveSst

/-- `holds_key_in`: the range tombstones, then one seek. -/
def holdsKeyIn (f : LiveSst) (first last : Key) : Bool :=
  (f.tombstones.any fun t => decide (t.start ≤ last) && decide (first < t.stop)) ||
    match f.reader.entries.find? fun e => decide (first ≤ e.userKey) with
    | some e => decide (e.userKey ≤ last)
    | none => false

end LiveSst

end RegolithStore
