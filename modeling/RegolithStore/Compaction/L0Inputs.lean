import Mathlib.Logic.Relation
import RegolithStore.Compaction.Closure

/-! What a compaction of a key range takes from L0 (`l0_inputs`). It takes every table that meets
the range, and older tables that a chain of meeting key ranges joins to those: the keys that the
tables taken span have no gap but inside the range. What is left out and older than a table taken
meets none of them, so the tables taken may go below the rest of L0. -/

namespace RegolithStore

open Lib List Function

variable {files inputs : List LiveSst} {start stop : Option Key} {m : List Bool} {newest : Nat}
  {f g : LiveSst}

/-- The table is joined to one that meets the range by tables taken. -/
def Joined (start stop : Option Key) (inputs : List LiveSst) (f : LiveSst) : Prop :=
  ∃ g ∈ inputs, fileOverlapsRange g start stop = true ∧
    Relation.ReflTransGen (fun a b => b ∈ inputs ∧ a.Meets b) g f

theorem Joined.mono {inputs' : List LiveSst} (h : Joined start stop inputs f)
    (hsub : inputs ⊆ inputs') : Joined start stop inputs' f := by
  obtain ⟨g, hg, ho, hc⟩ := h
  exact ⟨g, hsub hg, ho, hc.lift id fun a b hab => ⟨hsub hab.1, hab.2⟩⟩

/-- A chain has no gap beside the range: a table there that does not lie past its end meets it. -/
theorem Joined.exists_meets (h : Joined start stop inputs g) (hf : f.smallest ≤ f.largest)
    (hside : (∃ s ∈ start, f.largest < s) ∧ g.smallest ≤ f.largest ∨
      (∃ e ∈ stop, e ≤ f.smallest) ∧ f.smallest ≤ g.largest) :
    ∃ g', Joined start stop inputs g' ∧ g'.Meets f := by
  obtain ⟨g₀, hg0, ho, hc⟩ := h
  induction hc with
  | refl =>
    refine ⟨g₀, ⟨g₀, hg0, ho, .refl⟩, ?_⟩
    obtain ⟨hstrt, hstop⟩ := fileOverlapsRange_iff.mp ho
    rcases hside with ⟨⟨s, hs, hlt⟩, hle⟩ | ⟨⟨e, he, hlt⟩, hle⟩
    · exact ⟨hle, hf.trans (hlt.le.trans (hstrt s hs))⟩
    · exact ⟨((hstop e he).le.trans hlt).trans hf, hle⟩
  | @tail b c hab hbc ih =>
    by_cases hm : c.Meets f
    · exact ⟨c, ⟨g₀, hg0, ho, hab.tail hbc⟩, hm⟩
    · refine ih ?_
      rcases hside with ⟨hs, hle⟩ | ⟨he, hle⟩
      · have hlt : c.largest < f.smallest := not_le.mp fun h => hm ⟨hle, h⟩
        exact .inl ⟨hs, hbc.2.1.trans (hlt.le.trans hf)⟩
      · have hlt : f.largest < c.smallest := not_le.mp fun h => hm ⟨h, hle⟩
        exact .inr ⟨he, hf.trans (hlt.le.trans hbc.2.2)⟩

theorem exists_keyRange {range : Key × Key} (h : keyRange inputs = some range) :
    (∃ f ∈ inputs, f.smallest = range.1) ∧ ∃ f ∈ inputs, f.largest = range.2 := by
  cases inputs with
  | nil => cases h
  | cons f fs =>
    cases h
    refine foldlRecOn (motive := fun range : Key × Key => (∃ g ∈ f :: fs, g.smallest = range.1) ∧
      ∃ g ∈ f :: fs, g.largest = range.2) fs _ ⟨⟨f, mem_cons_self, rfl⟩, f, mem_cons_self, rfl⟩ ?_
    rintro range ⟨hlo, hhi⟩ g hg
    constructor <;> dsimp only <;> split_ifs
    exacts [⟨g, .tail _ hg, rfl⟩, hlo, ⟨g, .tail _ hg, rfl⟩, hhi]

/-- A round marks only tables joined to those marked. -/
theorem joined_growL0 (hfiles : ∀ f ∈ files, f.smallest ≤ f.largest) (hm : m.length = files.length)
    (h : ∀ f ∈ picked files m, Joined start stop (picked files m) f) :
    ∀ f ∈ picked files (growL0 files newest m),
      Joined start stop (picked files (growL0 files newest m)) f := by
  intro f hf
  have hsub : picked files m ⊆ picked files (growL0 files newest m) := fun g hg =>
    have ⟨i, hi, hmark⟩ := mem_picked.mp hg
    mem_picked.mpr ⟨i, hi, growL0_le hm i hmark⟩
  cases hr : keyRange (picked files m) with
  | none =>
    rw [growL0, hr] at hf ⊢
    exact h f hf
  | some range =>
    obtain ⟨i, hi, hmark⟩ := mem_picked.mp hf
    rw [getElem?_growL0 newest hm hr, hi, Option.bind_some] at hmark
    obtain ⟨b, hb, hor⟩ := Option.map_eq_some_iff.mp hmark
    rcases Bool.or_eq_true_iff.mp hor with rfl | hnew
    · exact (h f (mem_picked.mpr ⟨i, hi, hb⟩)).mono hsub
    by_cases hmeet : fileOverlapsRange f start stop = true
    · exact ⟨f, hf, hmeet, .refl⟩
    have hends : range.1 ≤ f.largest ∧ f.smallest ≤ range.2 := by
      simpa [fileOverlapsRange_iff, lt_succBytes_iff] using (Bool.and_eq_true_iff.mp hnew).2
    have hord := hfiles f (mem_of_getElem? hi)
    -- the table beside the range lies between the ends of those taken
    have hmet : ∃ g, Joined start stop (picked files m) g ∧ g.Meets f := by
      obtain ⟨⟨lo, hlo, hlo'⟩, hi, hhi, hhi'⟩ := exists_keyRange hr
      rw [fileOverlapsRange_iff, not_and_or] at hmeet
      push Not at hmeet
      rcases hmeet with hs | he
      · exact (h lo hlo).exists_meets hord (.inl ⟨hs, hlo' ▸ hends.1⟩)
      · exact (h hi hhi).exists_meets hord (.inr ⟨he, hhi' ▸ hends.2⟩)
    obtain ⟨g, hg, hgf⟩ := hmet
    obtain ⟨g₀, hg0, ho, hc⟩ := hg.mono hsub
    exact ⟨g₀, hg0, ho, hc.tail ⟨hf, hgf⟩⟩

/-- The version with `inputs` below the rest of its L0. -/
def Version.moveBelow (v : Version) (inputs : List LiveSst) : Version :=
  { v with
    levels := update v.levels 0 <|
      (v.levels 0).filter (fun f => decide (f.id ∈ inputs.map LiveSst.id)) ++
        (v.levels 0).filter fun f => decide (f.id ∉ inputs.map LiveSst.id) }

theorem levels_moveBelow {v : Version} {l : Nat} (hl : l ≠ 0) :
    (v.moveBelow inputs).levels l = v.levels l := update_of_ne hl ..

/-- The tables of L0 that say something about a key stand to each other as before. -/
theorem Version.Laid.holders_moveBelow {v : Version} (hv : v.Laid) (start stop : Option Key)
    (k : Key) : holders k ((v.moveBelow (l0Inputs (v.levels 0) start stop)).levels 0).reverse =
      holders k (v.levels 0).reverse := by
  change _ = holders k (v.layer 0)
  rw [hv.holders_split (fun f hf => mem_of_mem_l0Inputs hf) (drags_of_l0Inputs hv start stop k)]
  change filter _ (reverse (_ ++ _)) =
    filter _ (filter _ (reverse _)) ++ filter _ (filter _ (reverse _))
  simp only [reverse_append, filter_append, filter_reverse, filter_filter, Bool.and_comm]

/-- The loop ends, with the tables that meet the range and the older ones they drag with them;
these may go below the rest of L0. -/
theorem l0Inputs_closed (hfiles : ∀ f ∈ files, f.smallest ≤ f.largest) (start stop : Option Key) :
    ∃ newest m, growL0 files newest m = m ∧ m.length = files.length ∧
      l0Inputs files start stop = picked files m ∧ (l0Inputs files start stop).Sublist files ∧
      (∀ (i : Nat) f, files[i]? = some f → fileOverlapsRange f start stop = true →
        m[i]? = some true) ∧
      (∀ (i j : Nat) f, files[i]? = some f → m[i]? = some false → m[j]? = some true → i < j →
        ∀ g ∈ l0Inputs files start stop, ¬ f.Meets g) ∧
      (∀ (i : Nat) f, files[i]? = some f → m[i]? = some true →
        fileOverlapsRange f start stop = false →
        (∃ j > i, ∃ g, files[j]? = some g ∧ fileOverlapsRange g start stop = true) ∧
          Joined start stop (l0Inputs files start stop) f) ∧
      (l0Inputs files start stop = [] ↔ ∀ f ∈ files, fileOverlapsRange f start stop = false) ∧
      ∀ v : Version, v.Laid → v.levels 0 = files → ∀ k op r,
        (v.moveBelow (l0Inputs files start stop)).get op k r = v.get op k r := by
  obtain ⟨newest, m, heq, hlen, hstab, hnew, hnewest, hmeets, hjoin⟩ :=
    exists_l0Inputs_marks files start stop (P := fun m =>
      (∀ (i : Nat) f, files[i]? = some f → fileOverlapsRange f start stop = true →
        m[i]? = some true) ∧ ∀ f ∈ picked files m, Joined start stop (picked files m) f)
      (fun newest m hm h => ⟨fun i f hf hover => growL0_le hm i (h.1 i f hf hover),
        joined_growL0 hfiles hm h.2⟩)
      ⟨fun i f hf hover => by rw [getElem?_map, hf, Option.map_some, hover], fun f hf => by
        obtain ⟨i, hi, hmark⟩ := mem_picked.mp hf
        rw [getElem?_map, hi] at hmark
        exact ⟨f, hf, Option.some.inj hmark, .refl⟩⟩
  have hle : ∀ {j : Nat}, m[j]? = some true → j ≤ newest := fun hj =>
    not_lt.mp fun hlt => hnew _ hlt hj
  have hapart : ∀ (i j : Nat) f, files[i]? = some f → m[i]? = some false → m[j]? = some true →
      i < j → ∀ g ∈ picked files m, ¬ f.Meets g := fun i j f hf hi hj hij g hg =>
    not_meets_of_stable hlen hstab hf (hij.trans_le (hle hj)) (by simp [hi]) hg
  rw [heq]
  refine ⟨newest, m, hstab, hlen, rfl, ?_, hmeets, hapart, fun i f hf hi hover => ⟨?_,
    hjoin f (mem_picked.mpr ⟨i, hf, hi⟩)⟩, ⟨fun hnil f hf => ?_, fun hnone => ?_⟩,
    fun v hv hzero k op r => Version.get_of_holders (fun l hl => levels_moveBelow hl) ?_⟩
  · refine (Sublist.map Prod.fst filter_sublist).trans ?_
    rw [map_fst_zip hlen.ge]
  · rcases hnewest with hnil | ⟨g, hg, hmeet⟩
    · exact absurd (mem_picked.mpr ⟨i, hf, hi⟩) (hnil ▸ not_mem_nil)
    · refine ⟨newest, lt_of_le_of_ne (hle hi) fun heq => ?_, g, hg, hmeet⟩
      rw [heq, hg, Option.some.injEq] at hf
      rw [← hf, hmeet] at hover
      cases hover
  · refine Bool.eq_false_iff.mpr fun hover => ?_
    obtain ⟨i, hi⟩ := getElem?_of_mem hf
    exact absurd (mem_picked.mpr ⟨i, hi, hmeets i f hi hover⟩) (hnil ▸ not_mem_nil)
  · refine eq_nil_iff_forall_not_mem.mpr fun f hf => ?_
    obtain ⟨g, hg, hover, -⟩ := hjoin f hf
    rw [hnone g (mem_of_mem_picked hg)] at hover
    cases hover
  · rw [← heq, ← hzero]
    exact hv.holders_moveBelow start stop k

/-- L0 tables of two keys each, of which the third drags the second. -/
def chainFiles : List LiveSst :=
  [(1, 20, 21), (2, 0, 4), (3, 3, 9)].map fun (id, first, last) =>
    ⟨id, ⟨id, [first], [last], 100, 2, none, none⟩,
      ⟨[⟨[first], id, .value, []⟩, ⟨[last], id, .value, []⟩], .fromVec []⟩⟩

theorem laid_chainFiles : (Version.levelZero chainFiles 3).Laid := by
  have hbounds : ∀ f ∈ chainFiles, f.smallest ≤ f.largest ∧ f.reader.entries.Pairwise Entry.Before ∧
      (∀ e ∈ f.reader.entries, f.smallest ≤ e.userKey ∧ e.userKey ≤ f.largest) ∧ ∀ t ∈ f.tombstones,
      f.smallest ≤ t.start ∧ t.stop ≤ f.largest := by decide
  exact Version.laid_levelZero (fun f hf => LiveSst.sound_of_bounds (hbounds f hf)) (by decide)
    (by decide)

/-- The chain that drags a table the range does not meet. -/
theorem l0Inputs_closed_chain : (l0Inputs chainFiles (some [8]) (some [10])).map LiveSst.id = [2, 3]
    ∧ (((Version.levelZero chainFiles 3).moveBelow
      (l0Inputs chainFiles (some [8]) (some [10]))).levels 0).map LiveSst.id = [2, 3, 1] ∧
    ∀ k op r, ((Version.levelZero chainFiles 3).moveBelow
        (l0Inputs chainFiles (some [8]) (some [10]))).get op k r =
      (Version.levelZero chainFiles 3).get op k r := by
  have hfiles : ∀ f ∈ chainFiles, f.smallest ≤ f.largest := by decide
  obtain ⟨-, -, -, -, -, -, -, -, -, -, hread⟩ := l0Inputs_closed hfiles (some [8]) (some [10])
  exact ⟨by decide, by decide, hread (Version.levelZero chainFiles 3) laid_chainFiles rfl⟩

end RegolithStore
