import Mathlib.Tactic.IntervalCases
import RegolithStore.Compaction.LevelRuns
import RegolithStore.Compaction.Replacement

/-! Where a pass's tables stand among those that hold a key: at every key the tables it reads are
neighbours in the order a read walks, and its outputs come to stand in their place. -/

namespace RegolithStore

open Lib List Function Version

variable {f g : LiveSst} {k : Key} {v : Version} {l : Nat}

namespace Version

def layer (v : Version) (l : Nat) : List LiveSst :=
  if l = 0 then (v.levels 0).reverse else v.levels l

theorem mem_layer {v : Version} {l : Nat} : f ∈ v.layer l ↔ f ∈ v.levels l := by
  unfold layer
  split_ifs with h
  · rw [mem_reverse, h]
  · rfl

theorem tables_eq_layers (v : Version) : v.tables = (List.range maxLevels).flatMap v.layer := by
  rfl

theorem holders_tables (v : Version) (k : Key) :
    holders k v.tables = (List.range maxLevels).flatMap fun l => holders k (v.layer l) := by
  rw [tables_eq_layers, holders_flatMap]

/-- What a pass relies on, whatever the order of the sources: sound tables in sorted runs
that share no key, and ids that name one table. -/
structure Laid (v : Version) : Prop extends v.WellFormed where
  apart : ∀ l, 1 ≤ l → l < maxLevels →
    (v.levels l).Pairwise fun a b => ∀ k, a.Holds k → k < b.smallest
  ids : ∀ l, ((v.levels l).map LiveSst.id).Nodup

/-- What every read needs besides: sources newest first. -/
structure Consistent (v : Version) : Prop extends v.Laid where
  order : ∀ k, NewestFirst k v.tables

theorem laid_levelZero {files : List LiveSst} {lastSeq : Seq} (sound : ∀ f ∈ files, f.Sound)
    (counted : ∀ f ∈ files, f.metadata.numEntries = 0 → f.reader.entries = [])
    (ids : (files.map LiveSst.id).Nodup) : (levelZero files lastSeq).Laid := by
  refine { wellFormed_levelZero sound counted with apart := fun l h1 _ => ?_, ids := fun l => ?_ }
  · simp [levelZero, Nat.one_le_iff_ne_zero.mp h1]
  · by_cases hl : l = 0
    · simpa [levelZero, hl] using ids
    · simp [levelZero, hl]

namespace Laid

variable (hv : v.Laid)

include hv

theorem holds_pairwise (h1 : 1 ≤ l) (h2 : l < maxLevels) (k : Key) :
    (v.levels l).Pairwise fun a b => ¬ (a.Holds k ∧ b.Holds k) :=
  (hv.apart l h1 h2).imp_of_mem fun _ hb hab hk =>
    absurd (hab k hk.1) (not_lt.mpr ((hv.sound l _ hb).within k hk.2).1)

section

variable (h1 : 1 ≤ l) (h2 : l < maxLevels) (hf : f ∈ v.levels l) (hg : g ∈ v.levels l)

include h1 h2 hf hg

theorem eq_of_holds (hfk : f.Holds k) (hgk : g.Holds k) : f = g := by
  rcases pairwise_either (hv.holds_pairwise h1 h2 k) hf hg with h | h | h
  · exact h
  · exact absurd ⟨hfk, hgk⟩ h
  · exact absurd ⟨hgk, hfk⟩ h

theorem apart_cases : f = g ∨ (f.largest ≤ g.smallest ∧ ∀ k, f.Holds k → k < g.smallest) ∨
      (g.largest ≤ f.smallest ∧ ∀ k, g.Holds k → k < f.smallest) :=
  pairwise_either ((hv.runs l h1 h2).and (hv.apart l h1 h2)) hf hg

end

theorem id_mem_iff {fs : List LiveSst} (hfs : ∀ f ∈ fs, f ∈ v.levels l) {g : LiveSst}
    (hg : g ∈ v.levels l) : g.id ∈ fs.map LiveSst.id ↔ g ∈ fs := by
  refine ⟨fun h => ?_, fun h => mem_map_of_mem h⟩
  obtain ⟨f, hf, hid⟩ := mem_map.mp h
  exact inj_on_of_nodup_map (hv.ids l) (hfs f hf) hg hid ▸ hf

theorem mem_overlapping (h1 : 1 ≤ l) (h2 : l < maxLevels) {first last : Key}
    {f : LiveSst} : f ∈ overlapping (v.levels l) first last ↔
      f ∈ v.levels l ∧ first ≤ f.largest ∧ f.smallest ≤ last :=
  (hv.runs l h1 h2).mem_meeting fun f hf => (hv.sound l f hf).ordered

/-! ### What retirement sees of a table below -/

theorem keyBelow_of_deeper {target l : Nat} (hl : target < l) (hmax : l < maxLevels) {f : LiveSst}
    (hf : f ∈ v.levels l) (hk : f.Holds k) (inputs : List LiveSst) (oldest : Option Seq) :
    (Retirement.new target v inputs oldest).keyBelow k ∧
      ∀ t : RangeTombstone, t.Covers k → (Retirement.new target v inputs oldest).neededBelow t := by
  have hpos : 1 ≤ l := Nat.one_le_iff_ne_zero.mpr (Nat.ne_zero_of_lt hl)
  have hw := (hv.sound l f hf).within k hk
  have hdeep : v.levels l ∈ ((List.range maxLevels).drop (target + 1)).map v.levels :=
    mem_map_of_mem (mem_drop_range.mpr ⟨hl, hmax⟩)
  refine ⟨Bool.or_eq_true_iff.mpr (.inl (any_eq_true.mpr ⟨_, hdeep, ?_⟩)), fun t ht =>
    Bool.or_eq_true_iff.mpr (.inl (any_eq_true.mpr ⟨_, hdeep, any_eq_true.mpr ⟨f, ?_, ?_⟩⟩))⟩
  · have hmem : f ∈ covering (v.levels l) k :=
      (hv.mem_overlapping hpos hmax).mpr ⟨hf, hw.2, hw.1⟩
    simpa using ne_nil_of_mem hmem
  · exact (hv.mem_overlapping hpos hmax).mpr ⟨hf, ht.1.trans hw.2, hw.1.trans ht.2.le⟩
  · simpa using hw.1.trans_lt ht.2

/-- What stays of a level at a key, and what is taken of it, where that is older. -/
theorem holders_split {fs : List LiveSst} (hfs : ∀ f ∈ fs, f ∈ v.levels l)
    (hdrags : (holders k (v.layer l)).Pairwise fun a b => a ∈ fs → b ∈ fs) : holders k (v.layer l) =
      (holders k (v.layer l)).filter (fun f => decide (f.id ∉ fs.map LiveSst.id)) ++
        (holders k (v.layer l)).filter fun f => decide (f.id ∈ fs.map LiveSst.id) := by
  have hs : Split (fun f : LiveSst => decide (f.id ∉ fs.map LiveSst.id))
      (holders k (v.layer l)) := by
    refine hdrags.imp_of_mem fun ha hb hab => ?_
    have ha := mem_layer.mp (mem_of_mem_filter ha)
    have hb := mem_layer.mp (mem_of_mem_filter hb)
    simp only [decide_eq_true_eq, hv.id_mem_iff hfs ha, hv.id_mem_iff hfs hb]
    exact fun hb ha => hb (hab ha)
  conv_lhs => rw [← hs.filter_append_filter]
  simp only [decide_not, Bool.not_not]

end Laid

end Version

theorem Retirement.keyBelow_of_older {r : Retirement} (hf : f ∈ r.older) (hs : f.Sound)
    (hk : f.Holds k) : r.keyBelow k ∧ ∀ t : RangeTombstone, t.Covers k → r.neededBelow t := by
  have hw := hs.within k hk
  refine ⟨Bool.or_eq_true_iff.mpr (.inr (any_eq_true.mpr ⟨f, hf, ?_⟩)), fun t ht =>
    Bool.or_eq_true_iff.mpr (.inr (any_eq_true.mpr ⟨f, hf, ?_⟩))⟩
  · simpa using ⟨hw.1, hw.2⟩
  · simpa using ⟨hw.1.trans_lt ht.2, ht.1.trans hw.2⟩

theorem eq_of_perm_of_pairwise_false {α : Type*} {l l' : List α} (hp : l.Perm l')
    (h : l'.Pairwise fun _ _ => False) : l = l' := by
  match l', h with
  | [], _ => exact hp.eq_nil
  | [a], _ => exact hp.eq_singleton
  | a :: b :: l', h => exact absurd ((pairwise_cons.mp h).1 b mem_cons_self) id

namespace Job

/-- At `k` the outputs take the place of the tables the pass reads, and what is older is
what the pass's retirement looks at. -/
def Replaces (job : Job) (v v' : Version) (outputs : List LiveSst) (k : Key) : Prop :=
  ∃ ts us vs, holders k v.tables = ts ++ (us ++ vs) ∧
    holders k v'.tables = ts ++ (holders k outputs ++ vs) ∧ job.Reads k us ∧
    ∀ f ∈ vs, (∃ l, job.target < l ∧ l < maxLevels ∧ f ∈ v.levels l) ∨
      ∀ oldest, f ∈ (Retirement.new job.target v job.inputs oldest).older

variable {job : Job} {v' : Version} {outputs : List LiveSst} {level : Nat}

theorem holders_eq_nil {ts : List LiveSst} (h : ∀ f ∈ ts, ¬ f.Holds k) : holders k ts = [] :=
  filter_eq_nil_iff.mpr fun f hf hk => h f hf (of_decide_eq_true hk)

theorem Replaces.of_not_holds (hk : ¬ job.Holds k) (hout : ∀ o ∈ outputs, o.Holds k → job.Holds k)
    (h : holders k v'.tables = holders k v.tables) : job.Replaces v v' outputs k := by
  refine ⟨holders k v.tables, [], [], by simp, ?_, fun f => ?_, by simp⟩
  · rw [h, holders_eq_nil fun o ho hok => hk (hout o ho hok)]
    simp
  · simpa using fun hf hfk => hk ⟨f, hf, hfk⟩

theorem mem_deeper_layers (h : f ∈ (List.range' (level + 1) (maxLevels - (level + 1))).flatMap
      fun l => holders k (v.layer l)) : ∃ l, level < l ∧ l < maxLevels ∧ f ∈ v.levels l := by
  obtain ⟨l, hl, hf⟩ := mem_flatMap.mp h
  have hl := mem_range'_1.mp hl
  exact ⟨l, by omega, by omega, mem_layer.mp (mem_of_mem_filter hf)⟩

section

variable {fs run : List LiveSst} (hv : v.Laid) (hfs : ∀ f ∈ fs, f ∈ job.files ∧ f ∈ v.levels l)

include hv hfs

theorem holders_keep (hk : ¬ job.Holds k) : (holders k (v.layer l)).filter
    (fun f => decide (f.id ∉ fs.map LiveSst.id)) = holders k (v.layer l) := by
  refine filter_eq_self.mpr fun f hf => decide_eq_true fun hid => hk ?_
  obtain ⟨hf, hfk⟩ := mem_filter.mp hf
  have hmem := (hv.id_mem_iff (fun f hf => (hfs f hf).2) (mem_layer.mp hf)).mp hid
  exact ⟨f, (hfs f hmem).1, of_decide_eq_true hfk⟩

/-- Where the outputs replace `fs` in a run, it holds at a key what they do, or what it did. -/
theorem holders_run (h1 : 1 ≤ l) (h2 : l < maxLevels)
    (hall : job.Holds k → ∀ g ∈ v.levels l, g.Holds k → g ∈ fs)
    (hone : outputs.Pairwise fun a b => ¬ (a.Holds k ∧ b.Holds k))
    (hout : ∀ o ∈ outputs, o.Holds k → job.Holds k) (hperm : run.Perm (outputs ++
      (v.layer l).filter fun f => decide (f.id ∉ fs.map LiveSst.id))) :
    (job.Holds k → holders k run = holders k outputs) ∧
      (¬ job.Holds k → holders k run = holders k (v.layer l)) := by
  have hperm : (holders k run).Perm (holders k outputs ++ (holders k (v.layer l)).filter
      fun f => decide (f.id ∉ fs.map LiveSst.id)) := by
    have := hperm.filter fun f => decide (f.Holds k)
    rwa [filter_append, filter_comm] at this
  refine ⟨fun hk => ?_, fun hk => ?_⟩
  · have hgone : (holders k (v.layer l)).filter
        (fun f => decide (f.id ∉ fs.map LiveSst.id)) = [] := by
      refine filter_eq_nil_iff.mpr fun f hf hid => of_decide_eq_true hid ?_
      obtain ⟨hf, hfk⟩ := mem_filter.mp hf
      exact mem_map_of_mem (hall hk f (mem_layer.mp hf) (of_decide_eq_true hfk))
    rw [hgone, append_nil] at hperm
    exact eq_of_perm_of_pairwise_false hperm (holders_pairwise hone _)
  · rw [holders_eq_nil fun o ho hok => hk (hout o ho hok), nil_append,
      holders_keep hv hfs hk] at hperm
    refine eq_of_perm_of_pairwise_false hperm ?_
    rw [Version.layer, if_neg (Nat.one_le_iff_ne_zero.mp h1)]
    exact holders_pairwise (hv.holds_pairwise h1 h2 k) _

end

/-- The pass takes its inputs one level down. -/
structure Push (v : Version) (job : Job) : Prop where
  target : job.target = job.level + 1
  target_lt : job.target < maxLevels
  inputs : ∀ f ∈ job.inputs, f ∈ v.levels job.level
  below : job.below = (keyRange job.inputs).elim [] fun range =>
    overlapping (v.levels job.target) range.1 range.2
  drags : ∀ k, (holders k (v.layer job.level)).Pairwise fun a b => a ∈ job.inputs → b ∈ job.inputs

theorem range_split_push (h : level + 1 < maxLevels) :
    List.range maxLevels = List.range level ++ level :: (level + 1) :: List.range' (level + 2)
      (maxLevels - (level + 2)) := by
  unfold maxLevels at *
  have : level < 6 := by omega
  interval_cases level <;> rfl

theorem layer_of_ne (ht : job.target ≠ 0) (outputs : List LiveSst) {l : Nat} (h1 : l ≠ job.level)
    (h2 : l ≠ job.target) : (v.applyEdits (job.edits outputs)).layer l = v.layer l := by
  have hl := levels_edits ht v outputs
  unfold Version.layer
  split_ifs with hz
  · rw [hl, if_neg (hz ▸ h2), if_neg (hz ▸ h1)]
  · rw [hl, if_neg h2, if_neg h1]

namespace Push

variable (h : job.Push v) (hv : v.Laid)

include h

theorem target_pos : 1 ≤ job.target := h.target ▸ Nat.succ_pos _

theorem target_ne : job.target ≠ 0 := h.target ▸ Nat.succ_ne_zero _

theorem level_ne : job.level ≠ job.target := h.target ▸ Nat.ne_add_one _

include hv

theorem mem_below : f ∈ job.below ↔ f ∈ v.levels job.target ∧
    ∃ range, keyRange job.inputs = some range ∧ range.1 ≤ f.largest ∧ f.smallest ≤ range.2 := by
  rw [h.below]
  cases hr : keyRange job.inputs with
  | none => simp
  | some range => simp [hv.mem_overlapping h.target_pos h.target_lt]

theorem mem_below_of_holds (hk : job.Holds k) (hg : g ∈ v.levels job.target)
    (hgk : g.Holds k) : g ∈ job.below := by
  obtain ⟨f, hf, hfk⟩ := hk
  rcases mem_append.mp hf with hf | hf
  · obtain ⟨range, hrng⟩ := keyRange_isSome (ne_nil_of_mem hf)
    have hin := (hv.sound _ f (h.inputs f hf)).within k hfk
    have hgin := (hv.sound _ g hg).within k hgk
    have hr := keyRange_within hrng f hf
    exact (h.mem_below hv).mpr ⟨hg, range, hrng, hr.1.trans (hin.1.trans hgin.2),
      hgin.1.trans (hin.2.trans hr.2)⟩
  · exact hv.eq_of_holds h.target_pos h.target_lt ((h.mem_below hv).mp hf).1 hg hfk hgk ▸ hf

omit hv in
theorem layer_level (outputs : List LiveSst) : (v.applyEdits (job.edits outputs)).layer job.level =
      (v.layer job.level).filter fun f => decide (f.id ∉ job.inputs.map LiveSst.id) := by
  have hl := levels_edits h.target_ne v outputs job.level
  rw [if_neg h.level_ne, if_pos rfl] at hl
  unfold Version.layer
  split_ifs with hz
  · rw [← hz, hl, filter_reverse]
  · exact hl

omit hv in
theorem layer_target_perm (outputs : List LiveSst) :
    ((v.applyEdits (job.edits outputs)).layer job.target).Perm (outputs ++
      (v.layer job.target).filter fun f => decide (f.id ∉ job.below.map LiveSst.id)) := by
  rw [Version.layer, if_neg h.target_ne, Version.layer, if_neg h.target_ne,
    levels_edits h.target_ne, if_pos rfl, replaced, if_neg h.level_ne, nil_append]
  exact foldl_insertRun_perm _ _

omit hv in
theorem holders_tables_eq {v' : Version} (hv' : ∀ l, l ≠ job.level → l ≠ job.target →
    v'.layer l = v.layer l) (k : Key) : holders k v'.tables =
      (List.range job.level).flatMap (fun l => holders k (v.layer l)) ++
        (holders k (v'.layer job.level) ++ (holders k (v'.layer job.target) ++
          (List.range' (job.level + 2) (maxLevels - (job.level + 2))).flatMap
            fun l => holders k (v.layer l))) := by
  have hr := range_split_push (h.target ▸ h.target_lt)
  rw [holders_tables, hr, flatMap_append, flatMap_cons, flatMap_cons, ← h.target]
  congr 1
  · refine flatMap_congr fun l hl => ?_
    have hlt := mem_range.mp hl
    rw [hv' l hlt.ne (by rw [h.target]; omega)]
  · congr 2
    refine flatMap_congr fun l hl => ?_
    have hle := (mem_range'_1.mp hl).1
    rw [hv' l (by omega) (by rw [h.target]; omega)]

theorem reads (hk : job.Holds k) : job.Reads k
    (((holders k (v.layer job.level)).filter fun f => decide (f.id ∈ job.inputs.map LiveSst.id)) ++
      holders k (v.layer job.target)) := by
  intro f
  simp only [mem_append, mem_filter, holders, decide_eq_true_eq, mem_layer, files]
  constructor
  · rintro (⟨⟨hf, hfk⟩, hid⟩ | ⟨hf, hfk⟩)
    · exact ⟨.inl ((hv.id_mem_iff h.inputs hf).mp hid), hfk⟩
    · exact ⟨.inr (h.mem_below_of_holds hv hk hf hfk), hfk⟩
  · rintro ⟨hf | hf, hfk⟩
    · exact .inl ⟨⟨h.inputs f hf, hfk⟩, mem_map_of_mem hf⟩
    · exact .inr ⟨((h.mem_below hv).mp hf).1, hfk⟩

/-- Installed, the outputs of a pass down stand in the place of what it read. -/
theorem replaces (hone : outputs.Pairwise fun a b => ¬ (a.Holds k ∧ b.Holds k))
    (hout : ∀ o ∈ outputs, o.Holds k → job.Holds k) :
    job.Replaces v (v.applyEdits (job.edits outputs)) outputs k := by
  have hb := h.holders_tables_eq (fun l _ _ => rfl : ∀ l, _ → _ → v.layer l = v.layer l) k
  have ha := h.holders_tables_eq (fun l => layer_of_ne h.target_ne outputs) k
  obtain ⟨hh, hkept⟩ := holders_run hv
    (fun f hf => ⟨mem_append_right _ hf, ((h.mem_below hv).mp hf).1⟩) h.target_pos h.target_lt
    (fun hk g => h.mem_below_of_holds hv hk) hone hout (h.layer_target_perm outputs)
  have hl : holders k ((v.applyEdits (job.edits outputs)).layer job.level) =
      (holders k (v.layer job.level)).filter
        fun f => decide (f.id ∉ job.inputs.map LiveSst.id) := by
    rw [h.layer_level, holders, filter_comm, ← holders]
  rw [hl] at ha
  by_cases hk : job.Holds k
  · rw [hh hk] at ha
    rw [hv.holders_split h.inputs (h.drags k)] at hb
    refine ⟨(List.range job.level).flatMap (fun l => holders k (v.layer l)) ++
        (holders k (v.layer job.level)).filter fun f => decide (f.id ∉ job.inputs.map LiveSst.id),
      _, (List.range' (job.level + 2) (maxLevels - (job.level + 2))).flatMap
        fun l => holders k (v.layer l), ?_, ?_, h.reads hv hk, fun f hf => ?_⟩
    · simpa only [append_assoc] using hb
    · simpa only [append_assoc] using ha
    · rw [h.target]
      exact .inl (mem_deeper_layers hf)
  · refine Replaces.of_not_holds hk hout ?_
    rw [ha, hb, hkept hk, holders_keep hv (fun f hf => ⟨mem_append_left _ hf, h.inputs f hf⟩) hk]

/-- A pass down lies to one side of what it leaves in its target. -/
theorem clear (hf : f ∈ v.levels job.target) (hid : f.id ∉ job.replaced) :
    job.ClearOf f := by
  have hb : f ∉ job.below := fun hmem => hid (by
    rw [replaced, if_neg h.level_ne]
    exact mem_map_of_mem hmem)
  have ho := (hv.sound _ f hf).ordered
  rcases eq_or_ne job.inputs [] with hnil | hne
  · refine .inl ?_
    rintro k ⟨g, hg, -⟩
    simp [files, hnil, h.below, keyRange] at hg
  obtain ⟨range, hr⟩ := keyRange_isSome hne
  have hw := keyRange_within hr
  by_cases hlow : f.largest < range.1
  · -- before the range, and before every table of the level that meets it
    refine .inr fun k hk => ?_
    obtain ⟨g, hg, hgk⟩ := hk
    rcases mem_append.mp hg with hg | hg
    · exact hlow.le.trans ((hw g hg).1.trans ((hv.sound _ g (h.inputs g hg)).within k hgk).1)
    · obtain ⟨hgl, range', hrange', hm, -⟩ := (h.mem_below hv).mp hg
      cases hr.symm.trans hrange'
      have hgk := (hv.sound _ g hgl).within k hgk
      rcases hv.apart_cases h.target_pos h.target_lt hf hgl with rfl | hap | hap
      · exact absurd hlow hm.not_gt
      · exact hap.1.trans hgk.1
      · exact absurd (hm.trans (hap.1.trans ho)) hlow.not_ge
  · have hh : range.2 < f.smallest := not_le.mp fun hle =>
      hb ((h.mem_below hv).mpr ⟨hf, range, hr, not_lt.mp hlow, hle⟩)
    refine .inl fun k hk => ?_
    obtain ⟨g, hg, hgk⟩ := hk
    rcases mem_append.mp hg with hg | hg
    · exact (((hv.sound _ g (h.inputs g hg)).within k hgk).2.trans (hw g hg).2).trans_lt hh
    · obtain ⟨hgl, range', hrange', -, hm⟩ := (h.mem_below hv).mp hg
      cases hr.symm.trans hrange'
      rcases hv.apart_cases h.target_pos h.target_lt hf hgl with rfl | hap | hap
      · exact absurd hh hm.not_gt
      · exact absurd (ho.trans (hap.1.trans hm)) hh.not_ge
      · exact hap.2 k hgk

end Push

theorem range_split_rewrite (h : level < maxLevels) :
    List.range maxLevels = List.range level ++ level :: List.range' (level + 1) (maxLevels - (level
      + 1)) := by
  unfold maxLevels at *
  interval_cases level <;> rfl

theorem holders_tables_eq_of_layer (hlvl : level < maxLevels) {v' : Version}
    (hv' : ∀ l, l ≠ level → v'.layer l = v.layer l) (k : Key) : holders k v'.tables =
      (List.range level).flatMap (fun l => holders k (v.layer l)) ++ (holders k (v'.layer level) ++
          (List.range' (level + 1) (maxLevels - (level + 1))).flatMap
            fun l => holders k (v.layer l)) := by
  rw [holders_tables, range_split_rewrite hlvl, flatMap_append, flatMap_cons]
  congr 1
  · exact flatMap_congr fun l hl => by rw [hv' l (mem_range.mp hl).ne]
  · congr 1
    refine flatMap_congr fun l hl => ?_
    rw [hv' l (Nat.ne_of_gt (mem_range'_1.mp hl).1)]

/-- The pass rewrites one table below L0 in place. -/
structure Reseal (v : Version) (job : Job) : Prop where
  target : job.target = job.level
  level_pos : 1 ≤ job.level
  level_lt : job.level < maxLevels
  below : job.below = []
  inputs : ∃ f ∈ v.levels job.level, job.inputs = [f]

namespace Reseal

variable (h : job.Reseal v) (hv : v.Laid)

include h

theorem target_ne : job.target ≠ 0 := h.target ▸ Nat.one_le_iff_ne_zero.mp h.level_pos

theorem replaced_eq : job.replaced = job.inputs.map LiveSst.id := by
  rw [replaced, if_pos h.target.symm, h.below, map_nil, append_nil]

theorem layer_perm (outputs : List LiveSst) :
    ((v.applyEdits (job.edits outputs)).layer job.level).Perm (outputs ++
      (v.layer job.level).filter fun f => decide (f.id ∉ job.inputs.map LiveSst.id)) := by
  have hne : job.level ≠ 0 := Nat.one_le_iff_ne_zero.mp h.level_pos
  rw [Version.layer, if_neg hne, Version.layer, if_neg hne, levels_edits h.target_ne,
    if_pos h.target.symm, h.replaced_eq]
  exact foldl_insertRun_perm _ _

include hv

theorem clear (hg : g ∈ v.levels job.target) (hid : g.id ∉ job.replaced) :
    job.ClearOf g := by
  obtain ⟨f, hf, hi⟩ := h.inputs
  have hh : ∀ {k}, job.Holds k → f.Holds k := by
    rintro k ⟨x, hx, hk⟩
    rw [files, hi, h.below] at hx
    rwa [← mem_singleton.mp hx]
  rw [h.target] at hg
  rcases hv.apart_cases h.level_pos h.level_lt hf hg with rfl | hap | hap
  · exact absurd (by simp [h.replaced_eq, hi]) hid
  · exact .inl fun k hk => hap.2 k (hh hk)
  · exact .inr fun k hk => hap.1.trans ((hv.sound _ f hf).within k (hh hk)).1

theorem replaces (hone : outputs.Pairwise fun a b => ¬ (a.Holds k ∧ b.Holds k))
    (hout : ∀ o ∈ outputs, o.Holds k → job.Holds k) :
    job.Replaces v (v.applyEdits (job.edits outputs)) outputs k := by
  obtain ⟨f, hf, hi⟩ := h.inputs
  have hfiles : job.files = [f] := by rw [files, hi, h.below, append_nil]
  have hb := holders_tables_eq_of_layer h.level_lt
    (fun l _ => rfl : ∀ l, _ → v.layer l = v.layer l) k
  have ha := holders_tables_eq_of_layer (v := v) h.level_lt (fun l hl =>
    layer_of_ne h.target_ne outputs hl (h.target.symm ▸ hl)) k
  have hmem : ∀ g ∈ job.inputs, g ∈ job.files ∧ g ∈ v.levels job.level := by
    simpa [hi, hfiles] using hf
  -- the table is the only one of its level to hold the key
  have heq (hk : job.Holds k) (g : LiveSst) (hg : g ∈ v.levels job.level) (hgk : g.Holds k) :
      g ∈ job.inputs := by
    obtain ⟨x, hx, hxk⟩ := hk
    rw [hfiles, mem_singleton] at hx
    rw [hi, mem_singleton]
    exact hv.eq_of_holds h.level_pos h.level_lt hg hf hgk (hx ▸ hxk)
  obtain ⟨hh, hkept⟩ :=
    holders_run hv hmem h.level_pos h.level_lt heq hone hout (h.layer_perm outputs)
  by_cases hk : job.Holds k
  · rw [hh hk] at ha
    refine ⟨_, _, _, hb, ha, fun g => ?_, fun g hg => ?_⟩
    · rw [holders, mem_filter, decide_eq_true_eq, mem_layer]
      exact ⟨fun hg => ⟨mem_append_left _ (heq hk g hg.1 hg.2), hg.2⟩,
        fun hg => ⟨(hmem g (hi ▸ hfiles ▸ hg.1)).2, hg.2⟩⟩
    · rw [h.target]
      exact .inl (mem_deeper_layers hg)
  · refine Replaces.of_not_holds hk hout ?_
    rw [ha, hb, hkept hk]

end Reseal

theorem levels_rebuildEdits (job : Job) (v : Version) (outputs : List LiveSst) :
    (v.applyEdits (job.rebuildEdits v outputs)).levels =
      let isInput := fun f : LiveSst => decide (f.id ∈ job.inputs.map LiveSst.id)
      let oldest := ((v.levels 0).findIdx? isInput).getD 0
      update v.levels 0 (((v.levels 0).take oldest).filter (fun f => !isInput f) ++
        (outputs ++ ((v.levels 0).drop oldest).filter fun f => !isInput f)) := by
  have he : (v.levels 0).filter (fun f => decide (f.id ∉ (v.levels 0).map LiveSst.id)) = [] :=
    filter_eq_nil_iff.mpr fun f hf => by simpa using ⟨f, hf, rfl⟩
  simp only [rebuildEdits, applyEdits_append, levels_addFiles_zero,
    levels_removeFiles, update_self, update_idem, he,
    nil_append, append_assoc]

/-- The pass merges neighbours of L0 in place. -/
structure Merge (v : Version) (job : Job) (older block newer : List LiveSst) : Prop where
  level : job.level = 0
  target : job.target = 0
  below : job.below = []
  l0 : v.levels 0 = older ++ (block ++ newer)
  block_ne : block ≠ []
  inputs : ∀ f, f ∈ job.inputs ↔ f ∈ block

namespace Merge

variable {older block newer : List LiveSst} (h : job.Merge v older block newer)

include h

section Ids

variable (hids : ((v.levels 0).map LiveSst.id).Nodup)

include hids

theorem id_notMem (hf : f ∈ older ∨ f ∈ newer) : f.id ∉ job.inputs.map LiveSst.id := by
  intro hid
  obtain ⟨g, hg, hgf⟩ := mem_map.mp hid
  have hids : (older ++ (block ++ newer)).Pairwise fun a b => a.id ≠ b.id :=
    pairwise_map.mp (h.l0 ▸ hids)
  obtain ⟨-, hr, holder⟩ := pairwise_append.mp hids
  have hg := (h.inputs g).mp hg
  rcases hf with hf | hf
  · exact holder f hf g (mem_append_left _ hg) hgf.symm
  · exact (pairwise_append.mp hr).2.2 g hg f hf hgf

omit hids in
theorem id_mem (hf : f ∈ block) : f.id ∈ job.inputs.map LiveSst.id :=
  mem_map_of_mem ((h.inputs f).mpr hf)

theorem levels_rebuild (outputs : List LiveSst) :
    (v.applyEdits (job.rebuildEdits v outputs)).levels =
      update v.levels 0 (older ++ (outputs ++ newer)) := by
  have hflt : ∀ {fs : List LiveSst}, (∀ f ∈ fs, f ∈ older ∨ f ∈ newer) →
      fs.filter (fun f => !decide (f.id ∈ job.inputs.map LiveSst.id)) = fs := fun hfs =>
    filter_eq_self.mpr fun f hf => by simpa using h.id_notMem hids (hfs f hf)
  have hb : block.filter (fun f => !decide (f.id ∈ job.inputs.map LiveSst.id)) = [] :=
    filter_eq_nil_iff.mpr fun f hf => by simpa using h.id_mem hf
  have hi : (v.levels 0).findIdx? (fun f => decide (f.id ∈ job.inputs.map LiveSst.id)) =
      some older.length := by
    obtain ⟨b, bs, rfl⟩ := exists_cons_of_ne_nil h.block_ne
    rw [h.l0, findIdx?_append, findIdx?_eq_none_iff.mpr fun f hf => by
      simpa using h.id_notMem hids (.inl hf), cons_append, findIdx?_cons,
      if_pos (decide_eq_true (h.id_mem mem_cons_self))]
    simp
  simp only [levels_rebuildEdits, hi, Option.getD_some]
  rw [h.l0, take_left, drop_left, filter_append, hb, nil_append,
    hflt fun f hf => .inl hf, hflt fun f hf => .inr hf]

end Ids

variable (hv : v.Laid)

include hv

theorem mem_older (oldest : Option Seq) (hf : f ∈ older) :
    f ∈ (Retirement.new job.target v job.inputs oldest).older := by
  have hany : ∀ g : LiveSst, (job.inputs.any fun i => i.id == g.id) =
      decide (g.id ∈ job.inputs.map LiveSst.id) := fun g => by
    rw [Bool.eq_iff_iff]
    simp
  obtain ⟨bs, b, rfl⟩ : ∃ bs b, block = bs ++ [b] :=
    ⟨_, _, (dropLast_append_getLast h.block_ne).symm⟩
  have hb : Retirement.beforeNewest (v.levels 0) job.inputs = older ++ bs := by
    have hrev : (v.levels 0).reverse = newer.reverse ++ b :: (bs.reverse ++ older.reverse) := by
      simp [h.l0]
    rw [Retirement.beforeNewest, hrev, dropWhile_append_of_pos (fun g hg => ?_),
      dropWhile_cons_of_neg (by simpa [hany] using h.id_mem (by simp))]
    · simp
    · simpa [hany] using h.id_notMem (hv.ids 0) (.inr (mem_reverse.mp hg))
  rw [Retirement.new, if_pos h.target, hb]
  exact mem_filter.mpr
    ⟨mem_append_left _ hf, by simpa [hany] using h.id_notMem (hv.ids 0) (.inl hf)⟩

theorem replaces (hone : outputs.Pairwise fun a b => ¬ (a.Holds k ∧ b.Holds k)) :
    job.Replaces v (v.applyEdits (job.rebuildEdits v outputs)) outputs k := by
  have hpos : 0 < maxLevels := by decide
  have hlvs := h.levels_rebuild (hv.ids 0) outputs
  have hb := holders_tables_eq_of_layer hpos (fun l _ => rfl : ∀ l, _ → v.layer l = v.layer l) k
  have ha := holders_tables_eq_of_layer hpos
    (fun l hl => by rw [Version.layer, hlvs, if_neg hl, update_of_ne hl,
      Version.layer, if_neg hl] : ∀ l, l ≠ 0 →
        (v.applyEdits (job.rebuildEdits v outputs)).layer l = v.layer l) k
  have hreverse : holders k outputs.reverse = holders k outputs :=
    eq_of_perm_of_pairwise_false ((reverse_perm outputs).filter _) (holders_pairwise hone _)
  refine ⟨holders k newer.reverse, holders k block.reverse, holders k older.reverse ++
    (List.range' 1 (maxLevels - 1)).flatMap fun l => holders k (v.layer l), ?_, ?_, fun f => ?_, ?_⟩
  · rw [hb, Version.layer, if_pos rfl, h.l0]
    simp [holders_append]
  · rw [ha, Version.layer, if_pos rfl, hlvs, update_self, ← hreverse]
    simp [holders_append]
  · rw [files, h.below, append_nil, h.inputs f, holders, mem_filter, mem_reverse, decide_eq_true_eq]
  · intro f hf
    rcases mem_append.mp hf with hf | hf
    · exact .inr fun oldest => h.mem_older hv oldest (mem_reverse.mp (mem_of_mem_filter hf))
    · rw [h.target]
      exact .inl (mem_deeper_layers hf)

end Merge

end Job

end RegolithStore
