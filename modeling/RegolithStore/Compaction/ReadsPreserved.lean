import RegolithStore.Compaction.Closure

/-! A pass changes no protected read: whatever a picker takes from a consistent version, the
version with the outputs installed reads the same at every key, at a live snapshot and at or above
everything the pass reads. Folding in stripes is folding in parts, so the operator's full merge
has to compose; one that counts its operands is read differently afterwards. -/

namespace RegolithStore

open Lib List LiveSst

variable {i : UInt64} {e : Entry}

namespace Job

variable {job : Job} {v : Version} {opts : CompactionOptions} {live : List Seq} {f : LiveSst}

def after (job : Job) (opts : CompactionOptions) (v : Version) (live : List Seq)
    (file : Nat → OutputFile) : Version :=
  v.applyEdits (job.installEdits v (job.perform opts v live file))

/-- A job some picker takes, by what it does to the levels. -/
def Closed (v : Version) (job : Job) : Prop :=
  job.Push v ∨ job.Reseal v ∨ ∃ older block newer, job.Merge v older block newer

variable (h : job.Closed v)

include h

variable (hv : v.Laid)

include hv

theorem Closed.sound (hf : f ∈ job.files) :
    f.Sound := by
  rcases h with h | h | ⟨older, block, newer, h⟩
  · rcases mem_append.mp hf with hf | hf
    · exact hv.sound _ f (h.inputs f hf)
    · exact hv.sound _ f ((h.mem_below hv).mp hf).1
  · obtain ⟨g, hg, hi⟩ := h.inputs
    rw [files, h.below, hi, append_nil, mem_singleton] at hf
    exact hf ▸ hv.sound _ g hg
  · rw [files, h.below, append_nil, h.inputs] at hf
    exact hv.sound 0 f (by simp [h.l0, hf])

theorem Closed.sorted : job.Sorted :=
  fun _ hf => (h.sound hv hf).sorted

omit hv in
omit h in
theorem installEdits_of_target (htgt : job.target ≠ 0) (v : Version) (outputs : List LiveSst) :
    job.installEdits v outputs = job.edits outputs := by
  rw [installEdits, if_neg fun h => htgt h.2]

theorem Closed.mem_after {file : Nat → OutputFile} {l : Nat} (hf : f ∈ (job.after opts v live file).levels l) :
    f ∈ v.levels l ∨ f ∈ job.perform opts v live file := by
  unfold after at hf
  rcases h with h | h | ⟨older, block, newer, h⟩
  · rw [installEdits_of_target h.target_ne] at hf
    exact (mem_levels_edits h.target_ne hf).imp And.left And.right
  · rw [installEdits_of_target h.target_ne] at hf
    exact (mem_levels_edits h.target_ne hf).imp And.left And.right
  · rw [installEdits, if_pos ⟨h.level, h.target⟩, h.levels_rebuild (hv.ids 0)] at hf
    rcases eq_or_ne l 0 with rfl | hl
    · rw [Function.update_self] at hf
      simp only [h.l0, mem_append] at hf ⊢
      tauto
    · rw [Function.update_of_ne hl] at hf
      exact .inl hf

variable (hlive : live.Pairwise (· ≤ ·))

include hlive

theorem Closed.after_sortedRuns (file : Nat → OutputFile) :
    (job.after opts v live file).SortedRuns := by
  have hfits := job.perform_fits (h.sorted hv) opts v hlive file
  unfold after
  rcases h with h | h | ⟨older, block, newer, h⟩
  · rw [installEdits_of_target h.target_ne]
    exact hfits.sortedRuns_edits h.target_ne hv.sound hv.runs fun f hf hid => h.clear hv hf hid
  · rw [installEdits_of_target h.target_ne]
    exact hfits.sortedRuns_edits h.target_ne hv.sound hv.runs fun f hf hid => h.clear hv hf hid
  · intro l h1 h2
    rw [installEdits, if_pos ⟨h.level, h.target⟩, h.levels_rebuild (hv.ids 0),
      Function.update_of_ne (Nat.one_le_iff_ne_zero.mp h1)]
    exact hv.runs l h1 h2

theorem Closed.after_wellFormed (hs : job.mergedEntries.length < 2 ^ 64)
    (file : Nat → OutputFile) : (job.after opts v live file).WellFormed where
  sound l f hf := by
    rcases h.mem_after hv hf with hf | hf
    · exact hv.sound l f hf
    · exact Job.output_sound (h.sorted hv) hlive hf
  counted l f hf := by
    rcases h.mem_after hv hf with hf | hf
    · exact hv.counted l f hf
    · exact Job.output_counted hs hf
  runs := h.after_sortedRuns hv hlive file

variable (opts) in
theorem Closed.replaces (file : Nat → OutputFile) (k : Key) :
    job.Replaces v (job.after opts v live file) (job.perform opts v live file) k := by
  have hone : (job.perform opts v live file).Pairwise fun a b => ¬ (a.Holds k ∧ b.Holds k) :=
    Job.outputs_holds_pairwise (h.sorted hv) hlive file k
  have hout : ∀ o ∈ job.perform opts v live file, o.Holds k → job.Holds k :=
    fun o ho hk => Job.output_holds ho hk
  unfold after
  rcases h with h | h | ⟨older, block, newer, h⟩
  · rw [installEdits_of_target h.target_ne]
    exact h.replaces hv hone hout
  · rw [installEdits_of_target h.target_ne]
    exact h.replaces hv hone hout
  · rw [installEdits, if_pos ⟨h.level, h.target⟩]
    exact h.replaces hv hone

omit h

omit hv

omit hlive

variable {op : MergeOperator} {r : Seq}

/-- A read that the pass must not disturb is the same after it. -/
theorem Closed.get_after (h : job.Closed v) (hv : v.Consistent) (hflt : opts.filter = none)
    (hm : ∀ m ∈ opts.merge, m = op) (hfull : op.FullMergeComposes)
    (hpart : op.PartialMergeAgrees) (hlive : live.Pairwise (· ≤ ·))
    (hsize : job.mergedEntries.length < 2 ^ 64) (file : Nat → OutputFile) (k : Key)
    (hr : job.Protects live r) : (job.after opts v live file).get op k r = v.get op k r := by
  have hs := h.sorted hv.toLaid
  obtain ⟨ts, us, vs, hb, ha, hus, hvs⟩ := h.replaces opts hv.toLaid hlive file k
  have ho : NewestFirst k (ts ++ (us ++ vs)) := hb ▸ (hv.order k).holders
  have hneworder : NewestFirst k (job.after opts v live file).tables := by
    refine .of_holders (ha ▸ ?_)
    exact hus.newestFirst_replace _ file hs hflt hlive ho
  -- whatever is older and holds the key, the retirement has looked at
  have hbel : vs ≠ [] → (Retirement.new job.target v job.inputs live.head?).keyBelow k ∧
      ∀ t ∈ (job.mergedTombstones opts).tombstones, t.Covers k →
        (Retirement.new job.target v job.inputs live.head?).neededBelow t := by
    intro hne
    obtain ⟨f, hf⟩ := exists_mem_of_ne_nil vs hne
    have hmem : f ∈ holders k v.tables := by
      rw [hb]
      simp [hf]
    have hk : f.Holds k := of_decide_eq_true (mem_filter.mp hmem).2
    have hkeep : (Retirement.new job.target v job.inputs live.head?).keyBelow k ∧
        ∀ t : RangeTombstone, t.Covers k →
          (Retirement.new job.target v job.inputs live.head?).neededBelow t := by
      rcases hvs f hf with ⟨l, h1, h2, hfl⟩ | hfl
      · exact hv.toLaid.keyBelow_of_deeper h1 h2 hfl hk _ _
      · rw [Version.tables_eq_layers] at hmem
        obtain ⟨l, -, hl⟩ := mem_flatMap.mp (mem_of_mem_filter hmem)
        exact Retirement.keyBelow_of_older (hfl _) (hv.sound l f (Version.mem_layer.mp hl)) hk
    exact ⟨hkeep.1, fun t _ htk => hkeep.2 t htk⟩
  rw [(h.after_wellFormed hv.toLaid hlive hsize file).get_eq hneworder, hv.get_eq (hv.order k),
    ← readTables_holders, ha, ← readTables_holders v.tables, hb]
  exact hus.readTables_replace _ file hs hflt hlive hm hfull hpart hr rfl ho hbel

end Job

/-- Compaction preserves every protected read. -/
theorem get_after_of_picked {v : Version} (hv : v.Consistent) {job : Job} (hpick : Picked v job)
    {opts : CompactionOptions} (hfilter : opts.filter = none) {op : MergeOperator}
    (hmerge : ∀ m ∈ opts.merge, m = op) (hfull : op.FullMergeComposes)
    (hpart : op.PartialMergeAgrees) {live : List Seq} (hlive : live.Pairwise (· ≤ ·))
    (hsize : job.mergedEntries.length < 2 ^ 64) (file : Nat → OutputFile) (k : Key) {r : Seq}
    (hr : job.Protects live r) : (job.after opts v live file).get op k r = v.get op k r :=
  Job.Closed.get_after (hpick.shape hv.toLaid) hv hfilter hmerge hfull hpart hlive hsize file k hr

def oneEntryTable (id : UInt64) (e : Entry) : LiveSst where
  sequenceCeiling := e.seq
  metadata := ⟨id, e.userKey, e.userKey, 1, 1, none, some ⟨0, 0, 0⟩⟩
  reader := ⟨[e], RangeTombstoneSet.fromVec []⟩

def operandsOverValue : Version := .levelZero [oneEntryTable 1 ⟨[107], 1, .value, [1]⟩,
  oneEntryTable 2 ⟨[107], 2, .merge, [2]⟩, oneEntryTable 3 ⟨[107], 3, .merge, [3]⟩] 3

def operandsJob : Job := ⟨0, 1, operandsOverValue.levels 0, []⟩

def appendOperator : MergeOperator where
  fullMerge _ base operands := some (base.getD [] ++ operands.flatten)
  partialMerge _ x y := some (x ++ y)

/-- An operator that answers with how many operands it was given. -/
def countingOperator : MergeOperator where
  fullMerge _ _ operands := some [UInt8.ofNat operands.length]
  partialMerge _ _ _ := none

theorem oneEntryTable_sound (id : UInt64) (e : Entry) : (oneEntryTable id e).Sound := by
  refine ⟨le_rfl, pairwise_singleton _ _, ?_⟩
  rintro k (⟨x, hx, rfl⟩ | ⟨t, ht, -⟩)
  · rw [mem_singleton.mp hx]
    exact ⟨le_rfl, le_rfl⟩
  · simp [tombstones, oneEntryTable] at ht

theorem oneEntryTable_newer {j : UInt64} {a b : Entry} (h : b.seq < a.seq) (k : Key) :
    (oneEntryTable i a).Newer k (oneEntryTable j b) := by
  refine ⟨fun x hx y hy => ?_, fun x _ t ht => ?_, fun t ht => ?_⟩
  · rw [mem_singleton.mp (mem_of_mem_filter hx), mem_singleton.mp (mem_of_mem_filter hy)]
    exact h
  · simp [tombstones, oneEntryTable] at ht
  · simp [tombstones, oneEntryTable] at ht

theorem oneEntryTable_distinct (h : 0 < e.seq) (k : Key) : (oneEntryTable i e).Distinct k := by
  refine ⟨(pairwise_singleton _ e).sublist filter_sublist, fun x _ t ht => ?_, ?_⟩
  · simp [tombstones, oneEntryTable] at ht
  · intro x hx
    rwa [mem_singleton.mp (mem_of_mem_filter hx)]

theorem oneEntryTable_le {r : Seq} (h : e.seq ≤ r) :
    (∀ x ∈ (oneEntryTable i e).reader.entries, x.seq ≤ r) ∧
      ∀ t ∈ (oneEntryTable i e).tombstones, t.seq ≤ r := by
  refine ⟨fun x hx => mem_singleton.mp hx ▸ h, fun t ht => ?_⟩
  simp [tombstones, oneEntryTable] at ht

theorem operandsOverValue_consistent : operandsOverValue.Consistent where
  toLaid := Version.laid_levelZero (by simp [oneEntryTable_sound]) (by decide) (by decide)
  order k := by
    have ht : operandsOverValue.tables = [oneEntryTable 3 ⟨[107], 3, .merge, [3]⟩,
      oneEntryTable 2 ⟨[107], 2, .merge, [2]⟩, oneEntryTable 1 ⟨[107], 1, .value, [1]⟩] := rfl
    rw [ht]
    refine ⟨?_, ?_⟩
    · simp only [pairwise_cons, forall_mem_cons, List.Pairwise.nil, and_true]
      exact ⟨⟨oneEntryTable_newer (by decide) k, oneEntryTable_newer (by decide) k, by simp⟩,
        ⟨oneEntryTable_newer (by decide) k, by simp⟩, by simp⟩
    · simp only [forall_mem_cons]
      exact ⟨oneEntryTable_distinct (by decide) k, oneEntryTable_distinct (by decide) k,
        oneEntryTable_distinct (by decide) k, by simp⟩

theorem operandsJob_picked : Picked operandsOverValue operandsJob :=
  .size (show pickSize operandsOverValue (fun _ => false) 0 = .ok operandsJob from rfl)

theorem operandsJob_protects : operandsJob.Protects [2] 3 := by
  refine .inr fun f hf => ?_
  simp only [Job.files, operandsJob, operandsOverValue, Version.levelZero, if_true, append_nil, mem_cons,
    not_mem_nil, or_false] at hf
  rcases hf with rfl | rfl | rfl <;> exact oneEntryTable_le (by decide)

/-- Appended in parts or at once, the operands read the same. -/
theorem get_after_of_appendOperator :
    (operandsJob.after ⟨1000, none, some appendOperator⟩ operandsOverValue [2]
      fun _ => ⟨9, 1⟩).get appendOperator [107] 3 =
        operandsOverValue.get appendOperator [107] 3 := by
  refine get_after_of_picked operandsOverValue_consistent operandsJob_picked rfl (by simp)
    (fun k base xs ys v hxs hys hv => ?_) (fun k x y z hz base pre post => ?_) (by simp)
    (by decide +kernel) _ _ operandsJob_protects
  · cases hv
    simp [appendOperator]
  · cases hz
    simp [appendOperator]

/-- Counted in parts they do not: the pass folds the operand under the snapshot onto the
value, and a read above then sees one operand where there were two. -/
theorem get_after_of_countingOperator : countingOperator.PartialMergeAgrees ∧
    operandsOverValue.Consistent ∧ Picked operandsOverValue operandsJob ∧ operandsJob.Protects [2] 3
    ∧ (operandsJob.after ⟨1000, none, some countingOperator⟩ operandsOverValue [2]
      fun _ => ⟨9, 1⟩).get countingOperator [107] 3 = .ok (some [1]) ∧
    operandsOverValue.get countingOperator [107] 3 = .ok (some [2]) := by
  refine ⟨fun k x y z hz => (by cases hz), operandsOverValue_consistent, operandsJob_picked,
    operandsJob_protects, ?_, ?_⟩
  · decide +kernel
  · decide +kernel

end RegolithStore
