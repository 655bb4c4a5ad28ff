import RegolithStore.Compaction.Writer

/-! What is true of every table a pass writes, whatever the operator, the filter, the
live snapshots and the target size: its metadata is that of its contents, it says
nothing about a key none of the inputs says something about, and the outputs of one
pass lie apart from one another. -/

namespace RegolithStore

open Lib List Entry RangeTombstone RangeTombstoneSet StreamingCompactionWriter Stripes

variable {es : List Entry} {o : LiveSst} {g : List RangeTombstone} {k : Key} {job : Job}
  {opts : CompactionOptions} {live : List Seq} {q : Seq}

variable {carried : RangeTombstoneSet} {file : OutputFile} {covered : List (Key × Key)}
  {ts : List RangeTombstone} {f : RangeTombstone} {x : Entry} {e : Entry}

/-! ### The groups -/

namespace Stripes

variable (s : Stripes) (merged : RangeTombstoneSet) (retirement : Retirement) {group : List Entry}

def written (group : List Entry) : List Entry :=
  retirement.retireDeletion (s.reduceGroup (group.filter fun e => !s.shadowed merged e))

variable {s merged retirement} in
theorem mem_written (h : x ∈ s.written merged retirement group) :
    ∃ e ∈ group, x.userKey = e.userKey ∧ x.seq = e.seq := by
  obtain ⟨e, he, hx⟩ := s.mem_reduceGroup ((retirement.retireDeletion_sublist _).subset h)
  exact ⟨e, mem_of_mem_filter he, hx⟩

theorem written_seq_sublist (group : List Entry) :
    ((s.written merged retirement group).map Entry.seq).Sublist (group.map Entry.seq) :=
  ((retirement.retireDeletion_sublist _).map _).trans
    ((s.reduceGroup_seq_sublist _).trans (filter_sublist.map _))

theorem written_length_le (group : List Entry) :
    (s.written merged retirement group).length ≤ group.length := by
  simpa using (s.written_seq_sublist merged retirement group).length_le

end Stripes

theorem Entry.strictWeak_before : StrictWeak fun a b : Entry => decide (a.Before b) where
  irrefl a := by simpa using Before.irrefl a
  trans {a b c} hba hcb := by
    simp only [before_iff, decide_eq_false_iff_not, not_lt] at *
    exact hba.trans hcb
  asymm {a b} hab := by
    simp only [before_iff, decide_eq_true_eq, decide_eq_false_iff_not] at *
    exact hab.asymm

namespace Job

variable {retirement : Retirement}

theorem mem_mergedEntries (h : e ∈ job.mergedEntries) : ∃ f ∈ job.files, e ∈ f.reader.entries := by
  have hmem := (mergeStreams_perm _).subset ((dedupBy_sublist _).subset h)
  obtain ⟨es, hes, he⟩ := mem_flatten.mp hmem
  obtain ⟨f, hf, rfl⟩ := mem_map.mp hes
  exact ⟨f, hf, he⟩

theorem exists_sameKey_mem_mergedEntries {f : LiveSst} (hf : f ∈ job.files)
    (he : e ∈ f.reader.entries) : ∃ b ∈ job.mergedEntries, b.SameKey e := by
  have hstream : e ∈ mergeStreams (fun a b => decide (a.Before b))
      (job.files.map fun f => f.reader.entries) :=
    (mergeStreams_perm _).symm.subset (mem_flatten.mpr ⟨_, mem_map_of_mem hf, he⟩)
  rcases exists_same_mem_dedupBy hstream with h | ⟨b, hb, hsame⟩
  · exact ⟨e, h, rfl, rfl, rfl⟩
  · exact ⟨b, hb, of_decide_eq_true hsame⟩

def Sorted (job : Job) : Prop := ∀ f ∈ job.files, f.reader.entries.Pairwise Before

theorem mergedEntries_sorted (hs : job.Sorted) :
    job.mergedEntries.Pairwise Before := by
  have hstreams : ∀ es ∈ job.files.map (fun f => f.reader.entries),
      es.Pairwise fun a b : Entry => decide (b.Before a) = false := by
    intro es hes
    obtain ⟨f, hf, rfl⟩ := mem_map.mp hes
    refine (hs f hf).imp fun hab => ?_
    simpa using fun hba => Entry.Before.irrefl _ (hab.trans hba)
  have htri : ∀ a b : Entry, decide (b.Before a) = false →
      decide (a.Before b) ∨ decide (a.SameKey b) := by
    intro a b hba
    simp only [decide_eq_true_eq, decide_eq_false_iff_not] at *
    rcases Entry.before_or_sameKey_or_before a b with h | h | h
    · exact .inl h
    · exact .inr h
    · exact absurd h hba
  have := dedupBy_strict strictWeak_before htri (mergeStreams_sorted strictWeak_before hstreams)
  exact this.imp fun h => by simpa using h

theorem groups_pairwise (hs : job.Sorted) (live : List Seq) (retirement : Retirement) :
    (job.groups opts live retirement).Pairwise
      fun g g' => ∀ a ∈ g, ∀ b ∈ g', a.userKey < b.userKey := by
  have hruns := runsOf_pairwise_lt ((mergedEntries_sorted hs).imp Entry.Before.userKey_le)
  refine pairwise_map.mpr (hruns.imp fun hlt a ha b hb => ?_)
  obtain ⟨x, hx, hax, -⟩ := mem_written ha
  obtain ⟨y, hy, hby, -⟩ := mem_written hb
  rw [hax, hby]
  exact hlt x hx y hy

theorem group_sorted (hs : job.Sorted) (hlive : live.Pairwise (· ≤ ·)) {g : List Entry}
    (hg : g ∈ job.groups opts live retirement) : g.Pairwise Before := by
  obtain ⟨run, hrun, rfl⟩ := mem_map.mp hg
  have hsrt : run.Pairwise Before := by
    have := mergedEntries_sorted hs
    rw [← flatten_runsOf (f := userKey) job.mergedEntries] at this
    exact (pairwise_flatten.mp this).1 run hrun
  refine (reduceGroup_sorted _ hlive (hsrt.sublist filter_sublist) ?_).sublist
    (retirement.retireDeletion_sublist _)
  intro a ha b hb
  exact eq_of_mem_runsOf hrun (mem_of_mem_filter ha) (mem_of_mem_filter hb)

theorem mem_groups {g : List Entry} (hg : g ∈ job.groups opts live retirement) (hx : x ∈ g) :
    ∃ f ∈ job.files, ∃ e ∈ f.reader.entries, x.userKey = e.userKey ∧ x.seq = e.seq := by
  obtain ⟨run, hrun, rfl⟩ := mem_map.mp hg
  obtain ⟨e, he, hxe⟩ := mem_written hx
  have hmem : e ∈ job.mergedEntries := by
    rw [← flatten_runsOf (f := userKey) job.mergedEntries]
    exact mem_flatten.mpr ⟨run, hrun, he⟩
  obtain ⟨f, hf, hef⟩ := mem_mergedEntries hmem
  exact ⟨f, hf, e, hef, hxe⟩

end Job

/-! ### Packing -/

namespace StreamingCompactionWriter

variable {w : StreamingCompactionWriter} {groups : List (List Entry)} {n : Nat}
  {rest : List (List Entry)} {l r : List (List Entry)}

def segments (w : StreamingCompactionWriter) : List (List Entry) := w.finished ++ [w.current]

/-- Every key of the one is below every key of the other. -/
def KeysLt (g g' : List Entry) : Prop := ∀ a ∈ g, ∀ b ∈ g', a.userKey < b.userKey

theorem pairwise_keysLt_join {g g' : List Entry}
    (h : (l ++ g :: g' :: r).Pairwise KeysLt) : (l ++ (g ++ g') :: r).Pairwise KeysLt := by
  simp only [pairwise_append, pairwise_cons, forall_mem_cons] at h ⊢
  obtain ⟨hl, ⟨⟨hgg, hg⟩, hg', hr⟩, hlr⟩ := h
  refine ⟨hl, ⟨fun c hc x hx => ?_, hr⟩, fun c hc => ⟨fun x hx y hy => ?_, (hlr c hc).2.2⟩⟩
  · exact (mem_append.mp hx).elim (hg c hc x) (hg' c hc x)
  · exact (mem_append.mp hy).elim ((hlr c hc).1 x hx y) ((hlr c hc).2.1 x hx y)

theorem pairwise_keysLt_nil (h : (l ++ r).Pairwise KeysLt) : (l ++ [] :: r).Pairwise KeysLt := by
  simp only [pairwise_append, pairwise_cons, forall_mem_cons] at h ⊢
  exact ⟨h.1, ⟨by simp [KeysLt], h.2.1⟩, fun c hc => ⟨by simp [KeysLt], h.2.2 c hc⟩⟩

theorem finishCurrent_pairwise
    (h : (w.segments ++ rest).Pairwise KeysLt) : (w.finishCurrent.segments ++ rest).Pairwise KeysLt := by
  unfold finishCurrent
  split_ifs
  · exact h
  · simpa [segments] using pairwise_keysLt_nil h

theorem addGroup_pairwise {g : List Entry} (h : (w.segments ++ g :: rest).Pairwise KeysLt) :
    ((w.addGroup n g).segments ++ rest).Pairwise KeysLt := by
  unfold addGroup
  split_ifs with hg hn
  · exact h.sublist (List.Sublist.append_left (sublist_cons_self g rest) _)
  · have := finishCurrent_pairwise h
    simp only [segments, append_assoc, singleton_append] at this ⊢
    exact pairwise_keysLt_join this
  · simp only [segments, append_assoc, singleton_append] at h ⊢
    exact pairwise_keysLt_join h

theorem foldl_addGroup_pairwise (h : (w.segments ++ groups).Pairwise KeysLt) :
    (groups.foldl (addGroup n) w).segments.Pairwise KeysLt := by
  induction groups generalizing w with
  | nil => simpa using h
  | cons g groups ih => exact ih (addGroup_pairwise h)

theorem segments_addGroup_flatten (n : Nat) (w : StreamingCompactionWriter) (g : List Entry) :
    (w.addGroup n g).segments.flatten = w.segments.flatten ++ g := by
  unfold addGroup finishCurrent
  split_ifs with hg hn hw
  · simp [hg]
  · simp [segments, append_assoc]
  · simp [segments]
  · simp [segments, append_assoc]

theorem foldl_addGroup_flatten (n : Nat) (w : StreamingCompactionWriter)
    (groups : List (List Entry)) :
    (groups.foldl (addGroup n) w).segments.flatten = w.segments.flatten ++ groups.flatten := by
  induction groups generalizing w with
  | nil => simp
  | cons g groups ih => rw [foldl_cons, ih, segments_addGroup_flatten, flatten_cons, append_assoc]

theorem finished_finishCurrent_ne_nil (h : ∀ es ∈ w.finished, es ≠ []) :
    ∀ es ∈ w.finishCurrent.finished, es ≠ [] := by
  unfold finishCurrent
  split_ifs with hw
  · exact h
  · intro es hes
    rcases mem_append.mp hes with hes | hes
    · exact h es hes
    · rwa [mem_singleton.mp hes]

theorem addGroup_ne_nil (g : List Entry) (h : ∀ es ∈ w.finished, es ≠ []) :
    ∀ es ∈ (w.addGroup n g).finished, es ≠ [] := by
  unfold addGroup
  split_ifs
  · exact h
  · exact finished_finishCurrent_ne_nil h
  · exact h

theorem foldl_addGroup_ne_nil (groups : List (List Entry)) (h : ∀ es ∈ w.finished, es ≠ []) :
    ∀ es ∈ (groups.foldl (addGroup n) w).finished, es ≠ [] := by
  induction groups generalizing w with
  | nil => exact h
  | cons g groups ih => exact ih (addGroup_ne_nil g h)

theorem finished_finishCurrent_sublist (w : StreamingCompactionWriter) :
    w.finishCurrent.finished.Sublist w.segments := by
  unfold finishCurrent
  split_ifs
  · exact sublist_append_left _ _
  · exact List.Sublist.refl _

theorem finished_finishCurrent_flatten (w : StreamingCompactionWriter) :
    w.finishCurrent.finished.flatten = w.segments.flatten := by
  unfold finishCurrent
  split_ifs with h
  · simp [segments, h]
  · rfl

theorem outputs_flatten (n : Nat) (groups : List (List Entry)) :
    (outputs n groups).flatten = groups.flatten := by
  rw [outputs, finished_finishCurrent_flatten, foldl_addGroup_flatten]
  simp [segments, new]

theorem outputs_ne_nil (h : es ∈ outputs n groups) : es ≠ [] :=
  finished_finishCurrent_ne_nil (foldl_addGroup_ne_nil groups (by simp [new])) es h

theorem outputs_pairwise (h : groups.Pairwise KeysLt) : (outputs n groups).Pairwise KeysLt := by
  refine (foldl_addGroup_pairwise ?_).sublist (finished_finishCurrent_sublist _)
  simpa [segments, new] using pairwise_keysLt_nil (l := []) h

end StreamingCompactionWriter

/-! ### Outputs with points -/

theorem pointOutput_eq_some (h : pointOutput carried file es = some o) :
    ∃ hne : es ≠ [], o.smallest = (es.head hne).userKey ∧ o.largest = (es.getLast hne).userKey ∧
      o.reader.entries = es ∧ o.id = file.fileId ∧
      ∀ t, t ∈ o.tombstones ↔ t ∈ carried.clippedOverlaps o.smallest (succBytes o.largest) := by
  by_cases hne : es = []
  · simp [pointOutput, pointRange, hne] at h
  · rw [pointOutput, pointRange_eq_some hne, Option.bind_some] at h
    obtain ⟨summary, -, rfl⟩ := Option.map_eq_some_iff.mp h
    exact ⟨hne, rfl, rfl, rfl, rfl, fun t => RangeTombstoneSet.mem_fromVec⟩

theorem pointOutput_numEntries (h : pointOutput carried file es = some o) :
    o.metadata.numEntries = UInt64.ofNat es.length := by
  obtain ⟨range, -, h⟩ := Option.bind_eq_some_iff.mp h
  obtain ⟨summary, hsummary, rfl⟩ := Option.map_eq_some_iff.mp h
  obtain ⟨range', -, rfl⟩ := Option.map_eq_some_iff.mp hsummary
  rfl

theorem exists_pointOutput (carried : RangeTombstoneSet) (file : OutputFile) (hne : es ≠ []) :
    ∃ o, pointOutput carried file es = some o := by
  have hsome : (SsTableWriter.finish carried es (carried.clippedOverlaps (es.head hne).userKey
      (succBytes (es.getLast hne).userKey))).isSome := by
    rw [SsTableWriter.finish, Option.isSome_map]
    exact tableKeyRange_isSome (.inl (by rw [pointRange_eq_some hne]; rfl))
  obtain ⟨summary, hsummary⟩ := Option.isSome_iff_exists.mp hsome
  simp only [pointOutput, pointRange_eq_some hne, Option.bind_some, hsummary, Option.map_some,
    Option.some.injEq, exists_eq']

theorem pointOutput_sound (h : pointOutput carried file es = some o)
    (hes : es.Pairwise Before) : o.Sound := by
  obtain ⟨hne, hf, hl, hents, -, hts⟩ := pointOutput_eq_some h
  refine ⟨?_, hents ▸ hes, ?_⟩
  · rw [hf, hl]
    exact (userKey_bounds hne hes (head_mem hne)).2
  · rintro k (⟨e, he, rfl⟩ | ⟨t, ht, hk⟩)
    · rw [hf, hl]
      exact userKey_bounds hne hes (hents ▸ he)
    · obtain ⟨-, u, -, hclip⟩ := mem_clippedOverlaps.mp ((hts t).mp ht)
      obtain ⟨-, hlo, hhi⟩ := (clipTo_covers hclip).mp hk
      exact ⟨hlo, lt_succBytes_iff.mp hhi⟩

theorem pointOutput_holds (h : pointOutput carried file es = some o) (hk : o.Holds k) :
    (∃ e ∈ es, e.userKey = k) ∨ ∃ t ∈ carried.tombstones, t.Covers k := by
  obtain ⟨-, -, -, he, -, hts⟩ := pointOutput_eq_some h
  rcases hk with hk | ⟨t, ht, hk⟩
  · exact .inl (he ▸ hk)
  · obtain ⟨-, u, hu, hclip⟩ := mem_clippedOverlaps.mp ((hts t).mp ht)
    exact .inr ⟨u, hu, ((clipTo_covers hclip).mp hk).1⟩

/-! ### Outputs of tombstones alone -/

/-- The loop gives the gaps between the covered ranges. -/
theorem uncoveredFrom_eq_gaps (stop cursor : Key) (covered : List (Key × Key)) :
    uncoveredFrom stop cursor covered = gaps stop cursor covered := by
  have hr : ∀ a b : Key, (if a < b then [(a, b)] else []) = rest? a b := fun a b => by
    split_ifs with h
    · exact (if_pos h).symm
    · exact (if_neg h).symm
  induction covered generalizing cursor with
  | nil => exact hr cursor stop
  | cons c covered ih =>
    rw [uncoveredFrom, gaps]
    by_cases h1 : c.2 ≤ cursor
    · rw [if_pos h1, if_pos h1, ih]
    · rw [if_neg h1, if_neg h1]
      by_cases h2 : stop ≤ c.1
      · rw [if_pos h2, if_pos h2, hr]
      · -- the range starts before the stop and ends past the cursor
        have hend : min c.1 stop = c.1 := min_eq_left (not_le.mp h2).le
        rw [if_neg h2, if_neg h2]
        simp only [hend, and_self, if_pos (not_le.mp h1), max_eq_left (not_le.mp h1).le, hr, ih]
        congr 1
        split_ifs with h
        · exact (gaps_eq_nil covered h).symm
        · rfl

theorem exists_fragment_covers : (∃ f ∈ uncoveredFragments ts covered, f.seq = q ∧ f.Covers k) ↔
      (∃ t ∈ ts, t.seq = q ∧ t.Covers k) ∧ ∀ r ∈ covered, ¬ InRange r k := by
  have hgaps : ∀ t : RangeTombstone, (∃ r ∈ gaps t.stop t.start (joinRanges covered), InRange r k) ↔
        t.Covers k ∧ ∀ r ∈ covered, ¬ InRange r k := by
    intro t
    rw [exists_inRange_gaps (separated_joinRanges covered)]
    have := exists_inRange_joinRanges (l := covered) (k := k)
    exact and_congr_right fun _ => by simpa using not_congr this
  simp only [uncoveredFragments, mem_sortDedupTombstones, mem_flatMap, mem_map,
    uncoveredFrom_eq_gaps]
  constructor
  · rintro ⟨f, ⟨t, ht, r, hr, rfl⟩, rfl, hk⟩
    obtain ⟨htk, hc⟩ := (hgaps t).mp ⟨r, hr, hk⟩
    exact ⟨⟨t, ht, rfl, htk⟩, hc⟩
  · rintro ⟨⟨t, ht, rfl, htk⟩, hc⟩
    obtain ⟨r, hr, hk⟩ := (hgaps t).mpr ⟨htk, hc⟩
    exact ⟨⟨r.1, r.2, t.seq⟩, ⟨t, ht, r, hr, rfl⟩, rfl, hk⟩

theorem fragment_nonempty (h : f ∈ uncoveredFragments ts covered) : f.start < f.stop := by
  simp only [uncoveredFragments, mem_sortDedupTombstones, mem_flatMap, mem_map,
    uncoveredFrom_eq_gaps] at h
  obtain ⟨t, -, r, hr, rfl⟩ := h
  exact nonempty_of_mem_gaps hr

theorem mem_groupFragments {fragments : List RangeTombstone} :
    (∃ g ∈ groupFragments fragments, f ∈ g) ↔ f ∈ fragments := by
  rw [← mem_flatten, groupFragments, flatten_groupTouching, mem_sortDedupTombstones]

theorem groupFragments_blocks (fragments : List RangeTombstone) : (∀ g ∈ groupFragments fragments,
      ∃ s e, Block RangeTombstone.start RangeTombstone.stop g s e) ∧
    (groupFragments fragments).Pairwise fun g g' => ∀ a ∈ g, ∀ b ∈ g', a.stop < b.start :=
  groupTouching_blocks (sortDedupTombstones_start_le fragments)

theorem tombstoneOutput_eq_some {s e : Key} (h : tombstoneOutput file g = some o)
    (hg : Block RangeTombstone.start RangeTombstone.stop g s e) :
    o.smallest = s ∧ o.largest = e ∧ o.reader.entries = [] ∧ o.id = file.fileId ∧
      ∀ t, t ∈ o.tombstones ↔ t ∈ g := by
  obtain ⟨hr, hents, hid, hts⟩ := writeTable_eq_some h
  have hw := (tableKeyRange_within hr).2
  have hattained := tableKeyRange_attained hr
  simp only [pointRange, head?_nil, Option.not_mem_none, false_and, exists_false, false_or,
    RangeTombstoneSet.mem_fromVec] at hw hattained
  obtain ⟨⟨a, ha, hsa⟩, b, hb, heb⟩ := hattained
  obtain ⟨first, hf, hs⟩ := hg.first
  obtain ⟨last, hl, he⟩ := hg.last
  refine ⟨?_, ?_, hents, hid, hts⟩
  · exact le_antisymm (hs ▸ (hw first hf).1) (hsa ▸ (hg.within a ha).1)
  · exact le_antisymm (heb ▸ (hg.within b hb).2) (he ▸ (hw last hl).2)

theorem exists_tombstoneOutput (file : OutputFile) (hne : g ≠ []) :
    ∃ o, tombstoneOutput file g = some o := by
  have hsome : (SsTableWriter.finish (fromVec []) [] g).isSome := by
    rw [SsTableWriter.finish, Option.isSome_map]
    refine tableKeyRange_isSome (.inr fun hnil => ?_)
    obtain ⟨t, ht⟩ := exists_mem_of_ne_nil g hne
    exact absurd (RangeTombstoneSet.mem_fromVec.mpr ht) (by simp [hnil])
  obtain ⟨summary, hsummary⟩ := Option.isSome_iff_exists.mp hsome
  rw [tombstoneOutput, writeTable, hsummary]
  exact ⟨_, rfl⟩

/-- `a` ends before `b` starts. A table of tombstones alone ends exclusively: it may end at the
first key of `b`. -/
def LiveSst.EndsBefore (a b : LiveSst) : Prop :=
  a.largest < b.smallest ∨ a.reader.entries = [] ∧ a.smallest < a.largest ∧ a.largest = b.smallest

namespace Job

variable {retirement : Retirement} {t : RangeTombstone}

theorem groups_flatten_sorted (hs : job.Sorted) (hlive : live.Pairwise (· ≤ ·)) :
    (job.groups opts live retirement).flatten.Pairwise Before := by
  refine pairwise_flatten.mpr ⟨fun g hg => group_sorted hs hlive hg, ?_⟩
  exact (groups_pairwise hs live retirement).imp fun hlt a ha b hb =>
    .inl (hlt a ha b hb)

theorem pointFile_sorted (hs : job.Sorted) (hlive : live.Pairwise (· ≤ ·))
    (h : es ∈ job.pointFiles opts live retirement) : es.Pairwise Before := by
  have hflat : (job.groups opts live retirement).flatten.Pairwise Before :=
    groups_flatten_sorted hs hlive
  rw [← outputs_flatten opts.targetFileSize] at hflat
  exact (pairwise_flatten.mp hflat).1 es h

theorem mem_pointFile (h : es ∈ job.pointFiles opts live retirement) (hx : x ∈ es) :
    ∃ f ∈ job.files, ∃ e ∈ f.reader.entries, x.userKey = e.userKey ∧ x.seq = e.seq := by
  have hmem : x ∈ (job.groups opts live retirement).flatten := by
    rw [← outputs_flatten opts.targetFileSize]
    exact mem_flatten.mpr ⟨es, h, hx⟩
  obtain ⟨g, hg, hxg⟩ := mem_flatten.mp hmem
  exact mem_groups hg hxg

/-! ### The outputs of a pass -/

def Holds (job : Job) (k : Key) : Prop := ∃ f ∈ job.files, f.Holds k

theorem mem_outputs {file : Nat → OutputFile} (h : o ∈ job.outputs opts live retirement file) :
    (∃ es ∈ job.pointFiles opts live retirement, ∃ i,
      pointOutput (retirement.carriedTombstones (job.mergedTombstones opts)) (file i) es = some o) ∨
    ∃ g ∈ job.tombstoneFiles opts live retirement, ∃ i, tombstoneOutput (file i) g = some o := by
  rcases mem_append.mp h with h | h
  · obtain ⟨p, hp, ho⟩ := mem_filterMap.mp h
    exact .inl ⟨p.1, fst_mem_of_mem_zipIdx hp, p.2, ho⟩
  · obtain ⟨p, hp, ho⟩ := mem_filterMap.mp h
    exact .inr ⟨p.1, fst_mem_of_mem_zipIdx hp, p.2, ho⟩

theorem carried_holds
    (h : t ∈ (retirement.carriedTombstones (job.mergedTombstones opts)).tombstones)
    (hk : t.Covers k) : job.Holds k := by
  have hm := (retirement.mem_carriedTombstones.mp h).1
  obtain ⟨f, hf, ht⟩ := mem_flatMap.mp (mem_of_mem_filter (RangeTombstoneSet.mem_fromVec.mp hm))
  exact ⟨f, hf, .inr ⟨t, ht, hk⟩⟩

theorem tombstoneFile_covers (hg : g ∈ job.tombstoneFiles opts live retirement)
    (ht : t ∈ g) (hk : t.Covers k) : job.Holds k ∧ ∀ es ∈ job.pointFiles opts live retirement, ∀
    range ∈ pointRange es,
      ¬ (range.1 ≤ k ∧ k ≤ range.2) := by
  have hfrag := mem_groupFragments.mp ⟨g, hg, ht⟩
  obtain ⟨⟨u, hu, -, huk⟩, hc⟩ := exists_fragment_covers.mp ⟨t, hfrag, rfl, hk⟩
  refine ⟨carried_holds hu huk, fun es hes range hr hin => ?_⟩
  refine hc (range.1, succBytes range.2) ?_ ⟨hin.1, lt_succBytes_iff.mpr hin.2⟩
  exact mem_filterMap.mpr ⟨es, hes, by rw [hr]; rfl⟩

theorem tombstoneFile_block (hg : g ∈ job.tombstoneFiles opts live retirement) :
    ∃ s e, s < e ∧ Block RangeTombstone.start RangeTombstone.stop g s e := by
  obtain ⟨s, e, hb⟩ := (groupFragments_blocks _).1 g hg
  obtain ⟨first, hf, hs⟩ := hb.first
  have hne := fragment_nonempty (mem_groupFragments.mp ⟨g, hg, hf⟩)
  exact ⟨s, e, hs ▸ hne.trans_le (hb.within first hf).2, hb⟩

theorem tombstoneFile_ne_nil (hg : g ∈ job.tombstoneFiles opts live retirement) : g ≠ [] := by
  obtain ⟨s, e, -, hb⟩ := tombstoneFile_block hg
  obtain ⟨t, ht, -⟩ := hb.first
  exact ne_nil_of_mem ht

variable {file : Nat → OutputFile}

theorem tombstoneFile_output (hg : g ∈ job.tombstoneFiles opts live retirement) {file : OutputFile}
    (h : tombstoneOutput file g = some o) : o.smallest < o.largest ∧
      Block RangeTombstone.start RangeTombstone.stop g o.smallest o.largest ∧
      o.reader.entries = [] ∧ ∀ t, t ∈ o.tombstones ↔ t ∈ g := by
  obtain ⟨s, e, hlt, hb⟩ := tombstoneFile_block hg
  obtain ⟨rfl, rfl, he, -, hts⟩ := tombstoneOutput_eq_some h hb
  exact ⟨hlt, hb, he, hts⟩

theorem output_sound (hs : job.Sorted) (hlive : live.Pairwise (· ≤ ·))
    (h : o ∈ job.outputs opts live retirement file) : o.Sound := by
  rcases mem_outputs h with ⟨es, hes, i, ho⟩ | ⟨g, hg, i, ho⟩
  · exact pointOutput_sound ho (pointFile_sorted hs hlive hes)
  · obtain ⟨hlt, hb, he, hts⟩ := tombstoneFile_output hg ho
    refine ⟨hlt.le, by rw [he]; exact .nil, ?_⟩
    rintro k (⟨x, hx, -⟩ | ⟨t, ht, hk⟩)
    · simp [he] at hx
    · obtain ⟨h1, h2⟩ := hb.within t ((hts t).mp ht)
      exact ⟨h1.trans hk.1, hk.2.le.trans h2⟩

section

variable (h : o ∈ job.outputs opts live retirement file) {c : Key}

include h

theorem output_holds (hk : o.Holds k) :
    job.Holds k := by
  rcases mem_outputs h with ⟨es, hes, i, ho⟩ | ⟨g, hg, i, ho⟩
  · rcases pointOutput_holds ho hk with ⟨x, hx, rfl⟩ | ⟨t, ht, hk⟩
    · obtain ⟨f, hf, e, he, hk, -⟩ := mem_pointFile hes hx
      exact ⟨f, hf, .inl ⟨e, he, hk.symm⟩⟩
    · exact carried_holds ht hk
  · obtain ⟨-, -, hents, hts⟩ := tombstoneFile_output hg ho
    rcases hk with ⟨x, hx, -⟩ | ⟨t, ht, hk⟩
    · simp [hents] at hx
    · exact (tombstoneFile_covers hg ((hts t).mp ht) hk).1

theorem output_hull : o.Holds o.smallest ∧ (o.Holds o.largest ∨
      o.reader.entries = [] ∧ ∀ k, o.smallest ≤ k → k < o.largest → o.Holds k) := by
  rcases mem_outputs h with ⟨es, -, i, ho⟩ | ⟨g, hg, i, ho⟩
  · obtain ⟨hne, hf, hl, he, -, -⟩ := pointOutput_eq_some ho
    exact ⟨.inl ⟨es.head hne, he ▸ head_mem hne, hf.symm⟩,
      .inl (.inl ⟨es.getLast hne, he ▸ getLast_mem hne, hl.symm⟩)⟩
  · obtain ⟨hlt, hb, he, hts⟩ := tombstoneFile_output hg ho
    have hsolid : ∀ k, o.smallest ≤ k → k < o.largest → o.Holds k := by
      intro k h1 h2
      obtain ⟨t, ht, hk⟩ := hb.solid k h1 h2
      exact .inr ⟨t, (hts t).mpr ht, hk⟩
    exact ⟨hsolid _ le_rfl hlt, .inr ⟨he, hsolid⟩⟩

theorem output_below (hc : ∀ k, job.Holds k → k < c) : o.smallest < c ∧ o.largest ≤ c := by
  obtain ⟨hf, hl⟩ := output_hull h
  have hsmall := hc _ (output_holds h hf)
  refine ⟨hsmall, ?_⟩
  rcases hl with hl | ⟨-, hsolid⟩
  · exact (hc _ (output_holds h hl)).le
  · by_contra hlt
    exact lt_irrefl _ (hc _ (output_holds h (hsolid c hsmall.le (not_le.mp hlt))))

end

section

variable (hs : job.Sorted) (hlive : live.Pairwise (· ≤ ·))

include hs hlive

/-- Of two outputs one ends before the other. -/
theorem outputs_endsBefore
    (file : Nat → OutputFile) : (job.outputs opts live retirement file).Pairwise
      fun a b => a.EndsBefore b ∨ b.EndsBefore a := by
  refine pairwise_append.mpr ⟨?_, ?_, ?_⟩
  · -- point outputs ascend
    refine pairwise_filterMap_zipIdx (outputs_pairwise (groups_pairwise hs live retirement)) ?_
    intro es _ es' _ hlt i j a b ha hb
    obtain ⟨hne, -, hl, -⟩ := pointOutput_eq_some ha
    obtain ⟨hne', hf, -⟩ := pointOutput_eq_some hb
    refine .inl (.inl ?_)
    rw [hl, hf]
    exact hlt _ (getLast_mem hne) _ (head_mem hne')
  · -- so do the groups of tombstones
    refine pairwise_filterMap_zipIdx (groupFragments_blocks _).2 ?_
    intro g hg g' hg' hlt i j a b ha hb
    obtain ⟨last, hl, he⟩ := (tombstoneFile_output hg ha).2.1.last
    obtain ⟨first, hf, hs'⟩ := (tombstoneFile_output hg' hb).2.1.first
    refine .inl (.inl ?_)
    rw [← he, ← hs']
    exact hlt last hl first hf
  · -- a group of tombstones lies in a gap between the points
    intro a ha b hb
    obtain ⟨p, hp, ha⟩ := mem_filterMap.mp ha
    obtain ⟨q, hq, hb⟩ := mem_filterMap.mp hb
    have hp := fst_mem_of_mem_zipIdx hp
    have hq := fst_mem_of_mem_zipIdx hq
    obtain ⟨hne, hf, hl, -⟩ := pointOutput_eq_some ha
    have hsnd := pointOutput_sound ha (pointFile_sorted hs hlive hp)
    obtain ⟨hlt, hblk, hents, -⟩ := tombstoneFile_output hq hb
    have hgap : ∀ k, b.smallest ≤ k → k < b.largest → ¬ (a.smallest ≤ k ∧ k ≤ a.largest) := by
      intro k h1 h2
      obtain ⟨t, ht, hk⟩ := hblk.solid k h1 h2
      rw [hf, hl]
      exact (tombstoneFile_covers hq ht hk).2 p.1 hp _ (pointRange_eq_some hne)
    by_cases hsa : b.smallest < a.smallest
    · have hle : b.largest ≤ a.smallest :=
        not_lt.mp fun h => hgap a.smallest hsa.le h ⟨le_rfl, hsnd.ordered⟩
      exact .inr (hle.lt_or_eq.imp_right fun heq => ⟨hents, hlt, heq⟩)
    · exact .inl (.inl (not_le.mp fun h => hgap b.smallest le_rfl hlt ⟨not_lt.mp hsa, h⟩))

/-- The outputs can be placed in one sorted run, one after the other. -/
theorem outputs_apart (file : Nat → OutputFile) : (job.outputs opts live retirement file).Pairwise
      fun a b => Apart LiveSst.smallest LiveSst.largest b a := by
  refine (outputs_endsBefore hs hlive file).imp_of_mem fun _ hb h => ?_
  have ho := (output_sound hs hlive hb).ordered
  rcases h with (hlt | ⟨-, -, heq⟩) | hlt | ⟨-, hlt, heq⟩
  · exact .inl hlt.le
  · exact .inl heq.le
  · exact .inr ⟨hlt.le, ho.trans_lt hlt⟩
  · exact .inr ⟨heq.le, heq ▸ hlt⟩

theorem output_held_lt (h : o ∈ job.outputs opts live retirement file) (hk : o.Holds k)
    {b : LiveSst} (hb : o.EndsBefore b) : k < b.smallest := by
  have hle := ((output_sound hs hlive h).within k hk).2
  rcases hb with hlt | ⟨he, -, heq⟩
  · exact hle.trans_lt hlt
  · rcases mem_outputs h with ⟨es, -, i, ho⟩ | ⟨g, hg, i, ho⟩
    · obtain ⟨hne, -, -, hes, -⟩ := pointOutput_eq_some ho
      exact absurd (hes.symm.trans he) hne
    · obtain ⟨-, hblk, -, hts⟩ := tombstoneFile_output hg ho
      rcases hk with ⟨x, hx, -⟩ | ⟨t, ht, hk⟩
      · simp [he] at hx
      · exact heq ▸ hk.2.trans_le (hblk.within t ((hts t).mp ht)).2

theorem outputs_holds_pairwise
    (file : Nat → OutputFile) (k : Key) : (job.outputs opts live retirement file).Pairwise
      fun a b => ¬ (a.Holds k ∧ b.Holds k) := by
  refine (outputs_endsBefore hs hlive file).imp_of_mem fun {a b} ha hb h => fun ⟨hka, hkb⟩ => ?_
  rcases h with h | h
  · exact absurd ((output_sound hs hlive hb).within k hkb).1 (not_le.mpr (output_held_lt hs hlive ha hka h))
  · exact absurd ((output_sound hs hlive ha).within k hka).1 (not_le.mpr (output_held_lt hs hlive hb hkb h))

end

/-! ### What the outputs say about one key -/

theorem groups_eq_flatMap_filter (hs : job.Sorted) (k : Key) :
    (job.groups opts live retirement).flatten.filter (fun e => decide (e.userKey = k)) =
      (job.stripes opts live).written (job.mergedTombstones opts) retirement
        (job.mergedEntries.filter fun e => decide (e.userKey = k)) := by
  have hasc := (mergedEntries_sorted hs).imp Entry.Before.userKey_le
  have h := filter_flatMap_groups userKey
    ((job.stripes opts live).written (job.mergedTombstones opts) retirement)
    (by simp [written, Retirement.retireDeletion]) (fun g => ne_nil_of_mem_runsOf)
    (fun g hg a ha b hb => eq_of_mem_runsOf hg ha hb) (runsOf_pairwise_lt hasc)
    (fun g _ b hb => (mem_written hb).imp fun a ha => ⟨ha.1, ha.2.1⟩) k
  rwa [flatten_runsOf, flatMap_def] at h

theorem pointOutputs_entriesOf (carried : RangeTombstoneSet) (file : Nat → OutputFile) (k : Key)
    {points : List (List Entry)} (hne : ∀ es ∈ points, es ≠ []) (n : Nat) :
    (((points.zipIdx n).filterMap fun p => pointOutput carried (file p.2) p.1).flatMap
      fun o => o.entriesOf k) = points.flatten.filter fun e => decide (e.userKey = k) := by
  induction points generalizing n with
  | nil => rfl
  | cons es points ih =>
    rw [forall_mem_cons] at hne
    obtain ⟨o, ho⟩ := exists_pointOutput carried (file n) hne.1
    obtain ⟨-, -, -, he, -⟩ := pointOutput_eq_some ho
    simp only [zipIdx_cons, filterMap_cons, ho]
    rw [flatMap_cons, ih hne.2, flatten_cons, filter_append, LiveSst.entriesOf, he]

/-- The entries of a key in the outputs are its group, shadowed, reduced and retired. -/
theorem outputs_entriesOf (hs : job.Sorted) (file : Nat → OutputFile) (k : Key) :
    ((job.outputs opts live retirement file).flatMap fun o => o.entriesOf k) =
      (job.stripes opts live).written (job.mergedTombstones opts) retirement
        (job.mergedEntries.filter fun e => decide (e.userKey = k)) := by
  have hne : ∀ es ∈ job.pointFiles opts live retirement, es ≠ [] :=
    fun es => outputs_ne_nil
  have hn : (((job.tombstoneFiles opts live retirement).zipIdx
      (job.pointFiles opts live retirement).length).filterMap fun p =>
        tombstoneOutput (file p.2) p.1).flatMap (fun o => o.entriesOf k) = [] := by
    refine flatMap_eq_nil_iff.mpr fun o ho => ?_
    obtain ⟨p, hp, ho⟩ := mem_filterMap.mp ho
    rw [LiveSst.entriesOf, (tombstoneFile_output (fst_mem_of_mem_zipIdx hp) ho).2.2.1, filter_nil]
  rw [outputs, flatMap_append, hn, append_nil, pointOutputs_entriesOf _ _ _ hne,
    pointFiles, outputs_flatten, groups_eq_flatMap_filter hs]

theorem exists_of_mem_pointFiles (h : es ∈ job.pointFiles opts live retirement)
    (file : Nat → OutputFile) : ∃ o ∈ job.outputs opts live retirement file, ∃ i,
      pointOutput (retirement.carriedTombstones (job.mergedTombstones opts)) (file i) es = some o := by
  obtain ⟨i, hi⟩ := getElem?_of_mem h
  obtain ⟨o, ho⟩ := exists_pointOutput (retirement.carriedTombstones (job.mergedTombstones opts))
    (file i) (outputs_ne_nil h)
  refine ⟨o, mem_append_left _ (mem_filterMap.mpr ⟨(es, i), ?_, ho⟩), i, ho⟩
  exact mk_mem_zipIdx_iff_getElem?.mpr hi

theorem exists_of_mem_tombstoneFiles (h : g ∈ job.tombstoneFiles opts live retirement)
    (file : Nat → OutputFile) :
    ∃ o ∈ job.outputs opts live retirement file, ∃ i, tombstoneOutput (file i) g = some o := by
  obtain ⟨i, hi⟩ := getElem?_of_mem h
  obtain ⟨o, ho⟩ := exists_tombstoneOutput
    (file ((job.pointFiles opts live retirement).length + i)) (tombstoneFile_ne_nil h)
  refine ⟨o, mem_append_right _ (mem_filterMap.mpr ⟨(g, _), ?_, ho⟩), _, ho⟩
  exact mk_add_mem_zipIdx_iff_getElem?.mpr hi

/-- The outputs cover what the carried tombstones cover, at the same sequences. -/
theorem outputs_covers :
    (∃ o ∈ job.outputs opts live retirement file, ∃ t ∈ o.tombstones, t.seq = q ∧ t.Covers k) ↔
      ∃ t ∈ (retirement.carriedTombstones (job.mergedTombstones opts)).tombstones,
        t.seq = q ∧ t.Covers k := by
  constructor
  · rintro ⟨o, ho, t, ht, rfl, hk⟩
    rcases mem_outputs ho with ⟨es, -, i, ho⟩ | ⟨g, hg, i, ho⟩
    · obtain ⟨-, -, -, -, -, hts⟩ := pointOutput_eq_some ho
      obtain ⟨-, u, hu, hclip⟩ := mem_clippedOverlaps.mp ((hts t).mp ht)
      exact ⟨u, hu, (clipTo_seq hclip).symm, ((clipTo_covers hclip).mp hk).1⟩
    · have htg := ((tombstoneFile_output hg ho).2.2.2 t).mp ht
      exact (exists_fragment_covers.mp ⟨t, mem_groupFragments.mp ⟨g, hg, htg⟩, rfl, hk⟩).1
  · rintro ⟨t, ht, rfl, hk⟩
    by_cases hin : ∃ es ∈ job.pointFiles opts live retirement, ∃ range ∈ pointRange es,
      range.1 ≤ k ∧ k ≤ range.2
    · -- clipped into the output whose points lie around the key
      obtain ⟨es, hes, range, hrng, h1, h2⟩ := hin
      obtain ⟨o, ho, i, hpoint⟩ := exists_of_mem_pointFiles hes file
      obtain ⟨hne, hfst, hl, -, -, hts⟩ := pointOutput_eq_some hpoint
      rw [pointRange_eq_some hne, Option.mem_some_iff] at hrng
      subst hrng
      rw [← hfst] at h1
      rw [← hl, ← lt_succBytes_iff] at h2
      obtain ⟨c, hc⟩ := exists_clipTo hk h1 h2
      refine ⟨o, ho, c, (hts c).mpr (mem_clippedOverlaps.mpr ?_),
        clipTo_seq hc, (clipTo_covers hc).mpr ⟨hk, h1, h2⟩⟩
      exact ⟨h1.trans_lt h2, t, ht, hc⟩
    · -- or left over between them
      have hout : ∀ range ∈ (job.pointFiles opts live retirement).filterMap fun es =>
          (pointRange es).map fun range => (range.1, succBytes range.2), ¬ InRange range k := by
        intro range hrng hk
        obtain ⟨es, hes, hr⟩ := mem_filterMap.mp hrng
        obtain ⟨points, hp, rfl⟩ := Option.map_eq_some_iff.mp hr
        exact hin ⟨es, hes, points, hp, hk.1, lt_succBytes_iff.mp hk.2⟩
      obtain ⟨f, hf, hseq, hfk⟩ := exists_fragment_covers.mpr ⟨⟨t, ht, rfl, hk⟩, hout⟩
      obtain ⟨g, hg, hfg⟩ := mem_groupFragments.mpr hf
      obtain ⟨o, ho, i, hout⟩ := exists_of_mem_tombstoneFiles hg file
      exact ⟨o, ho, f, ((tombstoneFile_output hg hout).2.2.2 f).mpr hfg, hseq, hfk⟩

theorem length_pointFile_le (h : es ∈ job.pointFiles opts live retirement) :
    es.length ≤ job.mergedEntries.length := by
  have hes : es.length ≤ (job.groups opts live retirement).flatten.length := by
    rw [← outputs_flatten opts.targetFileSize]
    exact (sublist_flatten_of_mem h).length_le
  refine hes.trans ?_
  conv_rhs => rw [← flatten_runsOf (f := userKey) job.mergedEntries]
  rw [groups]
  induction runsOf userKey job.mergedEntries with
  | nil => exact le_rfl
  | cons run runs ih =>
    simp only [map_cons, flatten_cons, length_append]
    exact Nat.add_le_add (written_length_le _ _ _ run) ih

theorem output_counted (hsize : job.mergedEntries.length < 2 ^ 64)
    (h : o ∈ job.outputs opts live retirement file) (hz : o.metadata.numEntries = 0) :
    o.reader.entries = [] := by
  rcases mem_outputs h with ⟨es, hes, i, ho⟩ | ⟨g, hg, i, ho⟩
  · obtain ⟨-, -, -, he, -⟩ := pointOutput_eq_some ho
    rw [pointOutput_numEntries ho] at hz
    have hnat := congrArg UInt64.toNat hz
    rw [UInt64.toNat_ofNat', UInt64.toNat_zero,
      Nat.mod_eq_of_lt ((length_pointFile_le hes).trans_lt hsize)] at hnat
    rw [he]
    exact length_eq_zero_iff.mp hnat
  · exact (tombstoneFile_output hg ho).2.2.1

end Job

end RegolithStore
