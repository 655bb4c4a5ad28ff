import RegolithStore.Compaction.Reduction

/-! Putting a pass's outputs in the place of its inputs, at one key. Among the tables
that hold the key, newest first, those the pass reads stand together: `us` between the
newer `ts` and the older `vs`. The outputs that hold the key, at most one of them, keep
that order in their place, and every protected read with it. -/

namespace RegolithStore

open Lib List Job

namespace Job

variable (job : Job)

/-- The read at `r` is at a live snapshot, or at or above everything the pass reads. -/
def Protects (live : List Seq) (r : Seq) : Prop :=
  r ∈ live ∨ ∀ f ∈ job.files, (∀ e ∈ f.reader.entries, e.seq ≤ r) ∧ ∀ t ∈ f.tombstones, t.seq ≤ r

def Reads (k : Key) (us : List LiveSst) : Prop := ∀ f, f ∈ us ↔ f ∈ job.files ∧ f.Holds k

variable {job} {opts : CompactionOptions} {k : Key} {r : Seq} {us : List LiveSst}
  {t : RangeTombstone} {ts : List LiveSst}

/-- The tables that hold a key give the merge all its versions. -/
theorem Reads.entriesOf_eq (hus : job.Reads k us) (hs : job.Sorted)
    (hd : (us.flatMap fun f => f.entriesOf k).Pairwise fun a b => b.seq < a.seq) : (us.flatMap fun f => f.entriesOf k) =
      job.mergedEntries.filter fun e => decide (e.userKey = k) := by
  have hkey : ∀ e ∈ us.flatMap fun f => f.entriesOf k, e.userKey = k := fun e he => by
    obtain ⟨f, -, he⟩ := mem_flatMap.mp he
    simpa using (mem_filter.mp he).2
  have hmem : ∀ {f e}, f ∈ job.files → e ∈ f.reader.entries → e.userKey = k →
      e ∈ us.flatMap fun f => f.entriesOf k := fun {f e} hf he hk =>
    mem_flatMap.mpr ⟨f, (hus f).mpr ⟨hf, .inl ⟨e, he, hk⟩⟩, mem_filter.mpr ⟨he, by simpa using hk⟩⟩
  have hbef : (us.flatMap fun f => f.entriesOf k).Pairwise Entry.Before :=
    hd.imp_of_mem fun ha hb hlt =>
      .inr ⟨(hkey _ ha).trans (hkey _ hb).symm, .inl hlt⟩
  refine hbef.eq_of_mem_iff ((mergedEntries_sorted hs).sublist filter_sublist)
    fun e => ⟨fun he => ?_, fun he => ?_⟩
  · -- of one internal key the merge keeps one entry, and there is only one
    obtain ⟨f, hf, hef⟩ := mem_flatMap.mp he
    refine mem_filter.mpr ⟨?_, by simpa using hkey e he⟩
    obtain ⟨b, hb, hbk, hseq, -⟩ :=
      exists_sameKey_mem_mergedEntries ((hus f).mp hf).1 (mem_of_mem_filter hef)
    obtain ⟨g, hg, hbg⟩ := mem_mergedEntries hb
    rcases pairwise_either hd he (hmem hg hbg (hbk.trans (hkey e he))) with rfl | hlt | hlt
    · exact hb
    · exact absurd hseq hlt.ne
    · exact absurd hseq hlt.ne'
  · obtain ⟨he, hk⟩ := mem_filter.mp he
    obtain ⟨f, hf, hef⟩ := mem_mergedEntries he
    exact hmem hf hef (by simpa using hk)

theorem mem_mergedTombstones (hflt : opts.filter = none) :
    t ∈ (job.mergedTombstones opts).tombstones ↔ ∃ f ∈ job.files, t ∈ f.tombstones := by
  simp [mergedTombstones, hflt]

theorem gather_eq_maxCoveringSeq {s : RangeTombstoneSet}
    (h : ∀ q, (∃ f ∈ ts, ∃ t ∈ f.tombstones, t.seq = q ∧ t.Covers k) ↔
      ∃ t ∈ s.tombstones, t.seq = q ∧ t.Covers k) (r : Seq) :
    gather k r 0 ts = s.maxCoveringSeq k r := by
  refine eq_of_forall_gt_iff fun q => ?_
  simp only [gather_lt, LiveSst.coveringSeq_lt, RangeTombstoneSet.maxCoveringSeq_lt]
  refine and_congr_right fun hq => ⟨fun hlt t ht htr hk => ?_, fun hlt f hf => ⟨hq, ?_⟩⟩
  · obtain ⟨f, hf, u, hu, hseq, huk⟩ := (h t.seq).mpr ⟨t, ht, rfl, hk⟩
    exact hseq ▸ (hlt f hf).2 u hu (hseq ▸ htr) huk
  · intro t ht htr hk
    obtain ⟨u, hu, hseq, huk⟩ := (h t.seq).mp ⟨f, hf, t, ht, rfl, hk⟩
    exact hseq ▸ hlt u hu (hseq ▸ htr) huk

theorem Reads.gather_eq (hus : job.Reads k us) (hflt : opts.filter = none) (r : Seq) :
    gather k r 0 us = (job.mergedTombstones opts).maxCoveringSeq k r := by
  refine gather_eq_maxCoveringSeq (fun q => ?_) r
  simp only [mem_mergedTombstones hflt]
  constructor
  · rintro ⟨f, hf, t, ht, hq, hk⟩
    exact ⟨t, ⟨f, ((hus f).mp hf).1, ht⟩, hq, hk⟩
  · rintro ⟨t, ⟨f, hf, ht⟩, hq, hk⟩
    exact ⟨f, (hus f).mpr ⟨hf, .inr ⟨t, ht, hk⟩⟩, t, ht, hq, hk⟩

/-- What the reduction may assume of one key. -/
theorem Reads.keyView (hus : job.Reads k us) (hflt : opts.filter = none) {live : List Seq}
    (hlive : live.Pairwise (· ≤ ·)) (hr : job.Protects live r) (ho : NewestFirst k us) :
    (job.stripes opts live).KeyView (job.mergedTombstones opts) k r
      (us.flatMap fun f => f.entriesOf k) where
  live := hlive
  key e he := by
    obtain ⟨f, -, he⟩ := mem_flatMap.mp he
    simpa using (mem_filter.mp he).2
  pos e he := by
    obtain ⟨f, hf, he⟩ := mem_flatMap.mp he
    exact (ho.distinct f hf).pos e he
  distinct e he t ht hk := by
    obtain ⟨f, hf, he⟩ := mem_flatMap.mp he
    obtain ⟨g, hg, ht⟩ := (mem_mergedTombstones hflt).mp ht
    exact ho.tombstone_ne hf ((hus g).mpr ⟨hg, .inr ⟨t, ht, hk⟩⟩) he ht hk
  protects := by
    refine hr.imp id fun hr => ⟨fun e he => ?_, fun t ht => ?_⟩
    · obtain ⟨f, hf, he⟩ := mem_flatMap.mp he
      exact (hr f ((hus f).mp hf).1).1 e (mem_of_mem_filter he)
    · obtain ⟨g, hg, ht⟩ := (mem_mergedTombstones hflt).mp ht
      exact (hr g hg).2 t ht

variable {live : List Seq} {retirement : Retirement} {file : Nat → OutputFile} {o : LiveSst}

/-- What the range of an output reaches, the inputs' ranges reach. -/
theorem output_within (hsnd : ∀ f ∈ job.files, f.Sound)
    (ho : o ∈ job.outputs opts live retirement file) : (∃ f ∈ job.files, f.smallest ≤ o.smallest) ∧
      ((∃ f ∈ job.files, o.largest ≤ f.largest) ∨ o.reader.entries = [] ∧
        ∀ k, o.smallest ≤ k → k < o.largest → ∃ f ∈ job.files, k ≤ f.largest) := by
  have hh : ∀ k, o.Holds k → ∃ f ∈ job.files, f.smallest ≤ k ∧ k ≤ f.largest := fun k hk => by
    obtain ⟨f, hf, hfk⟩ := output_holds ho hk
    exact ⟨f, hf, (hsnd f hf).within k hfk⟩
  have hle : ∀ k, o.Holds k → ∃ f ∈ job.files, k ≤ f.largest := fun k hk =>
    (hh k hk).imp fun _ hf => ⟨hf.1, hf.2.2⟩
  obtain ⟨hfst, hl⟩ := output_hull ho
  refine ⟨(hh _ hfst).imp fun _ hf => ⟨hf.1, hf.2.1⟩, hl.imp (hle _) ?_⟩
  exact fun ⟨he, hsolid⟩ => ⟨he, fun k h1 h2 => hle k (hsolid k h1 h2)⟩

/-- A pass writes a sorted run and exactly the tombstones it carries. The range of a table of
tombstones alone ends exclusively, at most right after a key that an input reaches. -/
theorem outputs_sortedRun (hsound : ∀ f ∈ job.files, f.Sound) (hlive : live.Pairwise (· ≤ ·)) :
    (job.outputs opts live retirement file).Pairwise (fun a b => a.EndsBefore b ∨ b.EndsBefore a) ∧
    (∀ k, (job.outputs opts live retirement file).Pairwise fun a b => ¬ (a.Holds k ∧ b.Holds k)) ∧
    (∀ k r, gather k r 0 (job.outputs opts live retirement file) =
      (retirement.carriedTombstones (job.mergedTombstones opts)).maxCoveringSeq k r) ∧
    ∀ o ∈ job.outputs opts live retirement file, (∀ k, o.Holds k → o.smallest ≤ k ∧ k ≤ o.largest) ∧
      ((∃ f ∈ job.files, f.smallest ≤ o.smallest) ∧
        ((∃ f ∈ job.files, o.largest ≤ f.largest) ∨ o.reader.entries = [] ∧
          ∀ k, o.smallest ≤ k → k < o.largest → ∃ f ∈ job.files, k ≤ f.largest)) ∧
      ∀ e ∈ o.reader.entries, ∀ q, (∃ t ∈ o.tombstones, t.seq = q ∧ t.Covers e.userKey) ↔
        ∃ t ∈ (retirement.carriedTombstones (job.mergedTombstones opts)).tombstones,
          t.seq = q ∧ t.Covers e.userKey := by
  have hs : job.Sorted := fun f hf => (hsound f hf).sorted
  have hone (k : Key) := @outputs_holds_pairwise job opts live retirement hs hlive file k
  refine ⟨outputs_endsBefore hs hlive file, hone,
    fun k r => gather_eq_maxCoveringSeq (fun q => outputs_covers) r, fun o ho =>
    ⟨(output_sound hs hlive ho).within, output_within hsound ho, fun e he q => ⟨fun h => ?_, fun h => ?_⟩⟩⟩
  · exact outputs_covers.mp ⟨o, ho, h⟩
  · -- the one table that covers the key is the one that holds it
    obtain ⟨o', ho', t, ht, hq, hk⟩ := outputs_covers.mpr h
    rcases pairwise_either (hone e.userKey) ho ho' with rfl | hne | hne
    · exact ⟨t, ht, hq, hk⟩
    · exact absurd ⟨.inl ⟨e, he, rfl⟩, .inr ⟨t, ht, hk⟩⟩ hne
    · exact absurd ⟨.inr ⟨t, ht, hk⟩, .inl ⟨e, he, rfl⟩⟩ hne

/-- Two tables and the one below them, under a range deletion. -/
def stripedJob : Job := ⟨1, 2,
  [⟨7, ⟨1, [1], [6], 0, 2, none, none⟩,
      ⟨[⟨[1], 5, .value, []⟩, ⟨[2], 6, .deletion, []⟩], .fromVec [⟨[4], [6], 7⟩]⟩⟩,
    ⟨8, ⟨2, [8], [8], 0, 1, none, none⟩, ⟨[⟨[8], 8, .value, []⟩], .fromVec []⟩⟩],
  [⟨3, ⟨3, [1], [5], 0, 3, none, none⟩,
    ⟨[⟨[1], 2, .value, []⟩, ⟨[2], 1, .value, []⟩, ⟨[5], 3, .value, []⟩], .fromVec []⟩⟩]⟩

def stripedRetirement : Retirement := ⟨[], [], some 3⟩

/-- What the pass writes while 3 is still read, with an output cut after every key. -/
def stripedOutputs : List LiveSst :=
  stripedJob.outputs ⟨1, none, none⟩ [3] stripedRetirement fun i => ⟨.ofNat i, 0⟩

theorem stripedJob_sound : ∀ f ∈ stripedJob.files, f.Sound := by
  have hbounds : ∀ f ∈ stripedJob.files, f.smallest ≤ f.largest ∧ f.reader.entries.Pairwise
      Entry.Before ∧ (∀ e ∈ f.reader.entries, f.smallest ≤ e.userKey ∧ e.userKey ≤ f.largest) ∧ ∀ t
      ∈ f.tombstones, f.smallest ≤ t.start ∧ t.stop ≤ f.largest := by decide
  exact fun f hf => LiveSst.sound_of_bounds (hbounds f hf)

theorem outputs_sortedRun_striped : (∀ f ∈ stripedJob.files, f.Sound) ∧
    stripedOutputs.map (fun o => (o.smallest, o.largest, o.reader.entries.map Entry.seq)) =
      [([1], [1], [5, 2]), ([2], [2], [6, 1]), ([5], [5], [3]), ([8], [8], [8]), ([4], [5], []),
        ([5, 0], [6], [])] ∧
    stripedOutputs.Pairwise (fun a b => a.EndsBefore b ∨ b.EndsBefore a) ∧
    (∀ k, stripedOutputs.Pairwise fun a b => ¬ (a.Holds k ∧ b.Holds k)) ∧
    (∀ k r, gather k r 0 stripedOutputs = (stripedRetirement.carriedTombstones
      (stripedJob.mergedTombstones ⟨1, none, none⟩)).maxCoveringSeq k r) ∧
    ∀ o ∈ stripedOutputs, (∀ k, o.Holds k → o.smallest ≤ k ∧ k ≤ o.largest) ∧
      ((∃ f ∈ stripedJob.files, f.smallest ≤ o.smallest) ∧
        ((∃ f ∈ stripedJob.files, o.largest ≤ f.largest) ∨ o.reader.entries = [] ∧
          ∀ k, o.smallest ≤ k → k < o.largest → ∃ f ∈ stripedJob.files, k ≤ f.largest)) ∧
      ∀ e ∈ o.reader.entries, ∀ q, (∃ t ∈ o.tombstones, t.seq = q ∧ t.Covers e.userKey) ↔
        ∃ t ∈ (stripedRetirement.carriedTombstones
          (stripedJob.mergedTombstones ⟨1, none, none⟩)).tombstones,
          t.seq = q ∧ t.Covers e.userKey :=
  ⟨stripedJob_sound, by decide, outputs_sortedRun stripedJob_sound (pairwise_singleton ..)⟩

/-- A table as a pass leaves it: the tombstone over its one key ends right after the key. -/
def clippedTable : LiveSst :=
  ⟨2, ⟨1, [1], [1], 0, 1, none, none⟩, ⟨[⟨[1], 1, .value, []⟩], .fromVec [⟨[1], [1, 0], 2⟩]⟩⟩

def clippedJob : Job := ⟨1, 2, [clippedTable], []⟩

/-- What a pass over it writes, while a level below still holds the key. -/
def clippedOutputs : List LiveSst :=
  clippedJob.outputs ⟨0, none, none⟩ [] ⟨[[clippedTable]], [], none⟩ fun i => ⟨.ofNat i, 0⟩

theorem clippedJob_sound : ∀ f ∈ clippedJob.files, f.Sound := by
  intro f hf
  obtain rfl := mem_singleton.mp hf
  refine ⟨le_rfl, pairwise_singleton .., fun k hk => ?_⟩
  have hkey : k = [1] := by
    rcases hk with ⟨e, he, rfl⟩ | ⟨t, ht, hk⟩
    · rw [mem_singleton.mp he]
    · obtain rfl := mem_singleton.mp ht
      exact le_antisymm (lt_succBytes_iff.mp hk.2) hk.1
  exact hkey ▸ ⟨le_rfl, le_rfl⟩

/-- The point is gone and the tombstone stays, with a recorded end past every input's. -/
theorem outputs_past_hull : (∀ f ∈ clippedJob.files, f.Sound) ∧
    ∃ o ∈ clippedOutputs, ∀ f ∈ clippedJob.files, f.largest < o.largest :=
  ⟨clippedJob_sound, by decide⟩

theorem holders_pairwise (h : ts.Pairwise fun a b => ¬ (a.Holds k ∧ b.Holds k))
    (R : LiveSst → LiveSst → Prop) : (holders k ts).Pairwise R :=
  (h.sublist filter_sublist).imp_of_mem fun ha hb hab =>
    absurd ⟨by simpa using (mem_filter.mp ha).2, by simpa using (mem_filter.mp hb).2⟩ hab

theorem Reads.output_entry (hus : job.Reads k us)
    (ho : o ∈ job.outputs opts live retirement file) (hs : job.Sorted) {e : Entry}
    (he : e ∈ o.entriesOf k) : ∃ f ∈ us, ∃ e' ∈ f.entriesOf k, e.seq = e'.seq := by
  have hmem : e ∈ (job.outputs opts live retirement file).flatMap fun o => o.entriesOf k :=
    mem_flatMap.mpr ⟨o, ho, he⟩
  rw [outputs_entriesOf hs] at hmem
  obtain ⟨x, hx, -, hseq⟩ := Stripes.mem_written hmem
  obtain ⟨hx, hk⟩ := mem_filter.mp hx
  obtain ⟨f, hf, hxf⟩ := mem_mergedEntries hx
  have hk : x.userKey = k := by simpa using hk
  exact ⟨f, (hus f).mpr ⟨hf, .inl ⟨x, hxf, hk⟩⟩, x, mem_filter.mpr ⟨hxf, by simpa using hk⟩, hseq⟩

theorem Reads.output_tombstone (hus : job.Reads k us) (hflt : opts.filter = none)
    (ho : o ∈ job.outputs opts live retirement file) (ht : t ∈ o.tombstones)
    (hk : t.Covers k) : ∃ f ∈ us, ∃ t' ∈ f.tombstones, t'.Covers k ∧ t.seq = t'.seq := by
  obtain ⟨u, hu, hseq, huk⟩ := outputs_covers.mp ⟨o, ho, t, ht, rfl, hk⟩
  obtain ⟨f, hf, hu⟩ := (mem_mergedTombstones hflt).mp (retirement.mem_carriedTombstones.mp hu).1
  exact ⟨f, (hus f).mpr ⟨hf, .inr ⟨u, hu, huk⟩⟩, u, hu, huk, hseq.symm⟩

section

variable (hus : job.Reads k us) (hs : job.Sorted) (hflt : opts.filter = none)
  (hlive : live.Pairwise (· ≤ ·))

include hus hs hflt hlive

theorem Reads.outputs_newestFirst (hordr : NewestFirst k us) :
    NewestFirst k (holders k (job.outputs opts live retirement file)) := by
  refine ⟨holders_pairwise (outputs_holds_pairwise hs hlive file k) _, fun o ho => ?_⟩
  have ho := mem_of_mem_filter ho
  refine ⟨?_, fun e he t ht hk => ?_, fun e he => ?_⟩
  · -- what is written stands at sequences of what was read, in order
    have hsub : (((job.outputs opts live retirement file).flatMap fun o => o.entriesOf k).map
        Entry.seq).Sublist ((us.flatMap fun f => f.entriesOf k).map Entry.seq) := by
      rw [outputs_entriesOf hs, hus.entriesOf_eq hs hordr.descending]
      exact Stripes.written_seq_sublist ..
    exact (pairwise_flatMap.mp (descending_of_sublist hordr.descending hsub)).1 o ho
  · obtain ⟨f, hf, x, hx, hseq⟩ := hus.output_entry ho hs he
    obtain ⟨g, hg, u, hu, huk, hseq'⟩ := hus.output_tombstone hflt ho ht hk
    rw [hseq, hseq']
    exact hordr.tombstone_ne hf hg hx hu huk
  · obtain ⟨f, hf, x, hx, hseq⟩ := hus.output_entry ho hs he
    exact hseq ▸ (hordr.distinct f hf).pos x hx

variable {op : MergeOperator} {ts vs : List LiveSst} (retirement file)

theorem Reads.newestFirst_replace (hordr : NewestFirst k (ts ++ (us ++ vs))) :
    NewestFirst k (ts ++ (holders k (job.outputs opts live retirement file) ++ vs)) := by
  have hmid : NewestFirst k us :=
    hordr.sublist ((sublist_append_left us vs).trans (sublist_append_right ts _))
  refine hordr.replace (hus.outputs_newestFirst hs hflt hlive hmid) ?_ ?_
  · exact fun o ho e he => hus.output_entry (mem_of_mem_filter ho) hs he
  · exact fun o ho t ht hk => hus.output_tombstone hflt (mem_of_mem_filter ho) ht hk

/-- A protected read is the same over the outputs as over the inputs. What is older than
both must be known to the pass, or it may have retired what hides it. -/
theorem Reads.readTables_replace (hm : ∀ m ∈ opts.merge, m = op)
    (hf : op.FullMergeComposes) (hpart : op.PartialMergeAgrees) (hr : job.Protects live r) (holdest : retirement.oldestLive = live.head?)
    (ho : NewestFirst k (ts ++ (us ++ vs))) (hb : vs ≠ [] → retirement.keyBelow k ∧
      ∀ t ∈ (job.mergedTombstones opts).tombstones, t.Covers k → retirement.neededBelow t) :
    readTables op k r (ts ++ (holders k (job.outputs opts live retirement file) ++ vs)) =
      readTables op k r (ts ++ (us ++ vs)) := by
  have horder' : NewestFirst k (us ++ vs) := ho.sublist (sublist_append_right ts _)
  have hmid : NewestFirst k us := horder'.sublist (sublist_append_left us vs)
  have hnew := hus.newestFirst_replace retirement file hs hflt hlive ho
  have hnew' := hnew.sublist (sublist_append_right ts _)
  have hgather : gather k r 0 (job.outputs opts live retirement file) =
      (retirement.carriedTombstones (job.mergedTombstones opts)).maxCoveringSeq k r :=
    gather_eq_maxCoveringSeq (fun q => outputs_covers) r
  rw [readTables, readTables, ho.shown_append, horder'.shown_append, hnew.shown_append,
    hnew'.shown_append, shown_holders, gather_holders, hgather, hus.gather_eq hflt]
  by_cases hts : gather k r 0 ts = 0
  · have hvs : (if (retirement.carriedTombstones (job.mergedTombstones opts)).maxCoveringSeq k r = 0
        then shown k r vs else []) = if (job.mergedTombstones opts).maxCoveringSeq k r = 0
        then shown k r vs else [] := by
      rcases eq_or_ne vs [] with rfl | hne
      · simp [shown]
      · rw [retirement.maxCoveringSeq_carried (hb hne).2]
    rw [if_pos hts, if_pos hts, hvs, shown_eq_window k r us, shown_eq_window k r (outputs ..), hgather,
      hus.gather_eq hflt, outputs_entriesOf hs, ← hus.entriesOf_eq hs hmid.descending]
    refine ((hus.keyView hflt hlive hr hmid).resolve_written holdest hflt hm hf hpart
      _ fun hne => (hb ?_).1).symm
    rintro rfl
    exact hne (by simp [shown])
  · rw [if_neg hts, if_neg hts]

end

end Job

end RegolithStore
