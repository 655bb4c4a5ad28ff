import RegolithStore.Compaction.ReadsPreserved
import RegolithStore.Ingest.Gate

/-! L0 is kept in age order: with the memtables behind it, oldest first, no source has a stamp of
a key above one a later source has of it. A rotation and a flush put a source in the place of
another, passes take tables out or merge neighbours, and an ingest puts its table between the
tables, which are no newer, and the memtables, which share no key with it. -/

namespace RegolithStore

open Lib List FlushStore Source StagedTable Job

variable {r : Seq → Seq → Prop} {active : MemTable} {used used' : List UInt64} {v : Version}
  {p : Pass} {c : Config} {k : Key} {f : LiveSst}

/-- The source has an entry of the key, or a range tombstone over it, at the sequence. -/
def Source.Stamps (s : Source) (k : Key) (q : Seq) : Prop :=
  (∃ e ∈ s.entries, e.userKey = k ∧ e.seq = q) ∨ ∃ t ∈ s.tombstones, t.Covers k ∧ t.seq = q

def LiveSst.stampsUpTo (k : Key) (r : Seq) (f : LiveSst) : List Seq :=
  ((f.reader.entries.filter fun e => decide (e.userKey = k)).map Entry.seq ++
    (f.tombstones.filter fun t => decide (t.Covers k)).map RangeTombstone.seq).filter
      fun q => decide (q ≤ r)

def LiveSst.newestStamp (k : Key) (r : Seq) (f : LiveSst) : Option Seq := (f.stampsUpTo k r).max?

/-- The tables of L0 and the memtables behind them, oldest first. -/
def byAge (l0 : List LiveSst) (mems : List MemTable) : List Source :=
  l0.map .table ++ mems.map .memtable

theorem byAge_concat (l0 : List LiveSst) (mems : List MemTable) (m : MemTable) :
    byAge l0 (mems ++ [m]) = byAge l0 mems ++ [.memtable m] := by simp [byAge]

theorem Source.Stamps.holds {s : Source} {q : Seq} (h : s.Stamps k q) : s.Holds k :=
  h.imp (fun ⟨e, he, hk, _⟩ => ⟨e, he, hk⟩) fun ⟨t, ht, hk, _⟩ => ⟨t, ht, hk⟩

theorem LiveSst.mem_stamps {r q : Seq} :
    q ∈ f.stampsUpTo k r ↔ (Source.table f).Stamps k q ∧ q ≤ r := by
  simp only [stampsUpTo, mem_filter, mem_append, mem_map, decide_eq_true_eq, and_assoc]
  rfl

theorem LiveSst.newestStamp_spec (k : Key) (r : Seq) (f : LiveSst) :
    (∀ q, f.newestStamp k r = some q → (Source.table f).Stamps k q ∧
      ∀ q', (Source.table f).Stamps k q' → q' ≤ r → q' ≤ q) ∧
    (f.newestStamp k r = none → ∀ q, (Source.table f).Stamps k q → ¬ q ≤ r) := by
  refine ⟨fun q h => ?_, fun h q hq hle => ?_⟩
  · obtain ⟨hmem, hmax⟩ := max?_eq_some_iff.mp h
    exact ⟨(mem_stamps.mp hmem).1, fun q' hq' hle => hmax q' (mem_stamps.mpr ⟨hq', hle⟩)⟩
  · have hmem := (mem_stamps).mpr ⟨hq, hle⟩
    rw [max?_eq_none_iff.mp h] at hmem
    cases hmem

/-! ### The list -/

structure AgeOrdered (r : Seq → Seq → Prop) (l0 : List LiveSst) (mems : List MemTable) (upTo : Seq)
    (used : List UInt64) : Prop where
  order : InAgeOrder r Source.Stamps (byAge l0 mems)
  le : ∀ s ∈ byAge l0 mems, ∀ k q, s.Stamps k q → q ≤ upTo
  sorted : ∀ s ∈ byAge l0 mems, s.entries.Pairwise Entry.Before
  ids : (l0.map LiveSst.id).Nodup
  used : ∀ f ∈ l0, f.id ∈ used

/-- What a pass wrote in the place of `block`. -/
structure Made (r : Seq → Seq → Prop) (block outs : List LiveSst) : Prop where
  order : InAgeOrder r Source.Stamps (outs.map .table)
  within : ∀ o ∈ outs, StampedWithin Source.Stamps (.table o) (block.map .table)
  sorted : ∀ o ∈ outs, o.reader.entries.Pairwise Entry.Before
  ids : (outs.map LiveSst.id).Nodup

variable {file : OutputFile} {rewritten : Bool}

namespace AgeOrdered

variable {l0 l0' older block newer outs : List LiveSst} {mems mems' : List MemTable} {m : MemTable}
  {upTo : Seq} {ops : List WriteBatchOp}

theorem sublist (h : AgeOrdered r l0 mems upTo used) (hl0 : l0'.Sublist l0)
    (hmems : mems'.Sublist mems) (hu : used ⊆ used') : AgeOrdered r l0' mems' upTo used' := by
  have hsub : (byAge l0' mems').Sublist (byAge l0 mems) := (hl0.map _).append (hmems.map _)
  exact ⟨h.order.sublist hsub, fun s hs => h.le s (hsub.subset hs),
    fun s hs => h.sorted s (hsub.subset hs), h.ids.sublist (hl0.map _),
    fun f hf => hu (h.used f (hl0.subset hf))⟩

/-- Neighbours make room for sources that stamp no more than they do. -/
theorem splice (h : AgeOrdered r l0 mems upTo used) (front xs ys back : List Source)
    (hold : byAge l0 mems = front ++ (xs ++ back)) (hnew : byAge l0' mems' = front ++ (ys ++ back))
    (hordr : InAgeOrder r Source.Stamps ys) (hw : ∀ s ∈ ys, StampedWithin Source.Stamps s xs)
    (hsrt : ∀ s ∈ ys, s.entries.Pairwise Entry.Before) (hids : (l0'.map LiveSst.id).Nodup)
    (hu : ∀ f ∈ l0', f.id ∈ used') : AgeOrdered r l0' mems' upTo used' := by
  obtain ⟨ho, hle, hsort, -, -⟩ := h
  simp only [hold, forall_mem_append] at ho hle hsort
  refine ⟨hnew ▸ ho.splice hordr hw, ?_, ?_, hids, hu⟩
  · simp only [hnew, forall_mem_append]
    refine ⟨hle.1, fun s hs k q hq => ?_, hle.2.2⟩
    obtain ⟨x, hx, hxq⟩ := hw s hs k q hq
    exact hle.2.1 x hx k q hxq
  · simp only [hnew, forall_mem_append]
    exact ⟨hsort.1, hsrt, hsort.2.2⟩

/-- Neighbours may be merged in their place. -/
theorem merge (h : AgeOrdered r (older ++ (block ++ newer)) mems upTo used)
    (hmade : Made r block outs) (hu : ∀ o ∈ outs, o.id ∈ used)
    (hfr : ∀ o ∈ outs, o.id ∉ (older ++ (block ++ newer)).map LiveSst.id) :
    AgeOrdered r (older ++ (outs ++ newer)) mems upTo used := by
  refine h.splice (older.map .table) (block.map .table) (outs.map .table)
    (newer.map .table ++ mems.map .memtable) (by simp [byAge]) (by simp [byAge])
    hmade.order ?_ ?_ ?_ ?_
  · exact forall_mem_map.mpr hmade.within
  · exact forall_mem_map.mpr hmade.sorted
  · have hids := h.ids
    simp only [map_append, nodup_append', disjoint_append_right] at hids ⊢
    simp only [map_append, mem_append, not_or] at hfr
    refine ⟨hids.1, ⟨hmade.ids, hids.2.1.2.1, ?_⟩, ?_, hids.2.2.2⟩
    · exact forall_mem_map.mpr fun o ho => (hfr o ho).2.2
    · intro id hid hmem
      obtain ⟨o, ho, rfl⟩ := mem_map.mp hmem
      exact (hfr o ho).1 hid
  · have hold := h.used
    simp only [forall_mem_append] at hold ⊢
    exact ⟨hold.1, hu, hold.2.2⟩

theorem rotate (h : AgeOrdered r l0 (mems ++ [active]) upTo used) (seq : Option Seq)
    (wal : Option UInt64) (identity : Nat) : AgeOrdered r l0 (mems ++
      [{ active with sealedSeq := seq, sealedWal := wal }] ++ [.new identity]) upTo used := by
  have hn : ∀ k q, ¬ (memtable (.new identity)).Stamps k q := by
    rintro k q (⟨e, he, -⟩ | ⟨t, ht, -⟩)
    · cases he
    · cases ht
  refine h.splice (byAge l0 mems) [.memtable active]
    [.memtable { active with sealedSeq := seq, sealedWal := wal }, .memtable (.new identity)] []
    (by simp [byAge]) (by simp [byAge]) ?_ ?_ ?_ h.ids h.used
  · exact pairwise_pair.mpr fun k q q' _ hq' => absurd hq' (hn k q')
  · refine forall_mem_cons.mpr ⟨fun k q hq => ⟨_, mem_singleton_self _, hq⟩, ?_⟩
    exact forall_mem_singleton.mpr fun k q hq => absurd hq (hn k q)
  · refine forall_mem_cons.mpr ⟨?_, forall_mem_singleton.mpr .nil⟩
    exact h.sorted (.memtable active) (by simp [byAge])

/-- The table goes to the end of L0. A memtable that stays behind it holds what it holds, which
keeps the order only when no key stands in the memtable at two sequences. -/
theorem flush (h : AgeOrdered r l0 (m :: mems) upTo used) (hw : m.flushTable file = some f)
    (hid : f.id ∉ used) (left : List MemTable) (hleft : left = [] ∨
      left = [m] ∧ Older r Source.Stamps (.memtable m) (.memtable m)) :
    AgeOrdered r (l0 ++ [f]) (left ++ mems) upTo (f.id :: used) := by
  obtain ⟨-, he, -, htombs⟩ := writeTable_eq_some hw
  have hwithin : StampedWithin Source.Stamps (.table f) [.memtable m] := fun k q hq => by
    rw [Source.Stamps, entries, he, tombstones] at hq
    exact ⟨_, mem_singleton_self _, hq.imp_right (Exists.imp fun t => And.imp_left (htombs t).mp)⟩
  have hsort : (Source.table f).entries.Pairwise Entry.Before := by
    rw [entries, he]
    exact h.sorted (.memtable m) (by simp [byAge])
  refine h.splice (l0.map .table) [.memtable m] (.table f :: left.map .memtable)
    (mems.map .memtable) (by simp [byAge]) (by simp [byAge]) ?_ ?_ ?_ ?_ ?_
  · rcases hleft with rfl | ⟨rfl, honce⟩
    · exact pairwise_singleton _ _
    · exact pairwise_pair.mpr (hwithin.older (forall_mem_singleton.mpr honce))
  · refine forall_mem_cons.mpr ⟨hwithin, ?_⟩
    rcases hleft with rfl | ⟨rfl, -⟩
    · exact forall_mem_nil _
    · exact forall_mem_singleton.mpr fun k q hq => ⟨_, mem_singleton_self _, hq⟩
  · refine forall_mem_cons.mpr ⟨hsort, ?_⟩
    rcases hleft with rfl | ⟨rfl, -⟩
    · exact forall_mem_nil _
    · exact forall_mem_singleton.mpr (h.sorted (.memtable m) (by simp [byAge]))
  · rw [map_append, nodup_append']
    refine ⟨h.ids, nodup_singleton _, fun id hmem hid' => hid ?_⟩
    obtain rfl := mem_singleton.mp hid'
    exact forall_mem_map.mpr h.used _ hmem
  · exact forall_mem_concat.mpr ⟨fun g hg => mem_cons_of_mem _ (h.used g hg), mem_cons_self⟩

theorem stamps_apply {base : Seq} (hf : base.Fits ops.length)
    {q : Seq} (h : (memtable (m.apply ops base)).Stamps k q) :
    (memtable m).Stamps k q ∨ base.toNat ≤ q.toNat ∧ q.toNat < base.toNat + ops.length := by
  rcases h with ⟨e, he, hk, rfl⟩ | ⟨t, ht, hk, rfl⟩
  · rcases MemTable.mem_of_mem_apply he with he | he
    · exact .inl (.inl ⟨e, he, hk, rfl⟩)
    · exact .inr (bounds_of_mem_opEntries hf he)
  · rcases MemTable.mem_apply_tombstones.mp ht with ht | ht
    · exact .inl (.inr ⟨t, ht, hk, rfl⟩)
    · exact .inr (bounds_of_mem_opTombstones hf ht)

section Newest

variable (hr : ∀ {q q' : Seq}, q < q' → r q q')

include hr

theorem commit (h : AgeOrdered r l0 (mems ++ [active]) upTo used) (hf : upTo.Fits (ops.length + 1))
    : AgeOrdered r l0 (mems ++ [active.apply ops (upTo + 1)]) (upTo + UInt64.ofNat ops.length)
      used := by
  have hsum : (upTo + UInt64.ofNat ops.length).toNat = upTo.toNat + ops.length :=
    Seq.toNat_add (Nat.lt_of_succ_lt hf)
  have hn := Seq.toNat_succ hf
  obtain ⟨ho, hle, hsort, hids, hu⟩ := h
  simp only [byAge_concat, forall_mem_concat] at ho hle hsort
  refine ⟨?_, ?_, ?_, hids, hu⟩
  · rw [byAge_concat]
    refine ho.grow (fun b hb k q hq q' hlt => hr ((hle.1 b hb k q hq).trans_lt hlt)) fun k q hq =>
      (stamps_apply (Seq.fits_succ hf) hq).imp_right ?_
    exact fun hq => UInt64.lt_iff_toNat_lt.mpr (by omega)
  · have hg : upTo ≤ upTo + UInt64.ofNat ops.length := UInt64.le_iff_toNat_le.mpr (by omega)
    simp only [byAge_concat, forall_mem_concat]
    refine ⟨fun s hs k q hq => (hle.1 s hs k q hq).trans hg, fun k q hq => ?_⟩
    rcases stamps_apply (Seq.fits_succ hf) hq with hq | hq
    · exact (hle.2 k q hq).trans hg
    · exact UInt64.le_iff_toNat_le.mpr (by omega)
  · simp only [byAge_concat, forall_mem_concat]
    exact ⟨hsort.1, MemTable.apply_sorted hsort.2⟩

/-- An ingested table goes between older tables and those that share no key with it. -/
theorem install (h : AgeOrdered r (older ++ newer) mems upTo used) {t : StagedTable}
    (hfits : upTo.Fits 1) (happart : ∀ f ∈ newer, ∀ k, t.Holds k → ¬ f.Holds k)
    (hunheld : ∀ m ∈ mems, m.holdsKeyIn t.smallest t.largest = false) (hid : t.fileId ∈ used)
    (hnew : t.fileId ∉ (older ++ newer).map LiveSst.id) :
    AgeOrdered r (older ++ t.installed (upTo + 1) :: newer) mems (upTo + 1) used := by
  have hn : (upTo + 1).toNat = upTo.toNat + 1 := Seq.toNat_add hfits
  have hg : upTo < upTo + 1 := UInt64.lt_iff_toNat_lt.mpr (by omega)
  have hseq : ∀ k q, (Source.table (t.installed (upTo + 1))).Stamps k q → q = upTo + 1 := by
    rintro k q (⟨e, he, -, rfl⟩ | ⟨u, hu, -, rfl⟩)
    · exact installed_seq.1 e he
    · exact installed_seq.2 u hu
  have hold : byAge (older ++ newer) mems =
      older.map .table ++ (newer.map .table ++ mems.map .memtable) := by simp [byAge]
  have hbyAge : byAge (older ++ t.installed (upTo + 1) :: newer) mems = older.map .table ++
      .table (t.installed (upTo + 1)) :: (newer.map .table ++ mems.map .memtable) := by simp [byAge]
  obtain ⟨ho, hle, hsort, hids, hused⟩ := h
  rw [hold] at ho hle hsort
  rw [forall_mem_append] at hle hsort hused
  refine ⟨?_, ?_, ?_, ?_, forall_mem_append.mpr ⟨hused.1, forall_mem_cons.mpr ⟨hid, hused.2⟩⟩⟩
  · rw [hbyAge]
    refine ho.insert (fun b hb k q q' hq hq' => ?_) (forall_mem_append.mpr ⟨?_, ?_⟩)
    · exact hseq k q' hq' ▸ hr ((hle.1 b hb k q hq).trans_lt hg)
    · refine forall_mem_map.mpr fun f hf k q q' hq hq' => ?_
      exact happart f hf k (installed_holds.mp hq.holds) hq'.holds
    · refine forall_mem_map.mpr fun m hm k q q' hq hq' => ?_
      obtain ⟨h1, h2⟩ := t.within (installed_holds.mp hq.holds)
      have hm' := hsort.2 _ (mem_append_right _ (mem_map_of_mem hm))
      exact MemTable.not_holds_of_holdsKeyIn hm' (hunheld m hm) h1 h2 hq'.holds
  · rw [hbyAge]
    refine forall_mem_append.mpr ⟨fun s hs k q hq => (hle.1 s hs k q hq).trans hg.le, ?_⟩
    refine forall_mem_cons.mpr ⟨fun k q hq => (hseq k q hq).le, ?_⟩
    exact fun s hs k q hq => (hle.2 s hs k q hq).trans hg.le
  · rw [hbyAge]
    exact forall_mem_append.mpr ⟨hsort.1, forall_mem_cons.mpr ⟨installed_sorted, hsort.2⟩⟩
  · rw [map_append, map_cons, nodup_middle, ← map_append]
    exact nodup_cons.mpr ⟨hnew, hids⟩

end Newest

end AgeOrdered

theorem ageOrdered_new (identity : Nat) (used : List UInt64) :
    AgeOrdered r [] [.new identity] 0 used := by
  refine ⟨pairwise_singleton _ _, forall_mem_singleton.mpr fun k q hq => ?_,
    forall_mem_singleton.mpr .nil, nodup_nil, nofun⟩
  rcases hq with ⟨e, he, -⟩ | ⟨t, ht, -⟩
  · cases he
  · cases ht

/-! ### What a pass writes -/

namespace Job

variable {job : Job} {opts : CompactionOptions} {live : List Seq} {retirement : Retirement}
  {file : Nat → OutputFile} {o : LiveSst}

/-- An output has a sequence for a key only where a table the pass reads has it. -/
theorem output_stamped (h : o ∈ job.outputs opts live retirement file) :
    StampedWithin Source.Stamps (.table o) (job.files.map .table) := by
  rintro k q (⟨x, hx, rfl, rfl⟩ | ⟨t, ht, hk, rfl⟩)
  · rcases mem_outputs h with ⟨es, hes, i, ho⟩ | ⟨g, hg, i, ho⟩
    · obtain ⟨-, -, -, hents, -⟩ := pointOutput_eq_some ho
      rw [entries, hents] at hx
      obtain ⟨f, hf, e, he, hkey, hseq⟩ := mem_pointFile hes hx
      exact ⟨_, mem_map_of_mem hf, .inl ⟨e, he, hkey.symm, hseq.symm⟩⟩
    · obtain ⟨s, e, -, hb⟩ := tombstoneFile_block hg
      rw [entries, (tombstoneOutput_eq_some ho hb).2.2.1] at hx
      cases hx
  · obtain ⟨u, hu, hseq, huk⟩ := outputs_covers.mp ⟨o, h, t, ht, rfl, hk⟩
    have hm := (retirement.mem_carriedTombstones.mp hu).1
    obtain ⟨f, hf, huf⟩ := mem_flatMap.mp (mem_of_mem_filter (RangeTombstoneSet.mem_fromVec.mp hm))
    exact ⟨_, mem_map_of_mem hf, .inr ⟨u, huf, huk, hseq⟩⟩

theorem Merge.made {older block newer : List LiveSst} (h : job.Merge v older block newer)
    (hsrt : ∀ f ∈ v.levels 0, f.reader.entries.Pairwise Entry.Before)
    (hl : live.Pairwise (· ≤ ·)) (hids : ((job.perform opts v live file).map LiveSst.id).Nodup) :
    Made r block (job.perform opts v live file) := by
  have hfiles : ∀ f ∈ job.files, f ∈ block := fun f hf => by
    rw [files, h.below, append_nil] at hf
    exact (h.inputs f).mp hf
  have hs : job.Sorted := fun f hf => hsrt f (by simp [h.l0, hfiles f hf])
  refine ⟨pairwise_map.mpr ?_, fun o ho k q hq => ?_, fun o ho => ?_, hids⟩
  · refine pairwise_iff_forall_sublist.mpr fun hab k q q' hq hq' => ?_
    have hpair := (outputs_holds_pairwise hs hl file k).sublist hab
    exact absurd ⟨hq.holds, hq'.holds⟩ (pairwise_pair.mp hpair)
  · obtain ⟨x, hx, hxq⟩ := output_stamped ho k q hq
    obtain ⟨f, hf, rfl⟩ := mem_map.mp hx
    exact ⟨_, mem_map_of_mem (hfiles f hf), hxq⟩
  · exact (output_sound hs hl ho).sorted

end Job

/-! ### Passes under way -/

namespace Tree

/-- A pass writes below L0, or alone, merging neighbours of L0 that no other pass takes. -/
def Pass.Ok (r : Seq → Seq → Prop) (v : Version) (used : List UInt64) : Pass → Prop
  | .picked job _ | .claimed job _ | .running job _ false | .written job _ false => job.target ≠ 0
  | .running job _ true => job.target ≠ 0 ∨ ∃ older block newer, job.Merge v older block newer
  | .written job outs true => job.target ≠ 0 ∨ ∃ older block newer,
      job.Merge v older block newer ∧ Made r block outs ∧
        ∀ o ∈ outs, o.id ∈ used ∧ o.id ∉ (v.levels 0).map LiveSst.id
  | .dropping _ | .done => True

section Passes

variable {v' : Version}

theorem Pass.Ok.of_not_alone (h : p.Ok r v used) (hp : p.alone = false) : p.Ok r v' used' := by
  cases p with
  | running job opts alone => cases hp; exact h
  | written job outs alone => cases hp; exact h
  | dropping ids => cases hp
  | _ => exact h

/-- Tables of other ids may come behind those that are there. -/
theorem Pass.Ok.grow (h : p.Ok r v used) {new : List LiveSst}
    (hl0 : v'.levels 0 = v.levels 0 ++ new) (hnew : ∀ f ∈ new, f.id ∉ used) (hu : used ⊆ used') : p.Ok r v' used' := by
  have hm : ∀ {job : Job} {older block newer}, job.Merge v older block newer →
      job.Merge v' older block (newer ++ new) := fun h =>
    { h with l0 := by rw [hl0, h.l0, append_assoc, append_assoc] }
  cases p with
  | running job opts alone =>
    cases alone with
    | false => exact h
    | true => exact h.imp_right fun ⟨older, block, newer, h⟩ => ⟨older, block, _, hm h⟩
  | written job outs alone =>
    cases alone with
    | false => exact h
    | true =>
      refine h.imp_right fun ⟨older, block, newer, h, hmade, hids⟩ =>
        ⟨older, block, _, hm h, hmade, fun o ho => ⟨hu (hids o ho).1, ?_⟩⟩
      rw [hl0, map_append, mem_append, not_or]
      refine ⟨(hids o ho).2, fun hmem => ?_⟩
      obtain ⟨f, hf, hid⟩ := mem_map.mp hmem
      exact hnew f hf (hid ▸ (hids o ho).1)
  | _ => exact h

theorem Picker.job_ok {c : Config} {picker : Picker} {job : Job} (h : picker.job c v = some job) :
    if picker.alone then job.target ≠ 0 ∨ ∃ older block newer, job.Merge v older block newer
      else job.target ≠ 0 := by
  cases picker with
  | size held level =>
    cases hp : pickSize v held level with
    | error why => rw [Picker.job, hp] at h; cases h
    | ok picked =>
      rw [Picker.job, hp] at h
      obtain rfl : picked = job := Option.some.inj h
      exact Nat.one_le_iff_ne_zero.mp (pickSize_from hp).target_pos
  | deletion held oldestLive => exact Nat.one_le_iff_ne_zero.mp (pickLevel_from h).target_pos
  | range level start stop =>
    rw [Picker.job, Option.ite_none_right_eq_some] at h
    obtain ⟨range, -, rfl⟩ := Option.map_eq_some_iff.mp h.2
    exact .inl (Nat.succ_ne_zero level)
  | universalSize =>
    obtain ⟨runs, hruns, rfl⟩ := Option.map_eq_some_iff.mp h
    obtain ⟨older, newest, hm⟩ := pickUniversalSize_merge hruns
    exact .inr ⟨older, newest, [], hm⟩
  | universalDeletion oldestLive =>
    obtain ⟨runs, hruns, rfl⟩ := Option.map_eq_some_iff.mp h
    obtain ⟨older, newest, hm⟩ := pickUniversal_merge hruns
    exact .inr ⟨older, newest, [], hm⟩
  | universalFull =>
    rw [Picker.job, Option.ite_none_right_eq_some] at h
    obtain ⟨hc, h⟩ := h
    cases h
    refine .inr ⟨[], _, [], universalJob_merge ?_ rfl fun f => Iff.rfl⟩
    exact ne_nil_of_length_pos (Nat.zero_lt_two.trans_le hc)
  | reseal level fileId =>
    rw [Picker.job, Option.ite_none_right_eq_some] at h
    obtain ⟨f, hf, rfl⟩ := Option.map_eq_some_iff.mp h.2
    rcases Nat.eq_zero_or_pos level with rfl | hpos
    · obtain ⟨older, newer, hl0⟩ := append_of_mem (mem_of_find?_eq_some hf)
      exact .inr ⟨older, [f], newer, rfl, rfl, rfl, hl0, by simp, fun g => by simp [resealJob]⟩
    · exact .inl (Nat.pos_iff_ne_zero.mp hpos)

end Passes

/-! ### Every step -/

/-- A flush whose rewrite of the manifest fails is of a memtable whose stamps of a key all stand
in the order. -/
def FlushedOnce (r : Seq → Seq → Prop) (s : State) : Action → Prop
  | .flushFails _ => ∀ m ∈ s.view.frozen.head?,
      Older r Source.Stamps (.memtable m) (.memtable m)
  | _ => True

structure Aged (r : Seq → Seq → Prop) (s : State) : Prop where
  tree : AgeOrdered r (s.view.version.levels 0) (s.view.frozen ++ [s.view.active]) s.lastSeq
    s.usedIds
  passes : ∀ p ∈ s.passes, p.Ok r s.view.version s.usedIds
  alone : ∀ (i j : Nat) (p q : Pass), s.passes[i]? = some p → s.passes[j]? = some q →
    p.alone = true → q.holding = true → i = j
  staged : ∀ u ∈ s.install, u.table.fileId ∈ s.usedIds ∧
    u.table.fileId ∉ (s.view.version.levels 0).map LiveSst.id

namespace Aged

variable {s s' : State} {i : Nat}

theorem getElem?_set_cases {ps : List Pass} {j : Nat} {q : Pass} (h : (ps.set i p)[j]? = some q) :
    j ≠ i ∧ ps[j]? = some q ∨ j = i ∧ q = p := by
  rw [getElem?_set] at h
  split_ifs at h with hij hlt
  · exact .inr ⟨hij.symm, (Option.some.inj h).symm⟩
  · exact .inl ⟨Ne.symm hij, h⟩

variable (h : Aged r s)

include h

theorem setPass (hok : p.Ok r s.view.version s.usedIds)
    (halone : p.alone = true → ∃ old, s.passes[i]? = some old ∧ old.alone = true)
    (hhldg : p.holding = true → (∃ old, s.passes[i]? = some old ∧ old.holding = true) ∨
      ∀ q ∈ s.passes, q.alone = false) : Aged r (s.setPass i p) := by
  refine ⟨h.tree, fun q hq => ?_, fun a b x y ha hb hx hy => ?_, h.staged⟩
  · rcases mem_or_eq_of_mem_set hq with hq | rfl
    · exact h.passes q hq
    · exact hok
  · rcases getElem?_set_cases ha with ⟨-, ha'⟩ | ⟨rfl, rfl⟩ <;>
      rcases getElem?_set_cases hb with ⟨-, hb'⟩ | ⟨rfl, rfl⟩
    · exact h.alone a b x y ha' hb' hx hy
    · rcases hhldg hy with ⟨old, ho, hold⟩ | hn
      · exact h.alone a _ x old ha' ho hx hold
      · exact absurd ((hn x (mem_of_getElem? ha')).symm.trans hx) Bool.false_ne_true
    · obtain ⟨old, ho, hold⟩ := halone hx
      exact h.alone _ b old y ho hb' hold hy
    · rfl

theorem endPass (i : Nat) : Aged r (s.setPass i .done) :=
  h.setPass trivial Bool.noConfusion Bool.noConfusion

theorem addPass (hok : p.Ok r s.view.version s.usedIds)
    (halone : p.alone = true → ∀ q ∈ s.passes, q.holding = false)
    (hhldg : p.holding = true → p.alone = true)
    (hself : ∀ q ∈ s.passes, q.alone = true → q.holding = true) :
    Aged r { s with passes := s.passes ++ [p] } := by
  refine ⟨h.tree, forall_mem_concat.mpr ⟨h.passes, hok⟩, fun a b x y ha hb hx hy => ?_, h.staged⟩
  rcases getElem?_append_singleton ha with ha' | ⟨rfl, rfl⟩ <;>
    rcases getElem?_append_singleton hb with hb' | ⟨rfl, rfl⟩
  · exact h.alone a b x y ha' hb' hx hy
  · have hmem := mem_of_getElem? ha'
    exact absurd ((halone (hhldg hy) x hmem).symm.trans (hself x hmem hx)) Bool.false_ne_true
  · have hmem := mem_of_getElem? hb'
    cases (halone hx y hmem).symm.trans hy
  · rfl

theorem setPhase {u : Install} (hu : s.install = some u) (phase : InstallPhase) :
    Aged r (s.setPhase u phase) :=
  { h with staged := fun _ hx => Option.some.inj hx ▸ h.staged u hu }

omit h in
theorem holding_of_alone (hp : p.alone = true) : p.holding = true := by
  cases p with
  | picked job opts => cases hp
  | claimed job opts => cases hp
  | done => cases hp
  | _ => rfl

/-- What a pass that holds its tables makes of the tree leaves the other passes as they are. -/
theorem endPass_install (hg : Gate s) (hp : s.passes[i]? = some p) (hhldg : p.holding = true)
    (htree : AgeOrdered r (v.levels 0) (s.view.frozen ++ [s.view.active]) s.lastSeq s.usedIds) :
    Aged r ((s.setVersion v).setPass i .done) := by
  have hd : p.isDone = false := by cases p <;> first | rfl | cases hhldg
  have hn : ∀ u, u ∉ s.install := fun u hu => by
    have halone := hg.held (Option.isSome_of_mem hu)
    cases (hg.not_alone hp hd).symm.trans halone
  refine ⟨htree, fun q hq => ?_, (h.endPass i).alone, fun u hu => absurd hu (hn u)⟩
  obtain ⟨j, hj⟩ := mem_iff_getElem?.mp hq
  rcases getElem?_set_cases hj with ⟨hne, hj⟩ | ⟨-, rfl⟩
  · refine (h.passes q (mem_of_getElem? hj)).of_not_alone ?_
    rw [← Bool.not_eq_true]
    exact fun halone => hne (h.alone j i q p hj hp halone hhldg)
  · trivial

/-- `honce` is asked of a flush whose rewrite fails. -/
theorem flush (hg : Gate s) (hs : s.flush file rewritten = some s')
    (honce : rewritten = false → ∀ m ∈ s.view.frozen.head?,
      Older r Source.Stamps (.memtable m) (.memtable m)) : Aged r s' := by
  obtain ⟨m, rest, hf, ⟨-, rfl⟩ | ⟨f, seq, hw, -, hid, rfl⟩⟩ := flush_eq_some hs
  · have htree := h.tree
    rw [hf] at htree
    refine ⟨?_, h.passes, h.alone, h.staged⟩
    rw [show (s.view.retireMemtable m).frozen = rest from hg.retire_head hf]
    exact htree.sublist (.refl _) (sublist_cons_self m _) (.refl _)
  · have htree := h.tree
    rw [hf] at htree
    have hl0 : (s.view.installFlush m f seq (if rewritten then some m else none)).version.levels 0 =
        s.view.version.levels 0 ++ [f] := by
      have hl := congrFun (m.levels_flushEdits s.view.version f seq) 0
      rw [Function.update_self] at hl
      cases rewritten <;> exact hl
    refine ⟨?_, fun p hp => ?_, h.alone, fun u hu => ?_⟩
    · rw [hl0]
      cases rewritten with
      | false =>
        change AgeOrdered r _ (s.view.frozen ++ _) _ _
        rw [hf]
        exact htree.flush hw hid [m] (.inr ⟨rfl, honce rfl m (by simp [hf])⟩)
      | true =>
        change AgeOrdered r _ ((s.view.retireMemtable m).frozen ++ _) _ _
        rw [hg.retire_head hf]
        exact htree.flush hw hid [] (.inl rfl)
    · exact (h.passes p hp).grow hl0 (by simpa using hid) (subset_cons_self _ _)
    · obtain ⟨hused, hfr⟩ := h.staged u hu
      refine ⟨mem_cons_of_mem _ hused, ?_⟩
      rw [hl0, map_append, mem_append, not_or]
      exact ⟨hfr, fun hmem => hid (mem_singleton.mp hmem ▸ hused)⟩

theorem write {live : List Seq} {file : Nat → OutputFile}
    (hs : s.write i live file = some s') : Aged r s' := by
  obtain ⟨job, opts, alone, hp, hl, hids, hfr, rfl⟩ := write_eq_some hs
  have hsub : s.usedIds ⊆ (job.perform opts s.view.version live file).map LiveSst.id ++ s.usedIds :=
    subset_append_right _ _
  have hok := h.passes _ (mem_of_getElem? hp)
  have hbase : Aged r { s with usedIds :=
      (job.perform opts s.view.version live file).map LiveSst.id ++ s.usedIds } :=
    ⟨h.tree.sublist (.refl _) (.refl _) hsub,
      fun q hq => (h.passes q hq).grow (append_nil _).symm (by simp) hsub,
      h.alone, fun u hu => (h.staged u hu).imp_left (hsub ·)⟩
  refine hbase.setPass ?_ (fun ha => ⟨_, hp, ha⟩) fun _ => .inl ⟨_, hp, rfl⟩
  cases alone with
  | false => exact hok
  | true =>
    refine hok.imp_right fun ⟨older, block, newer, hm⟩ => ⟨older, block, newer, hm, ?_, ?_⟩
    · refine hm.made (fun f hf => ?_) hl hids
      exact h.tree.sorted (.table f) (mem_append_left _ (mem_map_of_mem hf))
    · refine fun o ho => ⟨mem_append_left _ (mem_map_of_mem ho), fun hmem => ?_⟩
      obtain ⟨f, hf, hid⟩ := mem_map.mp hmem
      exact hfr o ho (hid ▸ h.tree.used f hf)

theorem apply (hg : Gate s) (hs : s.apply i = some s') : Aged r s' := by
  obtain ⟨job, outs, alone, hp, rfl⟩ | ⟨ids, hp, rfl⟩ := apply_eq_some hs
  · refine h.endPass_install hg hp rfl ?_
    have hok := h.passes _ (mem_of_getElem? hp)
    have hcases : job.target ≠ 0 ∨ ∃ older block newer,
        job.Merge s.view.version older block newer ∧ Made r block outs ∧
          ∀ o ∈ outs, o.id ∈ s.usedIds ∧ o.id ∉ (s.view.version.levels 0).map LiveSst.id := by
      cases alone with
      | false => exact .inl hok
      | true => exact hok
    rcases hcases with htgt | ⟨older, block, newer, hm, hmade, hids⟩
    · rw [installEdits_of_target htgt, levels_edits htgt, if_neg htgt.symm]
      split_ifs
      · exact h.tree.sublist filter_sublist (.refl _) (.refl _)
      · exact h.tree
    · rw [installEdits, if_pos ⟨hm.level, hm.target⟩, hm.levels_rebuild h.tree.ids,
        Function.update_self]
      have htree := h.tree
      rw [hm.l0] at htree hids
      exact htree.merge hmade (fun o ho => (hids o ho).1) fun o ho => (hids o ho).2
  · refine h.endPass_install hg hp rfl ?_
    rw [Version.levels_removeFiles, Function.update_self]
    exact h.tree.sublist filter_sublist (.refl _) (.refl _)

omit h

section Newest

variable (hr : ∀ {q q' : Seq}, q < q' → r q q')

include hr

theorem install (h : Aged r s) (hg : Gate s) (hs : s.installTable = some s') : Aged r s' := by
  obtain ⟨u, level, hu, hph, hf, rfl⟩ := installTable_eq_some hs
  have hc := hg.clear u hu
  simp only [Install.Clear, hph] at hc
  obtain ⟨hused, hfr⟩ := h.staged u hu
  have hunheld : ∀ m ∈ s.view.frozen ++ [s.view.active],
      m.holdsKeyIn u.table.smallest u.table.largest = false := fun m hm => by
    refine hc m (mem_memtables.mpr ?_)
    exact (mem_append.mp hm).symm.imp_left mem_singleton.mp
  have htree := (show AgeOrdered r (s.view.version.levels 0 ++ []) _ _ _ from
    (append_nil _).symm ▸ h.tree).install hr hf (by simp) hunheld hused (by simpa using hfr)
  have hd : ∀ p ∈ s.passes, p.isDone = true := hg.done (hg.held (hu ▸ rfl))
  have hlvs : (s.view.version.applyEdits [.addFile level (u.table.installed (s.lastSeq + 1)),
      .setLastSeq (s.lastSeq + 1)]).levels 0 = if level = 0 then
        s.view.version.levels 0 ++ [u.table.installed (s.lastSeq + 1)] else
        s.view.version.levels 0 := by
    split_ifs with hl
    · simp [VersionEdit.apply, Version.addFile, hl]
    · simp [VersionEdit.apply, Version.addFile, Ne.symm hl]
  refine ⟨?_, fun p hp => ?_, h.alone, fun _ hn => by cases hn⟩
  · change AgeOrdered r ((s.view.version.applyEdits _).levels 0) (s.view.frozen ++ [s.view.active])
      (s.lastSeq + 1) s.usedIds
    rw [hlvs]
    split_ifs
    · exact htree
    · exact htree.sublist (sublist_append_left _ _) (.refl _) (.refl _)
  · have := hd p hp
    cases p with
    | done => trivial
    | _ => cases this

/-- Every step keeps L0 in age order. -/
theorem step (h : Aged r s) (hg : Gate s) {a : Action} (honce : FlushedOnce r s a)
    (hs : step c s a = some s') : Aged r s' := by
  cases a with
  | commit ops =>
    obtain ⟨⟨-, htakes⟩, rfl⟩ := guarded_eq_some.mp hs
    exact { h with tree := h.tree.commit hr htakes.1 }
  | rotate wal =>
    obtain ⟨-, hs⟩ := Option.ite_none_left_eq_some.mp hs
    exact Option.some.inj hs ▸ { h with tree := h.tree.rotate _ _ _ }
  | flush file => exact h.flush hg hs Bool.noConfusion
  | flushFails file => exact h.flush hg hs fun _ => honce
  | pick picker =>
    obtain ⟨-, hfree, job, hjob, rfl⟩ := pick_eq_some hs
    have hok := Picker.job_ok hjob
    cases halone : picker.alone with
    | false =>
      rw [halone] at hok
      exact h.addPass hok Bool.noConfusion Bool.noConfusion fun q _ => holding_of_alone
    | true =>
      rw [halone] at hok
      exact h.addPass hok (fun _ => hfree halone) (fun _ => rfl) fun q _ => holding_of_alone
  | pickFifo =>
    obtain ⟨-, hfree, rfl⟩ := pickFifo_eq_some hs
    exact h.addPass trivial (fun _ => hfree) (fun _ => rfl) fun q _ => holding_of_alone
  | claim i =>
    obtain ⟨job, opts, hp, rfl | ⟨hn, rfl⟩⟩ := claim_eq_some hs
    · exact h.endPass i
    · have hok : job.target ≠ 0 := h.passes _ (mem_of_getElem? hp)
      exact h.setPass hok Bool.noConfusion fun _ => .inr hn
  | check i =>
    obtain ⟨job, opts, hp, rfl | rfl⟩ := check_eq_some hs
    · exact h.endPass i
    · have hok : job.target ≠ 0 := h.passes _ (mem_of_getElem? hp)
      exact h.setPass hok Bool.noConfusion fun _ => .inl ⟨_, hp, rfl⟩
  | write i live file => exact h.write hs
  | apply i => exact h.apply hg hs
  | fail i =>
    cases hs
    exact h.endPass i
  | takeGate =>
    obtain ⟨-, hs⟩ := Option.ite_none_left_eq_some.mp hs
    exact Option.some.inj hs ▸ { h with }
  | releaseGate =>
    obtain ⟨-, rfl⟩ := guarded_eq_some.mp hs
    exact { h with }
  | queue table behind =>
    obtain ⟨-, hid, rfl⟩ := queue_eq_some hs
    have hsub := subset_cons_self table.fileId s.usedIds
    refine ⟨h.tree.sublist (.refl _) (.refl _) hsub,
      fun p hp => (h.passes p hp).grow (append_nil _).symm (by simp) hsub, h.alone,
      fun u hu => ?_⟩
    cases hu
    refine ⟨mem_cons_self, fun hmem => hid ?_⟩
    obtain ⟨f, hf, hfid⟩ := mem_map.mp hmem
    exact hfid ▸ h.tree.used f hf
  | enter wal =>
    obtain ⟨u, hu, -, rfl | ⟨level, -, rfl⟩ | rfl | ⟨-, rfl⟩⟩ := enter_eq_some hs
    · exact { h with staged := fun x hx => by cases hx }
    · exact h.setPhase hu _
    · exact { h.setPhase hu _ with tree := h.tree.rotate _ _ _ }
    · exact h.setPhase hu _
  | place =>
    obtain ⟨u, hu, ⟨target, -, -, rfl⟩ | ⟨-, rfl⟩⟩ := place_eq_some hs <;>
      exact h.setPhase hu _
  | install => exact h.install hr hg hs
  | giveUp =>
    cases hs
    exact { h with staged := fun x hx => by cases hx }

end Newest

end Aged

variable {lastSeq : Seq}

theorem aged_opened
    (ho : AgeOrdered r (v.levels 0) [active] lastSeq (opened v active lastSeq).usedIds) :
    Aged r (opened v active lastSeq) :=
  ⟨ho, nofun, nofun, nofun⟩

/-- So does every run. -/
theorem aged_run (hr : ∀ {q q' : Seq}, q < q' → r q q')
    (ho : AgeOrdered r (v.levels 0) [active] lastSeq (opened v active lastSeq).usedIds)
    {as : List Action} (honce : Along (step c) (FlushedOnce r) (opened v active lastSeq) as)
    {s : State} (hrun : run (step c) (opened v active lastSeq) as = some s) :
    Gate s ∧ Aged r s := by
  refine run_invariant (I := fun s => Gate s ∧ Aged r s) (fun s a s' h honce hs => ?_)
    ⟨gate_opened v active lastSeq, aged_opened ho⟩ honce hrun
  exact ⟨h.1.step hs, h.2.step hr h.1 honce hs⟩

/-- In every version a store publishes while no memtable with a key at two sequences is flushed
again, of two tables of L0 the earlier has nothing for a key above what the later has for it; a
walk from the newest may end at the first table that has something it may see. -/
theorem l0_in_age_order
    (hopen : AgeOrdered (· ≤ ·) (v.levels 0) [active] lastSeq (opened v active lastSeq).usedIds)
    {as : List Action} (honce : Along (step c) (FlushedOnce (· ≤ ·)) (opened v active lastSeq) as)
    {s : State} (hrun : run (step c) (opened v active lastSeq) as = some s) :
    ((s.view.version.levels 0).Pairwise fun a b => ∀ k q q', (Source.table a).Stamps k q →
      (Source.table b).Stamps k q' → q ≤ q') ∧
    ∀ k r q, (s.view.version.levels 0).reverse.findSome? (LiveSst.newestStamp k r) = some q →
      ∀ f ∈ s.view.version.levels 0, ∀ q', (Source.table f).Stamps k q' → q' ≤ r → q' ≤ q := by
  have hordr := (aged_run le_of_lt hopen honce hrun).2.tree.order
  rw [byAge, InAgeOrder, pairwise_append, pairwise_map] at hordr
  refine ⟨hordr.1, fun k r q hfind f hf q' hq' hle => ?_⟩
  have hage : InAgeOrder (· ≤ ·) (fun f => (Source.table f).Stamps) (s.view.version.levels 0) :=
    hordr.1
  exact hage.le_of_findSome? (fun f q => (f.newestStamp_spec k r).1 q)
    (fun f => (f.newestStamp_spec k r).2) hfind hf hq' hle

def onePut : StagedTable where
  fileId := 2
  reader := ⟨[⟨[1], 0, .value, [7]⟩], .fromVec []⟩
  smallest := [1]
  largest := [1]
  fileSize := 10
  numEntries := 1
  deletions := stagedDeletions [⟨[1], 0, .value, [7]⟩]
  ascending := pairwise_singleton _ _
  range := by decide
  counted := rfl

def plainConfig : Config := ⟨⟨100, none, none⟩, ⟨1, 2, 4, 200⟩, 0, fun _ _ _ => 0⟩

/-- A key is written, and a table with the key is ingested: the memtable is flushed first, and
once more, as the first flush failed to rewrite the manifest. -/
def ingestOverPut : List Action :=
  [.commit [.put [1] [5]], .takeGate, .queue onePut false, .enter none, .flushFails ⟨1, 10⟩,
    .flush ⟨3, 10⟩, .place, .install]

theorem flushedOnce_of_one (h : ∀ m ∈ s.view.frozen.head?,
    m.rangeTombstones = [] ∧ ∀ e ∈ m.entries, e.seq = 1) (file : OutputFile) :
    FlushedOnce (· ≤ ·) s (.flushFails file) := by
  intro m hm k q q' hq hq'
  obtain ⟨hn, hone⟩ := h m hm
  have hstamp : ∀ {q}, (Source.memtable m).Stamps k q → q = 1 := by
    rintro q (⟨e, he, -, rfl⟩ | ⟨t, ht, -⟩)
    · exact hone e he
    · rw [tombstones, hn] at ht
      cases ht
  exact (hstamp hq).trans (hstamp hq').symm |>.le

/-- A failed flush, the flush after it, and an ingest. -/
theorem l0_in_age_order_of_ingest : ∃ s,
    run (step plainConfig) (opened (.levelZero [] 0) (.new 0) 0) ingestOverPut = some s ∧
    (s.view.version.levels 0).map LiveSst.id = [1, 3, 2] ∧
    ((s.view.version.levels 0).Pairwise fun a b => ∀ k q q', (Source.table a).Stamps k q →
      (Source.table b).Stamps k q' → q ≤ q') ∧
    ∀ k r q, (s.view.version.levels 0).reverse.findSome? (LiveSst.newestStamp k r) = some q →
      ∀ f ∈ s.view.version.levels 0, ∀ q', (Source.table f).Stamps k q' → q' ≤ r → q' ≤ q := by
  obtain ⟨s, hrun, hids⟩ := Option.map_eq_some_iff.mp (show (run (step plainConfig)
    (opened (.levelZero [] 0) (.new 0) 0) ingestOverPut).map (fun s =>
      (s.view.version.levels 0).map LiveSst.id) = some [1, 3, 2] by decide +kernel)
  refine ⟨s, hrun, hids, l0_in_age_order (ageOrdered_new 0 _) ?_ hrun⟩
  rw [← take_append_drop 4 ingestOverPut, along_append]
  refine ⟨along_of_forall (by simp [ingestOverPut, FlushedOnce]) _, fun t ht =>
    ⟨?_, fun t _ => along_of_forall (by simp [FlushedOnce]) t⟩⟩
  have hfacts : (run (step plainConfig) (opened (.levelZero [] 0) (.new 0) 0)
      (ingestOverPut.take 4)).all fun t => t.view.frozen.head?.all fun m =>
        decide (m.rangeTombstones = [] ∧ ∀ e ∈ m.entries, e.seq = 1) := by decide +kernel
  rw [ht, Option.all_some] at hfacts
  exact flushedOnce_of_one (fun m hm =>
    of_decide_eq_true ((Option.all_eq_true ..).mp hfacts m hm)) _

/-- A key is written twice, and the memtable is flushed twice: the first flush installs its table
and fails to rewrite the manifest. -/
def flushedTwice : List Action :=
  [.commit [.put [1] [5], .put [1] [6]], .rotate none, .flushFails ⟨1, 10⟩, .flush ⟨2, 10⟩]

/-- The first table has the key at sequence 2, the one behind it at 1. -/
theorem l0_out_of_order_of_flushedTwice : ∃ s,
    run (step plainConfig) (opened (.levelZero [] 0) (.new 0) 0) flushedTwice = some s ∧
    ¬ (s.view.version.levels 0).Pairwise fun a b => ∀ k q q', (Source.table a).Stamps k q →
      (Source.table b).Stamps k q' → q ≤ q' := by
  obtain ⟨s, hrun, hstamps⟩ := Option.map_eq_some_iff.mp (show (run (step plainConfig)
    (opened (.levelZero [] 0) (.new 0) 0) flushedTwice).map (fun s =>
      (s.view.version.levels 0).map (LiveSst.stampsUpTo [1] 2)) = some [[2, 1], [2, 1]] by
    decide +kernel)
  refine ⟨s, hrun, fun hordr => ?_⟩
  obtain ⟨a, rest, hl0, ha, hrest⟩ := map_eq_cons_iff.mp hstamps
  obtain ⟨b, rest, rfl, hb, -⟩ := map_eq_cons_iff.mp hrest
  rw [hl0] at hordr
  have hle := rel_of_pairwise_cons hordr mem_cons_self [1] 2 1
    (LiveSst.mem_stamps.mp (ha ▸ mem_cons_self)).1
    (LiveSst.mem_stamps.mp (hb ▸ mem_cons_of_mem _ mem_cons_self)).1
  exact absurd hle (by decide)

end Tree

end RegolithStore
