import RegolithStore.Store.Apply
import RegolithStore.Store.Lookup

/-! What a read finds right after a commit: the commit's own versions of the key, newest
first, over the versions the key had. -/

namespace RegolithStore

open Lib List Source

namespace WriteBatchOp

def versionOf (k : Key) : WriteBatchOp → Option (ValueType × Value)
  | put key value => if key = k then some (.value, value) else none
  | delete key => if key = k then some (.deletion, []) else none
  | merge key operand => if key = k then some (.merge, operand) else none
  | deleteRange .. => none

end WriteBatchOp

def ownVersions (k : Key) (ops : List WriteBatchOp) (base : Seq) : List Entry :=
  ((opEntries ops base).filter fun e => decide (e.userKey = k)).reverse

theorem map_fst_sequenced (ops : List WriteBatchOp) (base : Seq) :
    (sequenced ops base).map Prod.fst = ops := by
  induction ops generalizing base with
  | nil => rfl
  | cons op ops ih => rw [sequenced, map_cons, ih]

theorem map_ownVersions (k : Key) (ops : List WriteBatchOp) (base : Seq) :
    (ownVersions k ops base).map (fun e => (e.valueType, e.value)) =
      (ops.filterMap (WriteBatchOp.versionOf k)).reverse := by
  have hver : ∀ p : WriteBatchOp × Seq, (Option.filter (fun e => decide (e.userKey = k))
      (p.1.pointEntry p.2)).map (fun e => (e.valueType, e.value)) = p.1.versionOf k := by
    rintro ⟨op, seq⟩
    cases op with
    | deleteRange start stop => rfl
    | put key value | delete key | merge key operand =>
      simp only [WriteBatchOp.pointEntry, WriteBatchOp.versionOf, Option.filter]
      split_ifs <;> simp_all
  rw [ownVersions, map_reverse, opEntries, filter_filterMap, map_filterMap]
  simp only [hver]
  conv_rhs => rw [← map_fst_sequenced ops base, filterMap_map]
  rfl

namespace ReadView

variable {view : ReadView} {S next : Seq} {ops : List WriteBatchOp}

def AtMost (view : ReadView) (S : Seq) : Prop :=
  ∀ s ∈ view.sources, (∀ e ∈ s.entries, e.seq ≤ S) ∧ ∀ t ∈ s.tombstones, t.seq ≤ S

instance (view : ReadView) (S : Seq) : Decidable (view.AtMost S) :=
  inferInstanceAs (Decidable (∀ s ∈ view.sources, _ ∧ _))

instance (view : ReadView) (base : Seq) : Decidable (view.Below base) :=
  inferInstanceAs (Decidable (∀ s ∈ view.sources, _ ∧ _))

theorem AtMost.below (h : view.AtMost S) (hlt : S < next) : view.Below next := fun s hs =>
  ⟨fun e he => ((h s hs).1 e he).trans_lt hlt, fun t ht => ((h s hs).2 t ht).trans_lt hlt⟩

def commit (view : ReadView) (ops : List WriteBatchOp) (next : Seq) : ReadView :=
  { view with active := view.active.apply ops next }

theorem exists_mem_sources_active {m : MemTable} {P : Source → Prop} :
    (∃ s ∈ ({ view with active := m } : ReadView).sources, P s) ↔
      P (.memtable m) ∨ ∃ s ∈ view.sources.tail, P s := by
  rw [sources_active, exists_mem_cons_iff]

theorem exists_mem_sources {P : Source → Prop} :
    (∃ s ∈ view.sources, P s) ↔ P (.memtable view.active) ∨ ∃ s ∈ view.sources.tail, P s :=
  @exists_mem_sources_active view view.active P

section Commit

variable (hview : view.LsmOrdered) (hupto : view.AtMost S) (hlt : S < next)
  (hfits : next.Fits ops.length) {r : Seq} (hr : next.toNat + ops.length ≤ r.toNat + 1)

include hupto hlt hfits in
theorem exists_mem_entries_commit {e : Entry} :
    (∃ s ∈ (view.commit ops next).sources, e ∈ s.entries) ↔
      (∃ s ∈ view.sources, e ∈ s.entries) ∨ e ∈ opEntries ops next := by
  have ha : e ∈ (memtable (view.active.apply ops next)).entries ↔
      e ∈ view.active.entries ∨ e ∈ opEntries ops next :=
    MemTable.mem_apply hfits (hupto.below hlt).active
  rw [commit, exists_mem_sources_active, exists_mem_sources, ha, or_right_comm]
  rfl

include hview hupto hlt hfits hr in
/-- The commit's versions, then those there were. -/
theorem visible_commit (k : Key) :
    (view.commit ops next).visible k r = ownVersions k ops next ++ view.visible k S := by
  have ho : (view.commit ops next).LsmOrdered :=
    hview.apply hfits (hupto.below hlt) (Seq.pos_of_lt hlt)
  have hb : ∀ e ∈ opEntries ops next, S < e.seq ∧ e.seq ≤ r := fun e he => by
    have := bounds_of_mem_opEntries hfits he
    have hlt := UInt64.lt_iff_toNat_lt.mp hlt
    exact ⟨UInt64.lt_iff_toNat_lt.mpr (by omega), UInt64.le_iff_toNat_le.mpr (by omega)⟩
  have hSr : S ≤ r := UInt64.le_iff_toNat_le.mpr (by
    have := UInt64.lt_iff_toNat_lt.mp hlt
    omega)
  refine ho.visible_descending.eq_of_mem_iff ?_ fun e => ?_
  · refine pairwise_append.mpr ⟨?_, hview.visible_descending, fun e he e' he' => ?_⟩
    · rw [ownVersions, pairwise_reverse]
      exact (opEntries_pairwise hfits).filter _
    · have hown : e ∈ opEntries ops next := (mem_filter.mp (mem_reverse.mp he)).1
      exact (mem_visible.mp he').2.2.trans_lt (hb e hown).1
  · have hle : (∃ s ∈ view.sources, e ∈ s.entries) → e.seq ≤ S := fun ⟨s, hs, he⟩ =>
      (hupto s hs).1 e he
    have hown : e ∈ ownVersions k ops next ↔ e ∈ opEntries ops next ∧ e.userKey = k := by
      simp [ownVersions]
    rw [mem_visible, exists_mem_entries_commit hupto hlt hfits, mem_append, hown, mem_visible]
    constructor
    · rintro ⟨hmem | hmem, hk, -⟩
      · exact .inr ⟨hmem, hk, hle hmem⟩
      · exact .inl ⟨hmem, hk⟩
    · rintro (⟨hmem, hk⟩ | ⟨hmem, hk, hS⟩)
      · exact ⟨.inr hmem, hk, (hb e hmem).2⟩
      · exact ⟨.inl hmem, hk, hS.trans hSr⟩

include hupto hlt hr in
/-- A commit with no range delete hides nothing more. -/
theorem coveringSeq_commit (hrgs : opTombstones ops next = []) (k : Key) :
    (view.commit ops next).coveringSeq k r = view.coveringSeq k S := by
  have hSr : S ≤ r := UInt64.le_iff_toNat_le.mpr (by
    have := UInt64.lt_iff_toNat_lt.mp hlt
    omega)
  refine eq_of_forall_lt_iff fun q => ?_
  have ha : ∀ t, t ∈ (memtable (view.active.apply ops next)).tombstones ↔
      t ∈ (memtable view.active).tombstones := fun t => by
    rw [tombstones, tombstones, MemTable.mem_apply_tombstones, hrgs]
    simp
  rw [lt_coveringSeq, lt_coveringSeq, commit, exists_mem_sources_active, exists_mem_sources]
  simp only [ha]
  have hiff : ∀ s ∈ view.sources, (∃ t ∈ s.tombstones, t.seq ≤ r ∧ t.Covers k ∧ q < t.seq) ↔
      ∃ t ∈ s.tombstones, t.seq ≤ S ∧ t.Covers k ∧ q < t.seq := fun s hs =>
    exists_congr fun t => and_congr_right fun ht => and_congr_left fun _ =>
      ⟨fun _ => (hupto s hs).2 t ht, fun hle => hle.trans hSr⟩
  refine or_congr (hiff (.memtable view.active) mem_cons_self) ?_
  exact exists_congr fun s => and_congr_right fun hs => hiff s (mem_of_mem_tail hs)

include hview hupto hlt hfits hr in
/-- The read after a commit without range deletes folds the commit's versions onto the chain
the read before it folds. -/
theorem getWithMerge_commit (hrgs : opTombstones ops next = []) (op : MergeOperator) (k : Key) :
    ∃ chain, view.getWithMerge k S op = resolve op k chain ∧
      (view.commit ops next).getWithMerge k r op =
        resolve op k (ownVersions k ops next ++ chain) := by
  have ho : (view.commit ops next).LsmOrdered :=
    hview.apply hfits (hupto.below hlt) (Seq.pos_of_lt hlt)
  refine ⟨_, hview.getWithMerge_eq op, ?_⟩
  rw [ho.getWithMerge_eq, visible_commit hview hupto hlt hfits hr,
    coveringSeq_commit hupto hlt hr hrgs, takeWhile_append_of_pos]
  intro e he
  have hown : e ∈ opEntries ops next := (mem_filter.mp (mem_reverse.mp he)).1
  have hcover : view.coveringSeq k S ≤ S := coveringSeq_le.mpr fun _ _ _ _ h _ => h
  refine decide_eq_true (hcover.trans_lt (hlt.trans_le ?_))
  exact UInt64.le_iff_toNat_le.mpr (bounds_of_mem_opEntries hfits hown).1

end Commit

section Below

variable (hview : view.LsmOrdered) (hbel : view.Below next) (hfits : next.Fits ops.length)
  {r : Seq} (hr : r < next)

include hview hbel hfits hr

theorem active_visible_commit (k : Key) : (memtable (view.active.apply ops next)).visible k r =
      (memtable view.active).visible k r := by
  have hs := hview.sorted view.active mem_cons_self
  refine List.Pairwise.eq_of_mem_iff
    (((MemTable.apply_sorted hs).filter _).filter _) ((hs.filter _).filter _) fun e => ?_
  rw [Source.mem_visible, Source.mem_visible, entries, entries,
    MemTable.mem_apply hfits hbel.active]
  refine and_congr_left fun hseen => or_iff_left fun hown => ?_
  have hge := (bounds_of_mem_opEntries hfits hown).1
  have hlt := UInt64.lt_iff_toNat_lt.mp (hseen.2.trans_lt hr)
  omega

theorem visible_commit_of_lt (k : Key) : (view.commit ops next).visible k r = view.visible k r := by
  rw [commit, visible, sources_active, flatMap_cons, active_visible_commit hview hbel hfits hr]
  rfl

omit hview hbel in
theorem coveringSeq_commit_of_lt (k : Key) :
    (view.commit ops next).coveringSeq k r = view.coveringSeq k r := by
  refine eq_of_forall_lt_iff fun q => ?_
  rw [lt_coveringSeq, lt_coveringSeq, commit, exists_mem_sources_active, exists_mem_sources]
  refine or_congr_left (exists_congr fun t => ?_)
  rw [tombstones, tombstones, MemTable.mem_apply_tombstones]
  refine and_congr_left fun hseen => or_iff_left fun hown => ?_
  have hge := (bounds_of_mem_opTombstones hfits hown).1
  have hlt := UInt64.lt_iff_toNat_lt.mp (hseen.1.trans_lt hr)
  omega

end Below

end ReadView

end RegolithStore
