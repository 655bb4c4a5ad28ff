import RegolithStore.Ingest.AgeOrder
import RegolithStore.Store.NewestVisible

/-! What a FIFO drop shows (`pick_and_run_fifo`). In a store of puts and deletions whose tables all
lie in L0 the dropped tables are the oldest sources, so a key reads after the drop as before it or
as absent, whatever was flushed or ingested between the choice and the drop. A table ingested
below L0 is older than they are and stays: what they had replaced is read again. -/

namespace RegolithStore

open Lib List

variable {e : Entry} {seq : Seq}

/-! ### Reads without operands -/

namespace ReadView

variable {view view' : ReadView} {k : Key} {r : Seq} {a b : Entry}

/-- The newest version of the key at `r`, above every range tombstone over the key. -/
def Decides (view : ReadView) (k : Key) (r : Seq) (e : Entry) : Prop :=
  e ∈ view.visible k r ∧ (∀ x ∈ view.visible k r, x.seq ≤ e.seq) ∧ view.coveringSeq k r < e.seq

theorem LsmOrdered.eq_of_decides (h : view.LsmOrdered) (ha : view.Decides k r a)
    (hb : view.Decides k r b) : a = b := by
  rcases pairwise_either h.visible_descending ha.1 hb.1 with heq | hlt | hlt
  · exact heq
  · exact absurd (hb.2.1 a ha.1) hlt.not_ge
  · exact absurd (ha.2.1 b hb.1) hlt.not_ge

theorem resolve_of_not_merge {op : MergeOperator} (he : e.valueType ≠ .merge)
    (es : List Entry) : resolve op k (e :: es) = .ok e.answer := by
  rw [resolve_eq, chainBase_cons he, chainOperands_cons he, foldOnto, if_pos rfl, Entry.answer]
  cases hvt : e.valueType with
  | merge => exact absurd hvt he
  | value | deletion => simp [baseOf, hvt]

section

variable (h : view.LsmOrdered) (hpln : ∀ s ∈ view.sources, ∀ e ∈ s.entries, e.valueType ≠ .merge)
  (k : Key) (r : Seq) (op : Option MergeOperator)

include h hpln

/-- Where no version is an operand, a read answers with what decides the key. -/
theorem LsmOrdered.lookupLoaded_cases :
    (∃ e, view.Decides k r e ∧ view.lookupLoaded k r op = .ok e.answer) ∨
      (∀ e, ¬ view.Decides k r e) ∧ view.lookupLoaded k r op = .ok none := by
  have hd := h.visible_descending (k := k) (r := r)
  cases hv : view.visible k r with
  | nil =>
    refine .inr ⟨fun e he => ?_, ?_⟩
    · rw [Decides, hv] at he
      cases he.1
    · cases op with
      | none => rw [lookupLoaded, h.lookupInView_of_nil hv]
      | some op => rw [lookupLoaded, h.getWithMerge_eq, hv]; rfl
  | cons e es =>
    have hmem : e ∈ view.visible k r := hv ▸ mem_cons_self
    obtain ⟨⟨s, hs, hes⟩, -⟩ := mem_visible.mp hmem
    have hm := hpln s hs e hes
    rw [hv, pairwise_cons] at hd
    by_cases hc : view.coveringSeq k r < e.seq
    · refine .inl ⟨e, ⟨hmem, ?_, hc⟩, ?_⟩
      · rw [hv]
        exact forall_mem_cons.mpr ⟨le_rfl, fun x hx => (hd.1 x hx).le⟩
      · cases op with
        | none => rw [lookupLoaded, h.lookupInView_of_cons hv hm, if_pos hc]
        | some op =>
          rw [lookupLoaded, h.getWithMerge_eq, hv, takeWhile_cons_of_pos (by simpa using hc)]
          exact resolve_of_not_merge hm _
    · refine .inr ⟨fun x hx => ?_, ?_⟩
      · obtain ⟨hx, hmax, hlt⟩ := hx
        rw [hv] at hx
        rcases mem_cons.mp hx with rfl | hx
        · exact hc hlt
        · exact absurd (hmax e hmem) (not_le.mpr (hd.1 x hx))
      · cases op with
        | none => rw [lookupLoaded, h.lookupInView_of_cons hv hm, if_neg hc]
        | some op =>
          rw [lookupLoaded, h.getWithMerge_eq, hv, takeWhile_cons_of_neg (by simpa using hc)]
          rfl

/-- Without sources whose entries and tombstones are older than what is left says of their keys, a
key reads as before or as absent. -/
theorem LsmOrdered.lookupLoaded_of_dropped (h' : view'.LsmOrdered)
    (hsub : view'.sources ⊆ view.sources)
    (holder : ∀ s ∈ view'.sources, ∀ u ∈ view.sources, u ∈ view'.sources ∨ s.Newer u) :
    view'.lookupLoaded k r op = view.lookupLoaded k r op ∨
      view'.lookupLoaded k r op = .ok none := by
  rcases h'.lookupLoaded_cases (fun s hs => hpln s (hsub hs)) k r op with ⟨e, he, hread'⟩ | hnone
  · refine .inl (hread'.trans ?_)
    obtain ⟨hmem, hmax, hc⟩ := he
    obtain ⟨⟨s, hs, hes⟩, hek, her⟩ := mem_visible.mp hmem
    have hdecides : view.Decides k r e := by
      refine ⟨mem_visible.mpr ⟨⟨s, hsub hs, hes⟩, hek, her⟩, fun x hx => ?_, ?_⟩
      · obtain ⟨⟨u, hu, hxu⟩, hxk, hxr⟩ := mem_visible.mp hx
        rcases holder s hs u hu with hu' | hn
        · exact hmax x (mem_visible.mpr ⟨⟨u, hu', hxu⟩, hxk, hxr⟩)
        · exact ((hn e hes).1 x hxu (hxk.trans hek.symm)).le
      · obtain ⟨hpos, hlt⟩ := coveringSeq_lt.mp hc
        refine coveringSeq_lt.mpr ⟨hpos, fun u hu t ht htr htk => ?_⟩
        rcases holder s hs u hu with hu' | hn
        · exact hlt u hu' t ht htr htk
        · exact (hn e hes).2 t ht (hek.symm ▸ htk)
    rcases h.lookupLoaded_cases hpln k r op with ⟨e', he', hread⟩ | ⟨hno, -⟩
    · rw [hread, h.eq_of_decides hdecides he']
    · exact absurd hdecides (hno e)
  · exact .inr hnone.2

end

end ReadView

/-! ### Stores of puts and deletions with all tables in L0 -/

/-- Puts and deletions, the versions of a key newest first, and proper ranges. -/
structure Source.Plain (s : Source) : Prop where
  entries : ∀ e ∈ s.entries, 0 < e.seq ∧ e.valueType ≠ .merge
  distinct : s.entries.Pairwise fun a b => b.userKey = a.userKey → b.seq < a.seq
  tombstones : ∀ t ∈ s.tombstones, t.start < t.stop

def StagedTable.Plain (t : StagedTable) : Prop :=
  (∀ e ∈ t.reader.entries, e.valueType ≠ .merge) ∧
    ∀ u ∈ t.reader.rangeTombstones.tombstones, u.start < u.stop

instance (t : StagedTable) : Decidable t.Plain := inferInstanceAs (Decidable (_ ∧ _))

def WriteBatchOp.isMerge : WriteBatchOp → Bool
  | merge .. => true
  | put .. | delete .. | deleteRange .. => false

theorem WriteBatchOp.pointEntry_not_merge {op : WriteBatchOp} (h : op.isMerge = false) (he : op.pointEntry seq = some e) : e.valueType ≠ .merge := by
  cases op with
  | merge => cases h
  | deleteRange => cases he
  | put | delete =>
    cases he
    exact ValueType.noConfusion

theorem StagedTable.Plain.installed {t : StagedTable} (h : t.Plain) (hpos : 0 < seq) :
    (Source.table (t.installed seq)).Plain where
  entries := forall_mem_map.mpr fun e he => ⟨hpos, h.1 e he⟩
  distinct := installed_ascending.imp fun hlt heq => absurd heq hlt.ne'
  tombstones u hu := by
    obtain ⟨x, hx, rfl⟩ := mem_installed_tombstones.mp hu
    exact h.2 x hx

theorem length_insertEntry_le (e : Entry) (xs : List Entry) :
    (insertEntry e xs).length ≤ xs.length + 1 := by
  induction xs with
  | nil => rfl
  | cons x xs ih =>
    rw [insertEntry]
    split_ifs <;> simp only [length_cons] <;> omega

theorem MemTable.length_apply_le (m : MemTable) (ops : List WriteBatchOp) (base : Seq) :
    (m.apply ops base).entries.length ≤ m.entries.length + ops.length := by
  induction ops generalizing m base with
  | nil => exact le_rfl
  | cons op ops ih =>
    refine (ih (m.applyOp (op, base)) (base + 1)).trans ?_
    rw [entries_applyOp, length_cons]
    cases op.pointEntry base with
    | none => dsimp only; omega
    | some e =>
      have := length_insertEntry_le e m.entries
      dsimp only
      omega

variable {file : OutputFile}

/-- Where the entries can be counted at all, a table counts none only when it has none. -/
theorem writeTable_counted {hidden : RangeTombstoneSet} {es : List Entry}
    {ts : List RangeTombstone} {f : LiveSst} (h : writeTable hidden file es ts = some f)
    (hs : es.length < 2 ^ 64) (hz : f.metadata.numEntries = 0) : f.reader.entries = [] := by
  obtain ⟨summary, hsum, rfl⟩ := Option.map_eq_some_iff.mp h
  obtain ⟨range, -, rfl⟩ := Option.map_eq_some_iff.mp hsum
  have hnat := congrArg UInt64.toNat hz
  rw [UInt64.toNat_ofNat', UInt64.toNat_zero, Nat.mod_eq_of_lt hs] at hnat
  exact length_eq_zero_iff.mp hnat

namespace Tree

/-- What runs under FIFO style: nothing is merged, and no flush stops at a failed rewrite. -/
def underFifo : Action → Bool
  | .commit ops => ops.all fun op => !op.isMerge
  | .queue table _ => decide table.Plain
  | .pick _ | .claim _ | .check _ | .write .. | .flushFails _ => false
  | .rotate _ | .flush _ | .pickFifo | .apply _ | .fail _ | .takeGate | .releaseGate | .enter _
  | .place | .install | .giveUp => true

/-- No ingested table goes below L0. -/
def installsInL0 (s : State) : Action → Bool
  | .install => match s.install with
    | some ⟨_, _, _, .placed level⟩ => decide (level = 0)
    | _ => true
  | _ => true

def State.sources (s : State) : List Source :=
  byAge (s.view.version.levels 0) (s.view.frozen ++ [s.view.active])

structure Fifo (s : State) : Prop where
  plain : ∀ src ∈ s.sources, src.Plain
  below : ∀ l, l ≠ 0 → s.view.version.levels l = []
  tables : ∀ f ∈ s.view.version.levels 0,
    f.Sound ∧ (f.metadata.numEntries = 0 → f.reader.entries = [])
  few : ∀ m ∈ s.view.frozen ++ [s.view.active], m.entries.length ≤ s.lastSeq.toNat
  drops : ∀ p ∈ s.passes, p = .done ∨ ∃ ids, p = .dropping ids ∧ ids ⊆ s.usedIds ∧
    (s.view.version.levels 0).Pairwise fun a b => b.id ∈ ids → a.id ∈ ids
  staged : ∀ u ∈ s.install, u.table.Plain

namespace Fifo

variable {c : Config} {s s' : State} {i : Nat}

variable (h : Fifo s)

include h

theorem sources_eq : s.view.sources = s.sources.reverse := by
  have hdeep : ((List.range maxLevels).drop 1).flatMap s.view.version.levels = [] := by
    refine flatMap_eq_nil_iff.mpr fun l hl => h.below l ?_
    exact Nat.one_le_iff_ne_zero.mp (Version.mem_deeper.mp hl).1
  rw [ReadView.sources, Version.tables, hdeep, ReadView.memtables, State.sources, byAge]
  simp

theorem mem_sources {src : Source} : src ∈ s.view.sources ↔
    (∃ f ∈ s.view.version.levels 0, .table f = src) ∨
      ∃ m ∈ s.view.frozen ++ [s.view.active], .memtable m = src := by
  rw [h.sources_eq, mem_reverse, State.sources, byAge, mem_append, mem_map, mem_map]

theorem groups_eq : ∃ gs, (∀ g ∈ gs, g = []) ∧
    s.view.groups = s.sources.reverse.map (fun src => [src]) ++ gs := by
  refine ⟨((List.range maxLevels).drop 1).map fun l => (s.view.version.levels l).map .table,
    forall_mem_map.mpr fun l hl => ?_, ?_⟩
  · rw [h.below l (Nat.one_le_iff_ne_zero.mp (Version.mem_deeper.mp hl).1), map_nil]
  · rw [ReadView.groups, ReadView.memtables, State.sources, byAge]
    simp [Function.comp_def]

omit h in
theorem newer_of_older {a b : Source} (h : Older (· < ·) Source.Stamps a b) : b.Newer a :=
  fun e he => ⟨fun e' he' hk => h _ _ _ (.inl ⟨e', he', hk, rfl⟩) (.inl ⟨e, he, rfl, rfl⟩),
    fun t ht hk => h _ _ _ (.inr ⟨t, ht, hk, rfl⟩) (.inl ⟨e, he, rfl, rfl⟩)⟩

variable (hage : Aged (· < ·) s)

include hage

/-- The view is in the order a read relies on. -/
theorem lsmOrdered : s.view.LsmOrdered := by
  obtain ⟨gs, hgs, hgrps⟩ := h.groups_eq
  have hlvs : ∀ l, ∀ f ∈ s.view.version.levels l, f ∈ s.view.version.levels 0 := by
    intro l f hf
    rcases eq_or_ne l 0 with rfl | hl
    · exact hf
    · rw [h.below l hl] at hf
      cases hf
  refine ⟨⟨fun l f hf => (h.tables f (hlvs l f hf)).1, fun l f hf =>
    (h.tables f (hlvs l f hf)).2, fun l h1 _ => ?_⟩, fun m hm => ?_, fun src hs e he => ?_,
    ?_, fun g hg => ?_⟩
  · rw [h.below l (Nat.one_le_iff_ne_zero.mp h1)]
    exact .nil
  · refine hage.tree.sorted (.memtable m) (mem_append_right _ (mem_map_of_mem ?_))
    exact mem_append.mpr ((mem_memtables.mp hm).symm.imp_right mem_singleton.mpr)
  · rw [h.sources_eq, mem_reverse] at hs
    exact ((h.plain src hs).entries e he).1
  · rw [hgrps, pairwise_append, pairwise_map, pairwise_reverse]
    refine ⟨hage.tree.order.imp fun holder => ?_, ?_, ?_⟩
    · simp only [forall_mem_singleton]
      exact newer_of_older holder
    · exact pairwise_of_forall_mem_list fun a ha b hb src hs => by simp [hgs a ha] at hs
    · exact fun a _ b hb src hs u hu => by simp [hgs b hb] at hu
  · rw [hgrps] at hg
    rcases mem_append.mp hg with hg | hg
    · obtain ⟨src, hs, rfl⟩ := mem_map.mp hg
      rw [flatMap_singleton]
      exact (h.plain src (mem_reverse.mp hs)).distinct
    · rw [hgs g hg]
      exact .nil

theorem below_next {next : Seq} (hlt : s.lastSeq < next) :
    s.view.Below next := by
  intro src hs
  rw [h.sources_eq, mem_reverse] at hs
  refine ⟨fun e he => ?_, fun t ht => ?_⟩
  · exact (hage.tree.le src hs e.userKey e.seq (.inl ⟨e, he, rfl, rfl⟩)).trans_lt hlt
  · have hc : t.Covers t.start := ⟨le_rfl, (h.plain src hs).tombstones t ht⟩
    exact (hage.tree.le src hs t.start t.seq (.inr ⟨t, ht, hc, rfl⟩)).trans_lt hlt

theorem commit {ops : List WriteBatchOp}
    (hops : underFifo (.commit ops) = true) (htakes : s.Takes ops) : Fifo (s.commit ops) := by
  obtain ⟨hf, hprop⟩ := htakes
  have hn := Seq.toNat_succ hf
  have hsum : (s.lastSeq + UInt64.ofNat ops.length).toNat = s.lastSeq.toNat + ops.length :=
    Seq.toNat_add (Nat.lt_of_succ_lt hf)
  have hlt : s.lastSeq < s.lastSeq + 1 := UInt64.lt_iff_toNat_lt.mpr (by omega)
  have ho := (h.lsmOrdered hage).apply (Seq.fits_succ hf) (h.below_next hage hlt)
    (Seq.pos_of_lt hlt)
  have hpln := h.plain
  simp only [State.sources, byAge_concat, forall_mem_concat] at hpln
  refine { h with plain := ?_, few := ?_ }
  · simp only [State.sources, State.commit, ReadView.commit, byAge_concat, forall_mem_concat]
    refine ⟨hpln.1, fun e he => ?_,
      by simpa [Source.entries] using ho.within _ mem_cons_self, fun t ht => ?_⟩
    · rcases MemTable.mem_of_mem_apply he with he | he
      · exact hpln.2.entries e he
      · obtain ⟨p, hp, hentry⟩ := mem_filterMap.mp he
        have hpln := all_eq_true.mp hops p.1 (mem_of_mem_sequenced hp)
        refine ⟨?_, WriteBatchOp.pointEntry_not_merge (by simpa using hpln) hentry⟩
        have := (bounds_of_mem_opEntries (Seq.fits_succ hf) he).1
        exact UInt64.lt_iff_toNat_lt.mpr (show 0 < e.seq.toNat by omega)
    · exact (MemTable.mem_apply_tombstones.mp ht).elim (hpln.2.tombstones t) (hprop t)
  · have hfew := h.few
    simp only [forall_mem_concat, State.commit, ReadView.commit, hsum] at hfew ⊢
    refine ⟨fun m hm => (hfew.1 m hm).trans (Nat.le_add_right _ _), ?_⟩
    exact (MemTable.length_apply_le _ _ _).trans (Nat.add_le_add_right hfew.2 _)

omit hage

theorem rotate (wal : Option UInt64) : Fifo (s.rotate wal) := by
  have hpln := h.plain
  have hfew := h.few
  simp only [State.sources, byAge_concat, forall_mem_concat] at hpln hfew
  refine { h with plain := ?_, few := ?_ }
  · simp only [State.sources, State.rotate, ReadView.rotate, byAge_concat, forall_mem_concat]
    refine ⟨⟨hpln.1, hpln.2.entries, hpln.2.distinct, hpln.2.tombstones⟩, ?_⟩
    exact ⟨fun e he => absurd he not_mem_nil, .nil, fun t ht => absurd ht not_mem_nil⟩
  · simp only [State.rotate, ReadView.rotate, forall_mem_concat]
    exact ⟨hfew, Nat.zero_le _⟩

theorem setPhase {u : Install} (hu : s.install = some u) (phase : InstallPhase) :
    Fifo (s.setPhase u phase) :=
  { h with staged := fun _ hx => Option.some.inj hx ▸ h.staged u hu }

/-- Tables leave L0 and tables come behind them; a memtable may leave. -/
theorem of_tables (kept new : List LiveSst) (hk : kept.Sublist (s.view.version.levels 0))
    (hlvs : s'.view.version.levels = Function.update s.view.version.levels 0 (kept ++ new))
    (hfrz : s'.view.frozen ⊆ s.view.frozen) (ha : s'.view.active = s.view.active)
    (hseq : s.lastSeq ≤ s'.lastSeq) (hused : s.usedIds ⊆ s'.usedIds)
    (hpasses : ∀ p ∈ s'.passes, p ∈ s.passes ∨ p = .done)
    (hinstall : ∀ u ∈ s'.install, u ∈ s.install)
    (hnew : ∀ f ∈ new, (Source.table f).Plain ∧ f.Sound ∧
      (f.metadata.numEntries = 0 → f.reader.entries = []) ∧
      ∀ ids, .dropping ids ∈ s.passes → f.id ∉ ids) : Fifo s' := by
  have hl0 : s'.view.version.levels 0 = kept ++ new := by rw [hlvs, Function.update_self]
  have hpln := h.plain
  have hfew := h.few
  simp only [State.sources, byAge, forall_mem_append, forall_mem_map, forall_mem_singleton]
    at hpln hfew
  refine ⟨?_, fun l hl => ?_, ?_, ?_, fun p hp => ?_, fun u hu => h.staged u (hinstall u hu)⟩
  · simp only [State.sources, byAge, hl0, ha, forall_mem_append, forall_mem_map,
      forall_mem_singleton]
    exact ⟨⟨fun f hf => hpln.1 f (hk.subset hf), fun f hf => (hnew f hf).1⟩,
      fun m hm => hpln.2.1 m (hfrz hm), hpln.2.2⟩
  · rw [hlvs, Function.update_of_ne hl, h.below l hl]
  · rw [hl0, forall_mem_append]
    exact ⟨fun f hf => h.tables f (hk.subset hf), fun f hf => ⟨(hnew f hf).2.1, (hnew f hf).2.2.1⟩⟩
  · have hle := UInt64.le_iff_toNat_le.mp hseq
    rw [ha, forall_mem_concat]
    exact ⟨fun m hm => (hfew.1 m (hfrz hm)).trans hle, hfew.2.trans hle⟩
  · rcases hpasses p hp with hp | rfl
    · refine (h.drops p hp).imp_right ?_
      rintro ⟨ids, rfl, hids, hc⟩
      refine ⟨ids, rfl, fun id hid => hused (hids hid), ?_⟩
      rw [hl0]
      have hout := fun f hf => (hnew f hf).2.2.2 ids hp
      refine pairwise_append.mpr ⟨hc.sublist hk, ?_, fun a _ b hb hid => ?_⟩
      · exact pairwise_of_forall_mem_list fun a _ b hb hid => absurd hid (hout b hb)
      · exact absurd hid (hout b hb)
    · exact .inl rfl

theorem flush (hage : Aged (· < ·) s) (hs : s.flush file true = some s') : Fifo s' := by
  obtain ⟨m, rest, hf, ⟨-, rfl⟩ | ⟨f, seq, hw, -, hid, rfl⟩⟩ := flush_eq_some hs
  · refine h.of_tables _ [] (.refl _) ?_ ?_ rfl le_rfl (.refl _)
      (fun _ => .inl) (fun _ => id) (by simp)
    · rw [append_nil, Function.update_eq_self]
      rfl
    · exact fun x hx => mem_of_mem_filter hx
  · have hm : Source.memtable m ∈ s.sources := by
      simp [State.sources, byAge, hf]
    obtain ⟨-, he, -, htombs⟩ := writeTable_eq_some hw
    have hpln := h.plain _ hm
    refine h.of_tables _ [f] (.refl _) (m.levels_flushEdits ..) ?_ rfl le_rfl
      (List.subset_cons_self _ _) (fun _ => .inl) (fun _ => id) ?_
    · exact fun x hx => mem_of_mem_filter hx
    · refine forall_mem_singleton.mpr ⟨⟨?_, ?_, fun t ht => ?_⟩, ?_, fun hz => ?_,
        fun ids hids => ?_⟩
      · rw [Source.entries, he]
        exact hpln.entries
      · rw [Source.entries, he]
        exact hpln.distinct
      · exact hpln.tombstones t ((htombs t).mp ht)
      · exact writeTable_sound hw (hage.tree.sorted _ hm) hpln.tombstones
      · refine writeTable_counted hw ((h.few m ?_).trans_lt s.lastSeq.toNat_lt) hz
        simp [hf]
      · obtain hd | ⟨ids', heq, hsub, -⟩ := h.drops _ hids
        · cases hd
        · cases heq
          exact fun hmem => hid (hsub hmem)

omit h in
theorem fifoLoop_prefix (limit : UInt64) (count : Nat) (fs : List LiveSst) (total : UInt64)
    (removed : Nat) : fifoLoop limit count total removed fs <+: fs.map LiveSst.id := by
  induction fs generalizing total removed with
  | nil => exact List.prefix_refl _
  | cons f fs ih =>
    rw [fifoLoop]
    split_ifs
    · exact nil_prefix
    · exact nil_prefix
    · exact prefix_cons_inj f.id |>.mpr (ih _ _)

omit h in
/-- FIFO takes the oldest tables of L0. -/
theorem pickFifo_closed {limit : UInt64} {v : Version} (hids : ((v.levels 0).map LiveSst.id).Nodup) :
    RegolithStore.pickFifo limit v ⊆ (v.levels 0).map LiveSst.id ∧
      (v.levels 0).Pairwise fun a b =>
        b.id ∈ RegolithStore.pickFifo limit v → a.id ∈ RegolithStore.pickFifo limit v := by
  have hprefix : RegolithStore.pickFifo limit v <+: (v.levels 0).map LiveSst.id := by
    rw [RegolithStore.pickFifo]
    dsimp only
    split_ifs
    · exact nil_prefix
    · exact nil_prefix
    · exact fifoLoop_prefix ..
  obtain ⟨rest, hr⟩ := hprefix
  rw [← pairwise_map (R := fun a b => b ∈ RegolithStore.pickFifo limit v →
    a ∈ RegolithStore.pickFifo limit v), ← hr]
  rw [← hr] at hids
  refine ⟨subset_append_left _ _, pairwise_append.mpr ⟨?_, ?_, ?_⟩⟩
  · exact pairwise_of_forall_mem_list fun a ha b _ _ => ha
  · exact pairwise_of_forall_mem_list fun a _ b hb hb' =>
      absurd hb (disjoint_of_nodup_append hids hb')
  · exact fun a ha b _ _ => ha

/-- The only passes are those that drop tables. -/
theorem apply_eq_some (hs : s.apply i = some s') : ∃ ids,
    s.passes[i]? = some (.dropping ids) ∧ s' = (s.setVersion
      (s.view.version.applyEdits (ids.map (.removeFile 0)))).setPass i .done := by
  obtain ⟨job, outs, alone, hp, -⟩ | hd := Tree.apply_eq_some hs
  · obtain hdone | ⟨ids, heq, -⟩ := h.drops _ (mem_of_getElem? hp)
    · cases hdone
    · cases heq
  · exact hd

theorem apply (hs : s.apply i = some s') : Fifo s' := by
  obtain ⟨ids, -, rfl⟩ := h.apply_eq_some hs
  refine h.of_tables ((s.view.version.levels 0).filter fun f => f.id ∉ ids) [] filter_sublist ?_
    (.refl _) rfl le_rfl (.refl _) (fun p => mem_or_eq_of_mem_set) (fun _ => id) (by simp)
  rw [append_nil]
  exact Version.levels_removeFiles ..

theorem install (hg : Gate s) (hl0 : installsInL0 s .install = true)
    (hs : s.installTable = some s') : Fifo s' := by
  obtain ⟨u, level, hu, hph, hf, rfl⟩ := installTable_eq_some hs
  obtain rfl : level = 0 := by
    obtain ⟨table, behind, probed, phase⟩ := u
    cases hph
    simpa [installsInL0, hu] using hl0
  have hpln := h.staged u hu
  have hn : (s.lastSeq + 1).toNat = s.lastSeq.toNat + 1 := Seq.toNat_add hf
  have hlt : s.lastSeq < s.lastSeq + 1 := UInt64.lt_iff_toNat_lt.mpr (by omega)
  refine h.of_tables _ [u.table.installed (s.lastSeq + 1)] (.refl _) rfl
    (.refl _) rfl hlt.le (.refl _) (fun _ => .inl)
    nofun (forall_mem_singleton.mpr ⟨hpln.installed (Seq.pos_of_lt hlt),
      StagedTable.installed_sound hpln.2, fun hz => ?_, fun ids hids => ?_⟩)
  · have hlen := u.table.counted
    rw [show u.table.numEntries = 0 from hz, eq_comm] at hlen
    exact congrArg (map _) (eq_nil_of_length_eq_zero hlen)
  · have hd := hg.done (hg.held (hu ▸ rfl)) _ hids
    cases hd

/-- Every step under FIFO keeps the sources plain and in L0. -/
theorem step (hage : Aged (· < ·) s) (hg : Gate s) {a : Action}
    (hfifo : underFifo a = true) (hl0 : installsInL0 s a = true) (hs : step c s a = some s') :
    Fifo s' := by
  cases a with
  | pick | claim | check | write | flushFails => cases hfifo
  | commit ops =>
    obtain ⟨⟨-, htakes⟩, rfl⟩ := guarded_eq_some.mp hs
    exact h.commit hage hfifo htakes
  | rotate wal =>
    obtain ⟨-, hs⟩ := Option.ite_none_left_eq_some.mp hs
    exact Option.some.inj hs ▸ h.rotate wal
  | flush file => exact h.flush hage hs
  | pickFifo =>
    obtain ⟨-, -, rfl⟩ := pickFifo_eq_some hs
    refine { h with drops := forall_mem_concat.mpr ⟨h.drops, .inr ⟨_, rfl, ?_⟩⟩ }
    obtain ⟨hsub, hc⟩ := pickFifo_closed hage.tree.ids
    exact ⟨fun id hid => forall_mem_map.mpr hage.tree.used id (hsub hid), hc⟩
  | apply i => exact h.apply hs
  | fail i =>
    cases hs
    refine { h with drops := fun p hp => ?_ }
    exact (mem_or_eq_of_mem_set hp).elim (h.drops p) .inl
  | takeGate =>
    obtain ⟨-, hs⟩ := Option.ite_none_left_eq_some.mp hs
    exact Option.some.inj hs ▸ { h with }
  | releaseGate =>
    obtain ⟨-, rfl⟩ := guarded_eq_some.mp hs
    exact { h with }
  | queue table behind =>
    obtain ⟨-, -, rfl⟩ := queue_eq_some hs
    refine { h with
      drops := fun p hp => (h.drops p hp).imp_right fun ⟨ids, hp, hids, hc⟩ =>
        ⟨ids, hp, fun id hid => mem_cons_of_mem _ (hids hid), hc⟩
      staged := fun u hu => ?_ }
    cases hu
    exact of_decide_eq_true hfifo
  | enter wal =>
    obtain ⟨u, hu, -, rfl | ⟨level, -, rfl⟩ | rfl | ⟨-, rfl⟩⟩ := enter_eq_some hs
    · exact { h with staged := fun x hx => by cases hx }
    · exact h.setPhase hu _
    · exact (h.rotate wal).setPhase hu _
    · exact h.setPhase hu _
  | place =>
    obtain ⟨u, hu, ⟨target, -, -, rfl⟩ | ⟨-, rfl⟩⟩ := place_eq_some hs <;>
      exact h.setPhase hu _
  | install => exact h.install hg hl0 hs
  | giveUp =>
    cases hs
    exact { h with staged := fun x hx => by cases hx }

end Fifo

variable {c : Config} {as : List Action} {s s' : State}

theorem flushedOnce_of_underFifo {r : Seq → Seq → Prop} {a : Action} (h : underFifo a = true) :
    FlushedOnce r s a := by
  cases a with
  | flushFails file => cases h
  | _ => trivial

/-- So does every run. -/
theorem fifo_run (halong : Along (step c) (fun s a => underFifo a ∧ installsInL0 s a)
    (opened .new (.new 0) 0) as) (hrun : run (step c) (opened .new (.new 0) 0) as = some s) :
    Gate s ∧ Aged (· < ·) s ∧ Fifo s := by
  refine run_invariant (I := fun s => Gate s ∧ Aged (· < ·) s ∧ Fifo s) (fun s a s' h hfifo hs =>
    ⟨h.1.step hs, h.2.1.step id h.1 (flushedOnce_of_underFifo hfifo.1) hs,
      h.2.2.step h.2.1 h.1 hfifo.1 hfifo.2 hs⟩) ?_
    halong hrun
  refine ⟨gate_opened _ _ _, aged_opened (ageOrdered_new 0 _), ?_, fun _ _ => rfl, nofun, ?_,
    nofun, nofun⟩
  · refine forall_mem_singleton.mpr ⟨?_, .nil, ?_⟩
    · exact nofun
    · exact nofun
  · exact forall_mem_singleton.mpr le_rfl

/-- In a store of puts and deletions from whose start no ingested table went below L0, a key reads
after a FIFO drop as just before it, or as absent. -/
theorem fifo_drop_keeps_or_hides
    (halong : Along (step c) (fun s a => underFifo a ∧ installsInL0 s a)
      (opened .new (.new 0) 0) as)
    (hrun : run (step c) (opened .new (.new 0) 0) as = some s) {i : Nat}
    (hstep : step c s (.apply i) = some s') (k : Key) (op : Option MergeOperator) :
    s'.view.lookupLoaded k s'.lastSeq op = s.view.lookupLoaded k s.lastSeq op ∨
      s'.view.lookupLoaded k s'.lastSeq op = .ok none := by
  obtain ⟨hgate, hage, hfifo⟩ := fifo_run halong hrun
  have hage' := hage.step id hgate (flushedOnce_of_underFifo rfl) hstep
  have hfifo' := hfifo.apply hstep
  obtain ⟨ids, hp, rfl⟩ := hfifo.apply_eq_some hstep
  obtain hdone | ⟨_, heq, -, hcls⟩ := hfifo.drops _ (mem_of_getElem? hp)
  · cases hdone
  cases heq
  have hordr := hage.tree.order
  rw [InAgeOrder, byAge, pairwise_append, pairwise_map] at hordr
  have hl0 : (s.view.version.applyEdits (ids.map (.removeFile 0))).levels 0 =
      (s.view.version.levels 0).filter fun f => f.id ∉ ids := by
    rw [Version.levels_removeFiles, Function.update_self]
  have hsrcs : ∀ {src}, src ∈ ((s.setVersion (s.view.version.applyEdits
      (ids.map (.removeFile 0)))).setPass i .done).view.sources ↔
      (∃ f ∈ s.view.version.levels 0, f.id ∉ ids ∧ .table f = src) ∨
        ∃ m ∈ s.view.frozen ++ [s.view.active], .memtable m = src := fun {src} => by
    refine hfifo'.mem_sources.trans (or_congr_left ?_)
    change (∃ f ∈ (s.view.version.applyEdits _).levels 0, _) ↔ _
    simp only [hl0, mem_filter, decide_eq_true_eq, and_assoc]
  refine (hfifo.lsmOrdered hage).lookupLoaded_of_dropped ?_ k _ op (hfifo'.lsmOrdered hage') ?_ ?_
  · intro src hsrc e he
    rw [hfifo.sources_eq, mem_reverse] at hsrc
    exact ((hfifo.plain src hsrc).entries e he).2
  · intro src hsrc
    refine hfifo.mem_sources.mpr ((hsrcs.mp hsrc).imp_left ?_)
    rintro ⟨f, hf, -, heq⟩
    exact ⟨f, hf, heq⟩
  · intro src hsrc u hu
    rcases hfifo.mem_sources.mp hu with ⟨f, hf, rfl⟩ | hu
    · by_cases hid : f.id ∈ ids
      · refine .inr (Fifo.newer_of_older ?_)
        rcases hsrcs.mp hsrc with ⟨g, hg, hstay, rfl⟩ | ⟨m, hm, rfl⟩
        -- the tables chosen come before every other table of L0
        · rcases pairwise_either (hordr.1.and hcls) hf hg with rfl | hfg | hgf
          · exact absurd hid hstay
          · exact hfg.1
          · exact absurd (hgf.2 hid) hstay
        · exact hordr.2.2 _ (mem_map_of_mem hf) _ (mem_map_of_mem hm)
      · exact .inl (hsrcs.mpr (.inl ⟨f, hf, hid, rfl⟩))
    · exact .inl (hsrcs.mpr (.inr hu))

def fifoConfig : Config := ⟨⟨100, none, none⟩, ⟨1, 2, 4, 200⟩, 15, fun _ _ _ => 0⟩

/-- A key is written and flushed, and a table with it is ingested; FIFO chooses the older of the
two, and a third is flushed before it goes. -/
def ingestAbove : List Action :=
  [.commit [.put [1] [5]], .rotate none, .flush ⟨1, 10⟩, .takeGate, .queue onePut false,
    .enter none, .place, .install, .releaseGate, .pickFifo, .commit [.put [2] [6]],
    .rotate none, .flush ⟨3, 10⟩]

/-- A table is ingested into an empty store, and its key is deleted. -/
def ingestBelow : List Action :=
  [.takeGate, .queue onePut false, .enter none, .place, .install, .releaseGate,
    .commit [.delete [1]], .rotate none, .flush ⟨3, 10⟩, .commit [.put [2] [6]],
    .rotate none, .flush ⟨4, 10⟩, .pickFifo]

def dropRead (as : List Action) (k : Key) :
    Option (Except ReadError (Option Value) × Except ReadError (Option Value)) :=
  (run (step fifoConfig) (opened .new (.new 0) 0) as).bind fun s =>
    (step fifoConfig s (.apply 0)).map fun s' =>
      (s.view.lookupLoaded k s.lastSeq none, s'.view.lookupLoaded k s'.lastSeq none)

/-- The drop of the older of two tables. -/
theorem fifo_drop_keeps_or_hides_of_ingestAbove : ∃ s s', run (step fifoConfig)
    (opened .new (.new 0) 0) ingestAbove = some s ∧ step fifoConfig s (.apply 0) = some s' ∧
    s.view.lookupLoaded [1] s.lastSeq none = .ok (some [7]) ∧
    (s'.view.lookupLoaded [1] s'.lastSeq none = s.view.lookupLoaded [1] s.lastSeq none ∨
      s'.view.lookupLoaded [1] s'.lastSeq none = .ok none) := by
  obtain ⟨s, hrun, hmap⟩ := Option.bind_eq_some_iff.mp (show
    dropRead ingestAbove [1] = some (.ok (some [7]), .ok (some [7])) by decide +kernel)
  obtain ⟨s', hstep, hrds⟩ := Option.map_eq_some_iff.mp hmap
  exact ⟨s, s', hrun, hstep, congrArg Prod.fst hrds,
    fifo_drop_keeps_or_hides (by decide +kernel) hrun hstep [1] none⟩

/-- The table below L0 outlives the deletion of its key. -/
theorem fifo_drop_brings_back : dropRead ingestBelow [1] = some (.ok none, .ok (some [7])) ∧
    Along (step fifoConfig) (fun _ a => underFifo a) (opened .new (.new 0) 0) ingestBelow := by
  decide +kernel

end Tree

end RegolithStore
