import RegolithStore.Lib.Bloom
import RegolithStore.Store.Lookup

/-! Point reads against what a view holds. The read passes over tables by filter and bounds and
ends at the first source that decides it; the reference takes all entries and all range tombstones
of the view. The two agree but where a range tombstone has the sequence of an entry it covers and
that entry decides the read: the read hides the entry. -/

namespace RegolithStore

open Lib List Source

structure FilterParams where
  hash : Key → UInt64
  numHashes : UInt64 → Nat
  bitsPerKey : UInt64 → Nat

/-- The keys the writer gave the filter, each once. -/
def LiveSst.filterKeys (f : LiveSst) : List Key :=
  dedupBy (fun a b => decide (a = b)) (f.reader.entries.map Entry.userKey)

variable (p : FilterParams) {e : Entry}

def LiveSst.mayContain (f : LiveSst) (k : Key) : Bool :=
  (BloomFilter.build p.hash (p.numHashes f.id) (p.bitsPerKey f.id) f.filterKeys).mayContain p.hash k

/-- `probe`: a table the filter rules out holds nothing of the key. -/
def LiveSst.probe (f : LiveSst) (k : Key) (r : Seq) : LookupResult :=
  if f.mayContain p k then f.get k r else .notInTable

/-- `scan_key` looks at the filter too. -/
def Source.probeChain (k : Key) (r : Seq) : Source → List Entry
  | memtable m => (memtable m).collectMergeChain k r
  | table f => if f.mayContain p k then (table f).collectMergeChain k r else []

def probeVisit (k : Key) (r : Seq) (maxRtSeq : Seq) (_ : Unit) :
    Source → Except (Option Value) Unit
  | .memtable m => match m.get k r with
    | some (seq, value) => .error (if maxRtSeq < seq then value else none)
    | none => .ok ()
  | .table f => match f.probe p k r with
    | .found seq value => .error (if maxRtSeq < seq then some value else none)
    | .foundTombstone _ => .error none
    | .notInTable => .ok ()

namespace ReadView

variable (p : FilterParams) (view : ReadView) (k : Key) (r : Seq)

def lookupInViewFiltered : Option Value :=
  match view.walkNewestFirst k r (probeVisit p k r) () with
  | .error found => found
  | .ok _ => none

def getWithMergeFiltered (op : MergeOperator) : Except ReadError (Option Value) :=
  resolve op k (match view.walkNewestFirst k r
      (fun maxRtSeq chain s => extendChain k maxRtSeq chain (s.probeChain p k r)) [] with
    | .error chain => chain
    | .ok (chain, _) => chain)

end ReadView

section Filter

variable {p : FilterParams} {f : LiveSst} {k : Key} {r : Seq}

theorem LiveSst.visible_of_not_mayContain (h : ¬ f.mayContain p k = true) :
    (Source.table f).visible k r = [] := by
  refine eq_nil_iff_forall_not_mem.mpr fun e he => h ?_
  obtain ⟨hmem, rfl, -⟩ := mem_visible.mp he
  exact BloomFilter.mayContain_build (mem_dedupBy_eq.mpr (mem_map_of_mem hmem))

theorem LiveSst.probe_eq : f.probe p k r = f.get k r := by
  rw [probe]
  split_ifs with h
  · rfl
  · rw [get, visible_of_not_mayContain h, find?_nil]

theorem Source.probeChain_eq (s : Source) : s.probeChain p k r = s.collectMergeChain k r := by
  cases s with
  | memtable m => rfl
  | table f =>
    rw [probeChain]
    split_ifs with h
    · rfl
    · rw [collectMergeChain, LiveSst.visible_of_not_mayContain h, take_nil]

theorem probeVisit_eq : probeVisit p k r = lookupVisit k r := by
  funext maxRtSeq u s
  cases s with
  | memtable m => rfl
  | table f =>
    rw [probeVisit, LiveSst.probe_eq]
    rfl

variable {view : ReadView}

theorem ReadView.lookupInViewFiltered_eq :
    view.lookupInViewFiltered p k r = view.lookupInView k r := by
  rw [lookupInViewFiltered, probeVisit_eq]
  rfl

theorem ReadView.getWithMergeFiltered_eq (op : MergeOperator) :
    view.getWithMergeFiltered p k r op = view.getWithMerge k r op := by
  simp only [getWithMergeFiltered, probeChain_eq, getWithMerge, mergeChainInView]
  rfl

end Filter

section Reference

variable (es : List Entry) (ts : List RangeTombstone) (k : Key) (r : Seq)

/-- A range tombstone that is visible and newer than the entry covers the key. -/
def HiddenAt (e : Entry) : Prop := ∃ t ∈ ts, e.seq < t.seq ∧ t.seq ≤ r ∧ t.Covers k

instance (e : Entry) : Decidable (HiddenAt ts k r e) := inferInstanceAs (Decidable (∃ t ∈ ts, _))

/-- The entries of the key at or below `r`, by sequence from the largest. -/
def versionsOf : List Entry :=
  (es.filter fun e => decide (e.userKey = k ∧ e.seq ≤ r)).insertionSort fun a b => b.seq ≤ a.seq

/-- The versions above the first that is hidden. -/
def referenceChain : List Entry :=
  (versionsOf es k r).takeWhile fun e => !decide (HiddenAt ts k r e)

/-- The versions a read is decided by: the operands, and what they are folded onto. -/
def decidingChain : List Entry :=
  (referenceChain es ts k r).take (leadingOperands (referenceChain es ts k r) + 1)

def referenceLookup : Option Value := (referenceChain es ts k r).head?.bind Entry.answer

def referenceGet (op : MergeOperator) : Except ReadError (Option Value) :=
  resolve op k (decidingChain es ts k r)

/-- A version that decides the read has the sequence of a tombstone over the key. -/
def ChainTied : Prop :=
  ∃ e ∈ decidingChain es ts k r, e.valueType ≠ .deletion ∧ ∃ t ∈ ts, t.seq = e.seq ∧ t.Covers k

instance : Decidable (ChainTied es ts k r) :=
  inferInstanceAs (Decidable (∃ e ∈ decidingChain es ts k r, _))

end Reference

namespace ReadView

variable (view : ReadView)

def allEntries : List Entry := view.sources.flatMap entries

def allTombstones : List RangeTombstone := view.sources.flatMap tombstones

variable {view} {k : Key} {r : Seq}

theorem LsmOrdered.versionsOf_eq (h : view.LsmOrdered) :
    versionsOf view.allEntries k r = view.visible k r := by
  have hv : view.allEntries.filter (fun e => decide (e.userKey = k ∧ e.seq ≤ r)) =
      view.visible k r := by
    rw [allEntries, filter_flatMap, visible]
    refine flatMap_congr fun s _ => ?_
    rw [Source.visible, entriesOf, filter_filter]
    simp only [Bool.decide_and, Bool.and_comm]
  rw [versionsOf, hv]
  exact (h.visible_descending.imp fun hlt => hlt.le).insertionSort_eq

theorem hiddenAt_iff : HiddenAt view.allTombstones k r e ↔ e.seq < view.coveringSeq k r := by
  rw [lt_coveringSeq]
  simp only [HiddenAt, allTombstones, mem_flatMap]
  exact ⟨fun ⟨t, ⟨s, hs, ht⟩, hlt, hle, hk⟩ => ⟨s, hs, t, ht, hle, hk, hlt⟩,
    fun ⟨s, hs, t, ht, hle, hk, hlt⟩ => ⟨t, ⟨s, hs, ht⟩, hlt, hle, hk⟩⟩

theorem LsmOrdered.referenceChain_eq (h : view.LsmOrdered) :
    referenceChain view.allEntries view.allTombstones k r =
      (view.visible k r).takeWhile fun e => decide (view.coveringSeq k r ≤ e.seq) := by
  rw [referenceChain, h.versionsOf_eq]
  congr 1
  funext e
  rw [← decide_not, decide_eq_decide, hiddenAt_iff, not_lt]

end ReadView

section Chains

variable {op : MergeOperator} {k : Key}

theorem resolve_take_leadingOperands (chain : List Entry) :
    resolve op k (chain.take (leadingOperands chain + 1)) = resolve op k chain := by
  rcases chain_cases chain with h | ⟨operands, last, rest, rfl, h, hl⟩
  · rw [leadingOperands_of_merges h, take_of_length_le (Nat.le_succ _)]
  · rw [leadingOperands_append h hl, take_length_add_append, take_succ_cons, take_zero]
    exact resolve_cut hl operands [] rest

theorem takeWhile_le_cases {rt : Seq} {es : List Entry} (h : es.Pairwise fun a b => b.seq < a.seq) :
    es.takeWhile (fun e => decide (rt ≤ e.seq)) = es.takeWhile (fun e => decide (rt < e.seq)) ∨ ∃ e
    ∈ es, e.seq = rt ∧ es.takeWhile (fun e => decide (rt ≤ e.seq)) =
      es.takeWhile (fun e => decide (rt < e.seq)) ++ [e] := by
  induction es with
  | nil => exact .inl rfl
  | cons e es ih =>
    obtain ⟨hh, htail⟩ := pairwise_cons.mp h
    rcases lt_trichotomy rt e.seq with hlt | heq | hgt
    · rw [takeWhile_cons_of_pos (by simpa using hlt.le), takeWhile_cons_of_pos (by simpa using hlt)]
      rcases ih htail with heq | ⟨last, hl, hseq, heq⟩
      · exact .inl (congrArg _ heq)
      · exact .inr ⟨last, mem_cons_of_mem e hl, hseq, congrArg _ heq⟩
    · refine .inr ⟨e, mem_cons_self, heq.symm, ?_⟩
      have hnil : es.takeWhile (fun e => decide (rt ≤ e.seq)) = [] := by
        cases es with
        | nil => rfl
        | cons next es =>
          have hn := hh next mem_cons_self
          rw [← heq] at hn
          exact takeWhile_cons_of_neg (by simpa using hn)
      rw [takeWhile_cons_of_pos (by simpa using heq.le), hnil,
        takeWhile_cons_of_neg (by simpa using heq.ge), nil_append]
    · rw [takeWhile_cons_of_neg (by simpa using hgt), takeWhile_cons_of_neg (by simpa using hgt.le)]
      exact .inl rfl

/-- Tells apart how many operands it folds, and whether there was a base. -/
def tellingOperator : MergeOperator where
  fullMerge _ base operands :=
    some (List.replicate (2 * operands.length + if base.isSome then 1 else 0) 0)
  partialMerge _ _ _ := none

theorem resolve_telling_ne (k : Key) {chain : List Entry}
    (hc : ∀ e ∈ chain, e.valueType = .merge) (he : e.valueType ≠ .deletion) :
    resolve tellingOperator k (chain ++ [e]) ≠ resolve tellingOperator k chain := by
  have hnil := chainBase_append hc []
  have hnil' := chainOperands_append hc []
  rw [append_nil] at hnil hnil'
  rw [resolve_eq, resolve_eq, chainBase_append hc, chainOperands_append hc, hnil, hnil']
  cases hvt : e.valueType with
  | deletion => exact absurd hvt he
  | value =>
    have hm : e.valueType ≠ .merge := by simp [hvt]
    rw [chainBase_cons hm, chainOperands_cons hm]
    simp only [foldOnto, chainBase, chainOperands, baseOf, hvt, if_pos, nil_append,
      tellingOperator, length_reverse, length_map]
    by_cases hemp : chain = []
    · simp [hemp, leadingOperands]
    · simp [hemp, leadingOperands]
  | merge =>
    have hsingle : ∀ x ∈ [e], x.valueType = .merge := by simpa using hvt
    have hone := leadingOperands_of_merges hsingle
    simp only [foldOnto, chainBase, chainOperands, hone, baseOf, tellingOperator]
    by_cases hemp : chain = []
    · simp [hemp, leadingOperands]
    · have hlt : 2 * chain.length < 2 * (chain.length + 1) := by omega
      simp [hemp, leadingOperands, hlt.ne']

end Chains

namespace ReadView

variable {view : ReadView} {k : Key} {r : Seq}

theorem coveringSeq_lt {q : Seq} : view.coveringSeq k r < q ↔
    0 < q ∧ ∀ s ∈ view.sources, ∀ t ∈ s.tombstones, t.seq ≤ r → t.Covers k → t.seq < q := by
  rw [coveringSeq, raise_lt]
  refine and_congr_right fun hpos => forall₂_congr fun s _ => ?_
  rw [coveringRangeTombstoneSeq_lt, and_iff_right hpos]

theorem exists_coveringSeq (hpos : 0 < view.coveringSeq k r) :
    ∃ t ∈ view.allTombstones, t.seq = view.coveringSeq k r ∧ t.Covers k := by
  have hnot := mt coveringSeq_lt.mpr (lt_irrefl (view.coveringSeq k r))
  simp only [hpos, true_and, not_forall, not_lt] at hnot
  obtain ⟨s, hs, t, ht, hle, hk, hge⟩ := hnot
  refine ⟨t, mem_flatMap.mpr ⟨s, hs, ht⟩, le_antisymm ?_ hge, hk⟩
  exact coveringSeq_le.mp le_rfl s hs t ht hle hk

def above (view : ReadView) (k : Key) (r : Seq) : List Entry :=
  (view.visible k r).takeWhile fun e => decide (view.coveringSeq k r < e.seq)

variable (h : view.LsmOrdered)

include h

theorem LsmOrdered.referenceChain_cases : referenceChain view.allEntries
    view.allTombstones k r = view.above k r ∨ ∃ e ∈ view.visible k r, e.seq = view.coveringSeq k r ∧
      referenceChain view.allEntries view.allTombstones k r = view.above k r ++ [e] := by
  rw [h.referenceChain_eq]
  exact takeWhile_le_cases h.visible_descending

omit h in
theorem not_mem_above (he : e.seq = view.coveringSeq k r) : e ∉ view.above k r := by
  intro hmem
  have hlt := of_decide_eq_true (all_eq_true.mp all_takeWhile e hmem)
  exact hlt.ne he.symm

theorem LsmOrdered.chainTied_iff : ChainTied view.allEntries view.allTombstones k r ↔ ∃ e,
      referenceChain view.allEntries view.allTombstones k r = view.above k r ++ [e] ∧
      (∀ a ∈ view.above k r, a.valueType = .merge) ∧ e.valueType ≠ .deletion := by
  constructor
  · rintro ⟨e, he, hvt, t, ht, hseq, hk⟩
    obtain ⟨s, hs, ht⟩ := mem_flatMap.mp ht
    have hc : e ∈ referenceChain view.allEntries view.allTombstones k r :=
      (take_sublist _ _).subset he
    have heq : e.seq = view.coveringSeq k r := by
      rw [h.referenceChain_eq] at hc
      have hge := of_decide_eq_true (all_eq_true.mp all_takeWhile e hc)
      have hr := (mem_visible.mp ((takeWhile_sublist _).subset hc)).2.2
      exact le_antisymm (hseq ▸ coveringSeq_le.mp le_rfl s hs t ht (hseq ▸ hr) hk) hge
    rcases h.referenceChain_cases with hsame | ⟨last, -, -, hl⟩
    · exact absurd (hsame ▸ hc) (not_mem_above heq)
    · rw [hl] at hc
      obtain rfl : e = last :=
        mem_singleton.mp ((mem_append.mp hc).resolve_left (not_mem_above heq))
      refine ⟨e, hl, ?_, hvt⟩
      rcases chain_cases (view.above k r) with hall | ⟨operands, mid, rest, habv, hops, hmid⟩
      · exact hall
      · -- the deciding versions end above the tombstone
        refine absurd ?_ (not_mem_above heq)
        rw [decidingChain, hl, habv, append_assoc, cons_append,
          leadingOperands_append hops hmid, take_length_add_append, take_succ_cons,
          take_zero] at he
        rw [habv]
        refine (List.Sublist.append (List.Sublist.refl operands) ?_).subset he
        exact List.Sublist.cons_cons mid (nil_sublist rest)
  · rintro ⟨e, hc, hall, hvt⟩
    rcases h.referenceChain_cases with hsame | ⟨last, hmem, heq, hl⟩
    · have hlen := congrArg List.length (hsame.symm.trans hc)
      simp at hlen
    · obtain rfl : last = e := by simpa using hl.symm.trans hc
      obtain ⟨⟨s, hs, hes⟩, -, -⟩ := mem_visible.mp hmem
      obtain ⟨t, ht, hseq, hk⟩ := exists_coveringSeq (heq ▸ h.pos s hs last hes)
      refine ⟨last, ?_, hvt, t, ht, hseq.trans heq.symm, hk⟩
      rw [decidingChain, hc, leadingOperands_append_merges hall, Nat.add_assoc,
        take_length_add_append]
      exact mem_append_right _ (by simp)

/-- The read folds the versions above the newest tombstone; the reference the one at it too. -/
theorem LsmOrdered.getWithMerge_eq_reference_iff : (∀ op, view.getWithMerge k r op =
      referenceGet view.allEntries view.allTombstones k r op) ↔
      ¬ ChainTied view.allEntries view.allTombstones k r := by
  simp only [h.getWithMerge_eq, referenceGet, decidingChain, resolve_take_leadingOperands]
  rw [h.chainTied_iff]
  constructor
  · rintro hall ⟨e, hc, hmerges, hvt⟩
    refine resolve_telling_ne k hmerges hvt ?_
    rw [← hc]
    exact (hall tellingOperator).symm
  · intro hnot op
    rcases h.referenceChain_cases with hs | ⟨last, -, -, hl⟩
    · rw [hs]
      rfl
    · rw [hl]
      change resolve op k (view.above k r) = _
      rcases chain_cases (view.above k r) with hall | ⟨operands, mid, rest, habv, hops, hmid⟩
      · have hdeletion : last.valueType = .deletion := by
          by_contra hvt
          exact hnot ⟨last, hl, hall, hvt⟩
        exact (resolve_append_deletion hdeletion).symm
      · rw [habv, append_assoc, cons_append]
        exact resolve_cut hmid operands rest (rest ++ [last])

/-- Without a tie the read is the reference. -/
theorem LsmOrdered.lookupInView_eq_reference
    (hnot : ¬ ChainTied view.allEntries view.allTombstones k r)
    (hp : ∀ e ∈ decidingChain view.allEntries view.allTombstones k r, e.valueType ≠ .merge) :
    view.lookupInView k r = referenceLookup view.allEntries view.allTombstones k r := by
  have hc := h.referenceChain_eq (k := k) (r := r)
  cases hv : view.visible k r with
  | nil =>
    rw [hv, takeWhile_nil] at hc
    rw [h.lookupInView_of_nil hv, referenceLookup, hc]
    rfl
  | cons e es =>
    rw [hv] at hc
    by_cases hle : view.coveringSeq k r ≤ e.seq
    · rw [takeWhile_cons_of_pos (by simpa using hle)] at hc
      have hdecides : e ∈ decidingChain view.allEntries view.allTombstones k r := by
        rw [decidingChain, hc, take_succ_cons]
        exact mem_cons_self
      rw [h.lookupInView_of_cons hv (hp e hdecides), referenceLookup, hc]
      rcases lt_or_eq_of_le hle with hlt | heq
      · rw [if_pos hlt]
        rfl
      · rw [if_neg heq.not_lt]
        have hdeletion : e.valueType = .deletion := by
          by_contra hvt
          obtain ⟨⟨s, hs, hes⟩, -, -⟩ := mem_visible.mp (hv ▸ mem_cons_self)
          obtain ⟨t, ht, hseq, hk⟩ := exists_coveringSeq (heq ▸ h.pos s hs e hes)
          exact hnot ⟨e, hdecides, hvt, t, ht, hseq.trans heq, hk⟩
        simp [Entry.answer, hdeletion]
    · rw [takeWhile_cons_of_neg (by simpa using hle)] at hc
      rw [h.lookupInView_eq, referenceLookup, hc]
      -- what answers is no newer than the newest version
      have hsub : (view.answering k r).Sublist (e :: es) := hv ▸ answering_sublist
      have hd := h.visible_descending (k := k) (r := r)
      rw [hv] at hd
      cases hanswering : view.answering k r with
      | nil => rfl
      | cons a as =>
        have hmem : a ∈ e :: es := hsub.subset (hanswering ▸ mem_cons_self)
        have hge : a.seq ≤ e.seq := by
          rcases mem_cons.mp hmem with rfl | hmem
          · exact le_rfl
          · exact ((pairwise_cons.mp hd).1 a hmem).le
        exact if_neg (not_lt.mpr (hge.trans (not_le.mp hle).le))

end ReadView

/-- A point read of a view in order, through the filters of its tables, gives what the entries and
the range tombstones of the view say, with every operator and, where no operand decides it,
without one, exactly when no version that decides the read has the sequence of a tombstone over
the key. -/
theorem pointRead_eq_reference_iff {view : ReadView} (h : view.LsmOrdered)
    (k : Key) (r : Seq) : ((∀ op, view.getWithMergeFiltered p k r op =
        referenceGet view.allEntries view.allTombstones k r op) ∧
      ((∀ e ∈ decidingChain view.allEntries view.allTombstones k r, e.valueType ≠ .merge) →
        view.lookupInViewFiltered p k r =
          referenceLookup view.allEntries view.allTombstones k r)) ↔
      ¬ ChainTied view.allEntries view.allTombstones k r := by
  simp only [ReadView.getWithMergeFiltered_eq, ReadView.lookupInViewFiltered_eq]
  rw [h.getWithMerge_eq_reference_iff]
  exact ⟨And.left, fun hnot => ⟨hnot, h.lookupInView_eq_reference hnot⟩⟩

/-- A table whose tombstone is newer than its first entry and older than its second. -/
def coveredTable : LiveSst :=
  ⟨5, ⟨1, [0], [4], 100, 2, none, none⟩,
    ⟨[⟨[1], 2, .value, [7]⟩, ⟨[2], 5, .value, [8]⟩], .fromVec [⟨[0], [4], 3⟩]⟩⟩

/-- An ingested table: its entry and its tombstone read at one sequence. -/
def ingestedTable : LiveSst :=
  ⟨6, ⟨2, [0], [4], 100, 1, some 6, none⟩, ⟨[⟨[1], 6, .value, [9]⟩], .fromVec [⟨[0], [4], 6⟩]⟩⟩

def viewOf (files : List LiveSst) : ReadView :=
  ⟨⟨0, [⟨[2], 7, .merge, [1]⟩], [], none, none⟩, [], .levelZero files 7⟩

theorem viewOf_covered_ordered : (viewOf [coveredTable]).LsmOrdered :=
  ⟨Version.wellFormed_levelZero (by simpa using LiveSst.sound_of_bounds (by decide)) (by decide),
    by decide, by decide, by decide, by decide⟩

theorem viewOf_ingested_ordered : (viewOf [coveredTable, ingestedTable]).LsmOrdered :=
  ⟨Version.wellFormed_levelZero (by
      simpa using ⟨LiveSst.sound_of_bounds (by decide), LiveSst.sound_of_bounds (by decide)⟩)
    (by decide), by decide, by decide, by decide, by decide⟩

def plainFilters : FilterParams := ⟨fun k => UInt64.ofNat k.length, fun _ => 6, fun _ => 10⟩

/-- A key covered between two of its versions. -/
theorem pointRead_eq_reference_iff_covered : (viewOf [coveredTable]).LsmOrdered ∧ ¬ ChainTied
    (viewOf [coveredTable]).allEntries (viewOf [coveredTable]).allTombstones [2] 7 ∧
    (∀ op, (viewOf [coveredTable]).getWithMergeFiltered plainFilters [2] 7 op = referenceGet
      (viewOf [coveredTable]).allEntries (viewOf [coveredTable]).allTombstones [2] 7 op) := by
  have hnot : ¬ ChainTied (viewOf [coveredTable]).allEntries
      (viewOf [coveredTable]).allTombstones [2] 7 := by decide +kernel
  exact ⟨viewOf_covered_ordered, hnot,
    ((pointRead_eq_reference_iff plainFilters viewOf_covered_ordered [2] 7).mpr hnot).1⟩

/-- The entry of an ingested table is hidden by the tombstone of the same table. -/
theorem pointRead_ingested_hidden : (viewOf [coveredTable, ingestedTable]).LsmOrdered ∧
    (viewOf [coveredTable, ingestedTable]).lookupInViewFiltered plainFilters [1] 7 = none ∧
    (∀ e ∈ decidingChain (viewOf [coveredTable, ingestedTable]).allEntries
      (viewOf [coveredTable, ingestedTable]).allTombstones [1] 7, e.valueType ≠ .merge) ∧
    referenceLookup (viewOf [coveredTable, ingestedTable]).allEntries
      (viewOf [coveredTable, ingestedTable]).allTombstones [1] 7 = some [9] :=
  ⟨viewOf_ingested_ordered, by decide +kernel, by decide +kernel, by decide +kernel⟩

end RegolithStore
