import RegolithStore.Commit.Serializable

/-! Validation ahead of the pipeline (`early.rs`). A transaction samples the read horizon,
loads a view and checks every item of its commit against it; deciding its slot then looks
only at what landed above the horizon. A lookup that misses the cache ends an attempt, which
the next one resumes on a newer view, at the item that missed and with the horizon of the
first. -/

namespace RegolithStore

open Lib

/-- Records marks; none are kept while every item is clean. -/
structure Marker where
  marks : List Mark
  total : Nat
  /-- An item before is dirty, or a put to an exempt key, which a later write can still turn
  into a refusal. -/
  dirtyBefore : Bool

namespace Marker

def set (m : Marker) (index : Nat) (mark : Mark) : Marker :=
  if mark = .clean then m
  else
    { m with
      marks := (if m.marks.isEmpty then List.replicate m.total .clean else m.marks).set index mark
      dirtyBefore := m.dirtyBefore || decide (mark = .dirty) }

end Marker

/-- The completed first part of a check that missed: its horizon, and the item it was at. -/
structure EarlyProgress where
  horizon : Seq
  index : Nat
  marker : Marker

inductive EarlyVerdict
  | conflict (conflict : Conflict)
  | marks (early : Early)

inductive EarlyStop
  | conflict (conflict : Conflict)
  | cold (index : Nat) (marker : Marker)

section Items

-- `cold` says which items' lookups miss in this attempt
variable (checks : ValidationSet) (ops : List WriteBatchOp) (view : ReadView) (cold : Nat → Bool)
  (horizon : Seq)

def earlyReads : Nat → List ConflictKey → Marker → Except EarlyStop Marker
  | _, [], marker => .ok marker
  | index, check :: rest, marker =>
    if horizon ≤ check.observedSeq then earlyReads (index + 1) rest marker
    else if cold index then .error (.cold index marker)
    else match view.latestVersionAfter check.key check.observedSeq with
      | none => earlyReads (index + 1) rest marker
      | some (seq, theirs) =>
        if seq ≤ check.observedSeq then earlyReads (index + 1) rest marker
        -- a read by sequence conflicts with any newer version, whatever lands later
        else if check.rule = .seq ∧ check.presenceOnly = false ∧ marker.dirtyBefore = false then
          .error (.conflict ⟨check.key, check.access, theirs, check.observedSeq, seq⟩)
        else earlyReads (index + 1) rest (marker.set index .dirty)

def earlyRanges : Nat → List RangeCheck → Marker → Except EarlyStop Marker
  | _, [], marker => .ok marker
  | index, range :: rest, marker =>
    if horizon ≤ range.observedSeq then earlyRanges (index + 1) rest marker
    else if cold index then .error (.cold index marker)
    else match view.writtenInRange range.lo range.hi range.observedSeq with
      | none => earlyRanges (index + 1) rest marker
      | some (key, seq, theirs) =>
        if marker.dirtyBefore then earlyRanges (index + 1) rest (marker.set index .dirty)
        else .error (.conflict ⟨key, .scannedRange, theirs, range.observedSeq, seq⟩)

def earlyWrite (observedSeq : Seq) (index : Nat) (key : Key) (mine : Access) (marker : Marker) :
    Except EarlyStop Marker :=
  if key ∈ checks.exempt then
    if mine = .put then
      if cold index then .error (.cold index marker)
      else
        let marker := if view.landedAboveHorizon key observedSeq false then
          marker.set index .dirty else marker
        .ok { marker with dirtyBefore := true }
    else .ok marker
  else if checks.readStandsFor key then .ok marker
  else if cold index then .error (.cold index marker)
  else if checks.blind ops mine key then
    match view.landedAbove key observedSeq with
    | .nothing => .ok marker
    | .operands => .ok (marker.set index .commuted)
    | .replaced seq kind =>
      if marker.dirtyBefore then .ok (marker.set index .dirty)
      else .error (.conflict ⟨key, mine, kind, observedSeq, seq⟩)
  else if view.landedAboveHorizon key observedSeq false then .ok (marker.set index .dirty)
  else .ok marker

def earlyOps (observedSeq : Seq) :
    Nat → Option Key → List WriteBatchOp → Marker → Except EarlyStop Marker
  | _, _, [], marker => .ok marker
  | index, lastMerged, .put key _ :: rest, marker => do
    let marker ← earlyWrite checks ops view cold observedSeq index key .put marker
    earlyOps observedSeq (index + 1) lastMerged rest marker
  | index, lastMerged, .delete key :: rest, marker => do
    let marker ← earlyWrite checks ops view cold observedSeq index key .delete marker
    earlyOps observedSeq (index + 1) lastMerged rest marker
  | index, lastMerged, .merge key _ :: rest, marker =>
    if lastMerged = some key then earlyOps observedSeq (index + 1) lastMerged rest marker
    else do
      let marker ← earlyWrite checks ops view cold observedSeq index key .merge marker
      earlyOps observedSeq (index + 1) (some key) rest marker
  | index, lastMerged, .deleteRange .. :: rest, marker =>
    earlyOps observedSeq (index + 1) lastMerged rest marker

def earlyItems (index : Nat) (marker : Marker) : Except EarlyStop Marker := do
  let reads := checks.reads.length
  let ranges := checks.ranges.length
  let marker ← earlyReads view cold horizon index (checks.reads.drop index) marker
  let marker ← earlyRanges view cold horizon (reads + (index - reads))
    (checks.ranges.drop (index - reads)) marker
  match checks.writesAt with
  | none => return marker
  | some observedSeq =>
    if observedSeq < horizon then
      earlyOps checks ops view cold observedSeq (reads + ranges + (index - (reads + ranges))) none
        (ops.drop (index - (reads + ranges))) marker
    else return marker

end Items

section Attempts

variable (checks : ValidationSet) (ops : List WriteBatchOp)

def observedAtHorizon (horizon : Seq) : Bool :=
  (checks.reads.all fun r => decide (horizon ≤ r.observedSeq)) &&
  (checks.ranges.all fun r => decide (horizon ≤ r.observedSeq)) &&
  (ops.isEmpty || checks.writesAt.all fun observed => decide (horizon ≤ observed))

/-- `check_early_with_progress`: the error is a miss, with what it retains. -/
def checkEarlyWithProgress (visible : Seq) (view : ReadView) (cold : Nat → Bool)
    (progress : Option EarlyProgress) : Except EarlyProgress EarlyVerdict :=
  let horizon := (progress.map EarlyProgress.horizon).getD visible
  if progress.isNone && observedAtHorizon checks ops horizon then .ok (.marks ⟨horizon, []⟩)
  else
    let start := progress.getD
      ⟨horizon, 0, ⟨[], checks.items ops, false⟩⟩
    match earlyItems checks ops view cold horizon start.index start.marker with
    | .ok marker => .ok (.marks ⟨horizon, marker.marks⟩)
    | .error (.conflict conflict) => .ok (.conflict conflict)
    | .error (.cold index marker) => .error ⟨horizon, index, marker⟩

/-- The attempts one after the other, each on the view it loads, until one completes. -/
def checkEarlyAttempts (visible : Seq) : Option EarlyProgress → List (ReadView × (Nat → Bool)) →
    Option EarlyVerdict
  | _, [] => none
  | progress, (view, cold) :: rest =>
    match checkEarlyWithProgress checks ops visible view cold progress with
    | .ok verdict => some verdict
    | .error progress => checkEarlyAttempts visible (some progress) rest

end Attempts

namespace ReadView

def HasEntry (view : ReadView) (e : Entry) : Prop := ∃ s ∈ view.sources, e ∈ s.entries

/-- A tombstone over `k` at that sequence; which part of the range it names is not asked, as
a compaction cuts tombstones at the tables it writes. -/
def HasTombstone (view : ReadView) (k : Key) (seq : Seq) : Prop :=
  ∃ s ∈ view.sources, ∃ t ∈ s.tombstones, t.Covers k ∧ t.seq = seq

/-- The later view holds every version of the earlier one, and of the versions at or below
the horizon no others. -/
structure Extends (later earlier : ReadView) (horizon : Seq) : Prop where
  entry : ∀ {e}, earlier.HasEntry e → later.HasEntry e
  tombstone : ∀ {k seq}, earlier.HasTombstone k seq → later.HasTombstone k seq
  entry_old : ∀ {e}, later.HasEntry e → e.seq ≤ horizon → earlier.HasEntry e
  tombstone_old : ∀ {k seq}, later.HasTombstone k seq → seq ≤ horizon → earlier.HasTombstone k seq

variable {view later : ReadView} {k : Key} {lo hi horizon : Seq} {floor : Seq}

theorem touched_iff_has : view.Touched k lo hi ↔
    (∃ e, view.HasEntry e ∧ e.userKey = k ∧ lo < e.seq ∧ e.seq ≤ hi) ∨
      ∃ seq, view.HasTombstone k seq ∧ lo < seq ∧ seq ≤ hi := by
  constructor
  · rintro ⟨s, hs, ⟨e, he, hk, hseq⟩ | ⟨t, ht, hk, hseq⟩⟩
    · exact .inl ⟨e, ⟨s, hs, he⟩, hk, hseq⟩
    · exact .inr ⟨t.seq, ⟨s, hs, t, ht, hk, rfl⟩, hseq⟩
  · rintro (⟨e, ⟨s, hs, he⟩, hk, hseq⟩ | ⟨_, ⟨s, hs, t, ht, hk, rfl⟩, hseq⟩)
    · exact ⟨s, hs, .inl ⟨e, he, hk, hseq⟩⟩
    · exact ⟨s, hs, .inr ⟨t, ht, hk, hseq⟩⟩

theorem replacedAbove_iff_has : ReplacedAbove floor (view.coveringSeq k ⊤)
    (view.visible k ⊤) ↔ (∃ seq, view.HasTombstone k seq ∧ floor < seq) ∨
      ∃ e, view.HasEntry e ∧ e.userKey = k ∧ e.valueType ≠ .merge ∧ floor < e.seq := by
  simp only [ReplacedAbove, lt_coveringSeq, mem_visible, HasTombstone, HasEntry]
  refine or_congr ⟨?_, ?_⟩ ⟨?_, ?_⟩
  · rintro ⟨s, hs, t, ht, -, hk, hlt⟩
    exact ⟨_, ⟨s, hs, t, ht, hk, rfl⟩, hlt⟩
  · rintro ⟨_, ⟨s, hs, t, ht, hk, rfl⟩, hlt⟩
    exact ⟨s, hs, t, ht, le_top, hk, hlt⟩
  · rintro ⟨e, ⟨he, hk, -⟩, hr⟩
    exact ⟨e, he, hk, hr⟩
  · rintro ⟨e, he, hk, hr⟩
    exact ⟨e, ⟨he, hk, le_top⟩, hr⟩

variable (h : later.Extends view horizon)

include h

theorem Extends.touched (ht : view.Touched k lo hi) :
    later.Touched k lo hi := by
  rw [touched_iff_has] at ht ⊢
  exact ht.imp (fun ⟨e, he, hr⟩ => ⟨e, h.entry he, hr⟩) fun ⟨q, hq, hr⟩ => ⟨q, h.tombstone hq, hr⟩

theorem Extends.touched_old (hhi : hi ≤ horizon)
    (ht : later.Touched k lo hi) : view.Touched k lo hi := by
  rw [touched_iff_has] at ht ⊢
  exact ht.imp (fun ⟨e, he, hk, hlt, hle⟩ => ⟨e, h.entry_old he (hle.trans hhi), hk, hlt, hle⟩)
    fun ⟨q, hq, hlt, hle⟩ => ⟨q, h.tombstone_old hq (hle.trans hhi), hlt, hle⟩

theorem Extends.replacedAbove (hrep : ReplacedAbove floor (view.coveringSeq k ⊤) (view.visible k ⊤))
    : ReplacedAbove floor (later.coveringSeq k ⊤) (later.visible k ⊤) := by
  rw [replacedAbove_iff_has] at hrep ⊢
  exact hrep.imp (fun ⟨q, hq, hlt⟩ => ⟨q, h.tombstone hq, hlt⟩)
    fun ⟨e, he, hr⟩ => ⟨e, h.entry he, hr⟩

omit h

theorem Extends.of_active {m : MemTable} (hsub : view.active.entries ⊆ m.entries)
    (hold : ∀ e ∈ m.entries, e.seq ≤ horizon → e ∈ view.active.entries)
    (htsub : view.active.rangeTombstones ⊆ m.rangeTombstones)
    (htold : ∀ t ∈ m.rangeTombstones, t.seq ≤ horizon → t ∈ view.active.rangeTombstones) :
    ({ view with active := m } : ReadView).Extends view horizon := by
  have hmem : ∀ {s u : Source} {rest : List Source} {p : Source → Prop},
      (∃ x ∈ s :: rest, p x) → (p s → p u) → ∃ x ∈ u :: rest, p x := by
    rintro s u rest p ⟨x, hx, hp⟩ himp
    rcases List.mem_cons.mp hx with rfl | hx
    · exact ⟨u, List.mem_cons_self, himp hp⟩
    · exact ⟨x, List.mem_cons_of_mem _ hx, hp⟩
  exact {
    entry := fun he => hmem he fun h => hsub h
    tombstone := fun ht => hmem ht fun ⟨t, ht, hk⟩ => ⟨t, htsub ht, hk⟩
    entry_old := fun he hle => hmem he fun h => hold _ h hle
    tombstone_old := fun ht hle => hmem ht fun ⟨t, ht, hk, hseq⟩ =>
      ⟨t, htold t ht (hseq ▸ hle), hk, hseq⟩ }

theorem Touched.mono (h : view.Touched k lo hi) {hi' : Seq} (hle : hi ≤ hi') :
    view.Touched k lo hi' := by
  obtain ⟨s, hs, ⟨e, he, hk, hlt, hseq⟩ | ⟨t, ht, hk, hlt, hseq⟩⟩ := h
  · exact ⟨s, hs, .inl ⟨e, he, hk, hlt, hseq.trans hle⟩⟩
  · exact ⟨s, hs, .inr ⟨t, ht, hk, hlt, hseq.trans hle⟩⟩

theorem not_touched_of_le (hle : hi ≤ lo) : ¬ view.Touched k lo hi := by
  rintro ⟨s, hs, ⟨e, -, -, hlt, hseq⟩ | ⟨t, -, -, hlt, hseq⟩⟩
  · exact absurd (hseq.trans hle) hlt.not_ge
  · exact absurd (hseq.trans hle) hlt.not_ge

theorem touched_split (horizon : Seq) (h : view.Touched k lo hi) :
    view.Touched k lo horizon ∨ view.Touched k horizon hi := by
  obtain ⟨s, hs, ⟨e, he, hk, hlt, hseq⟩ | ⟨t, ht, hk, hlt, hseq⟩⟩ := h
  · rcases le_or_gt e.seq horizon with hle | hgt
    · exact .inl ⟨s, hs, .inl ⟨e, he, hk, hlt, hle⟩⟩
    · exact .inr ⟨s, hs, .inl ⟨e, he, hk, hgt, hseq⟩⟩
  · rcases le_or_gt t.seq horizon with hle | hgt
    · exact .inl ⟨s, hs, .inr ⟨t, ht, hk, hlt, hle⟩⟩
    · exact .inr ⟨s, hs, .inr ⟨t, ht, hk, hgt, hseq⟩⟩

theorem rangeTouched_iff (hp : view.TombstonesProper) {first last : Key} (hlt : first < last) :
    view.RangeTouched first last lo hi ↔ ∃ k, (first ≤ k ∧ k < last) ∧ view.Touched k lo hi := by
  constructor
  · rintro ⟨s, hs, ⟨e, he, hk, hseq⟩ | ⟨t, ht, hov, hseq⟩⟩
    · exact ⟨e.userKey, hk, s, hs, .inl ⟨e, he, rfl, hseq⟩⟩
    · refine ⟨max t.start first, ⟨le_max_right _ _, max_lt hov.1 hlt⟩, s, hs, .inr ⟨t, ht, ?_, hseq⟩⟩
      exact ⟨le_max_left _ _, max_lt (hp s hs t ht) hov.2⟩
  · rintro ⟨k, ⟨h1, h2⟩, s, hs, ⟨e, he, rfl, hseq⟩ | ⟨t, ht, hk, hseq⟩⟩
    · exact ⟨s, hs, .inl ⟨e, he, ⟨h1, h2⟩, hseq⟩⟩
    · exact ⟨s, hs, .inr ⟨t, ht, ⟨hk.1.trans_lt h2, h1.trans_lt hk.2⟩, hseq⟩⟩

end ReadView

end RegolithStore
