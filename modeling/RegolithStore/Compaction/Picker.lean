import RegolithStore.Compaction.Writer

/-! Which tables a pass takes (`compaction.rs`, `compaction/deletion.rs`): size-triggered,
deletion-triggered, manual over a range, a universal merge of L0 runs, and the resealing of one
table. The claim flags are an input, since a pass reads them one by one while others change them;
so is the share of a table's bytes inside a range, which comes from its block index. -/

namespace RegolithStore

open Lib List

variable {v : Version} {held : LiveSst → LiveSst → Bool} {level : Nat} {f : LiveSst} {job : Job}
  {files : List LiveSst} {oldestLive : Seq} {fs : List LiveSst}

/-- The hull of the tables' key ranges; the source is given at least one table. -/
def keyRange : List LiveSst → Option (Key × Key)
  | [] => none
  | f :: fs => some (fs.foldl (fun range g =>
      (if g.smallest < range.1 then g.smallest else range.1,
        if range.2 < g.largest then g.largest else range.2)) (f.smallest, f.largest))

def fileOverlapsRange (f : LiveSst) (start stop : Option Key) : Bool :=
  !(start.any fun s => decide (f.largest < s)) && !(stop.any fun e => decide (e ≤ f.smallest))

def picked (files : List LiveSst) (marks : List Bool) : List LiveSst :=
  ((files.zip marks).filter Prod.snd).map Prod.fst

/-- One round of `l0_inputs`: mark each table older than the newest picked that meets the
range of those marked. -/
def growL0 (files : List LiveSst) (newest : Nat) (marks : List Bool) : List Bool :=
  match keyRange (picked files marks) with
  | none => marks
  | some (minKey, maxKey) => (files.zip marks).mapIdx fun i p =>
      p.2 || decide (i < newest) &&
        fileOverlapsRange p.1 (some minKey) (some (succBytes maxKey))

def growUntilStable (grow : List Bool → List Bool) : Nat → List Bool → List Bool
  | 0, marks => marks
  | n + 1, marks =>
    if grow marks = marks then marks else growUntilStable grow n (grow marks)

/-- The L0 tables a compaction of `[start, stop)` pushes down. A round that goes on marks a
table, so as many rounds as there are tables reach the end of the source's loop. -/
def l0Inputs (files : List LiveSst) (start stop : Option Key) : List LiveSst :=
  let marks := files.map fun f => fileOverlapsRange f start stop
  match marks.reverse.idxOf? true with
  | none => []
  | some fromEnd =>
    picked files (growUntilStable (growL0 files (marks.length - 1 - fromEnd)) files.length marks)

inductive CompactionOutcome
  | didWork
  | contended
  | idle
  deriving DecidableEq

/-- All of L0, unless a table of it is held; deeper, the first table that is not. -/
def sizeInputs (v : Version) (held : LiveSst → Bool) (level : Nat) : Option (List LiveSst) :=
  if level = 0 then
    if (v.levels level).any held then none else some (v.levels level)
  else ((v.levels level).find? fun f => !held f).map fun f => [f]

def pickSize (v : Version) (held : LiveSst → Bool) (level : Nat) :
    Except CompactionOutcome Job :=
  let target := level + 1
  if maxLevels ≤ target then .error .idle
  else if v.levels level = [] then .error .idle
  else match sizeInputs v held level with
    | none => .error .contended
    | some inputs =>
      match keyRange inputs with
      | none => .error .idle
      | some (minKey, maxKey) =>
        let below := overlapping (v.levels target) minKey maxKey
        if below.any held then .error .contended else .ok ⟨level, target, inputs, below⟩

/-- How much of what a pass would read is dead. -/
structure Share where
  dead : Nat
  items : Nat
  deriving DecidableEq

def Share.mostlyDead (s : Share) : Bool := decide (s.items < s.dead * 2)

def Share.denserThan (s other : Share) : Bool := decide (other.dead * s.items < s.dead * other.items)

namespace LiveSst

def items (f : LiveSst) : Nat := f.metadata.numEntries.toNat + f.tombstones.length

/-- The entries a table's own deletions hide; none of a table not counted yet. -/
def hidden (f : LiveSst) : Nat := f.metadata.deletions.elim 0 fun d => d.dead.toNat

def points (f : LiveSst) : Nat := f.metadata.deletions.elim 0 fun d => d.points.toNat

def hasDeletions (f : LiveSst) : Bool := decide (0 < f.hidden) || !f.tombstones.isEmpty

/-- The newest sequence a deletion of the table can have. -/
def newestDeletion (f : LiveSst) : Seq :=
  (f.tombstones.map RangeTombstone.seq).foldl max
    (match f.metadata.deletions with
      | some d => d.newestSeq
      | none => f.metadata.globalSeq.getD 0)

end LiveSst

/-- No live snapshot is below a deletion any of the tables holds; `oldestLive` is
`u64::MAX` with none live. -/
def clearOfSnapshots (tables : List LiveSst) (oldestLive : Seq) : Bool :=
  tables.all fun f => !f.hasDeletions || decide (f.newestDeletion ≤ oldestLive)

/-- How much of a table the range tombstones of newer tables cover. -/
inductive Covered
  | whole
  | part (entries : Nat)

/-- `approximate_size_in_range`. -/
abbrev SizeInRange := LiveSst → Key → Key → Nat

variable {sizeIn : SizeInRange}

def coveredFromAbove (sizeIn : SizeInRange) (f : LiveSst) (live : Nat)
    (above : List (List LiveSst)) : Covered :=
  if above.flatten.any fun newer => newer.reader.rangeTombstones.coversWhole f.smallest f.largest then
    .whole
  else
    let spans := above.flatten.flatMap fun newer =>
      (newer.reader.rangeTombstones.clippedOverlaps f.smallest (succBytes f.largest)).map
        fun t => (t.start, t.stop)
    if spans = [] ∨ f.metadata.fileSize = 0 then .part 0
    else
      let bytes := ((joinRanges spans).map fun r => sizeIn f r.1 r.2).sum
      let size := f.metadata.fileSize.toNat
      .part (live * min bytes size / size)

structure ShareSum where
  all : Nat
  dead : Nat
  deletionsAbove : Nat
  hideable : Nat
  byPoints : Nat
  byRanges : Nat

namespace ShareSum

def addTable (sizeIn : SizeInRange) (above : List (List LiveSst)) (s : ShareSum) (f : LiveSst) :
    ShareSum :=
  let live := f.metadata.numEntries.toNat - f.hidden
  let s := { s with all := s.all + f.items, dead := s.dead + (f.items - live) }
  if above = [] then s
  else match coveredFromAbove sizeIn f live above with
    | .whole => { s with dead := s.dead + live }
    | .part covered =>
      { s with byRanges := s.byRanges + covered, hideable := s.hideable + (live - covered) }

def addLayer (sizeIn : SizeInRange) (above : List (List LiveSst)) (s : ShareSum)
    (layer : List LiveSst) : ShareSum :=
  let s := layer.foldl (addTable sizeIn above) s
  let s := if above = [] then s else { s with byPoints := min s.deletionsAbove s.hideable }
  { s with deletionsAbove := s.deletionsAbove + (layer.map LiveSst.points).sum }

/-- The layers after those `above`, newest first. -/
def addLayers (sizeIn : SizeInRange) : List (List LiveSst) → ShareSum → List (List LiveSst) → ShareSum
  | _, s, [] => s
  | above, s, layer :: layers =>
    addLayers sizeIn (above ++ [layer]) (addLayer sizeIn above s layer) layers

end ShareSum

/-- The dead share of a pass over `layers`, the newest layer first. -/
def share (sizeIn : SizeInRange) (layers : List (List LiveSst)) : Share :=
  let s := ShareSum.addLayers sizeIn [] ⟨0, 0, 0, 0, 0, 0⟩ layers
  ⟨s.dead + s.byPoints + s.byRanges, s.all⟩

/-- The tables that go down with `f`: at L0 those its range drags in. -/
def levelInputs (v : Version) (level : Nat) (f : LiveSst) : List LiveSst :=
  if level = 0 then l0Inputs (v.levels 0) (some f.smallest) (some (succBytes f.largest)) else [f]

/-- The pass that takes `f` of `level` down one level, or rewrites it at the bottom. -/
def levelJob (v : Version) (level : Nat) (f : LiveSst) : Job :=
  if level = maxLevels - 1 then ⟨level, level, [f], []⟩
  else ⟨level, level + 1, levelInputs v level f,
    (keyRange (levelInputs v level f)).elim [] fun range =>
      overlapping (v.levels (level + 1)) range.1 range.2⟩

/-- The share of a job: L0 tables are read newest first, a layer each. -/
def Job.share (sizeIn : SizeInRange) (job : Job) : Share :=
  RegolithStore.share sizeIn ((job.inputs.reverse.map fun f => [f]) ++ [job.below])

/-- Whether the pass that takes `f` down may run; `held` is what its flags are seen as. -/
def eligible (v : Version) (held : LiveSst → Bool) (oldestLive : Seq) (level : Nat) (f : LiveSst) :
    Bool :=
  f.hasDeletions && !held f && !(levelJob v level f).files.any held &&
    clearOfSnapshots (levelJob v level f).files oldestLive

/-- Keep the denser of the best pass so far and that of `f`. -/
def considerTable (v : Version) (held : LiveSst → LiveSst → Bool) (oldestLive : Seq)
    (sizeIn : SizeInRange) (level : Nat) (best : Option (Share × Job)) (f : LiveSst) :
    Option (Share × Job) :=
  if eligible v (held f) oldestLive level f then
    let job := levelJob v level f
    let s := job.share sizeIn
    if s.mostlyDead && (best.all fun b => s.denserThan b.1) then some (s, job) else best
  else best

/-- The densest qualifying pass of one level. The flags may be seen differently for each
candidate. -/
def pickInLevel (v : Version) (held : LiveSst → LiveSst → Bool) (oldestLive : Seq)
    (sizeIn : SizeInRange) (level : Nat) : Option Job :=
  ((v.levels level).foldl (considerTable v held oldestLive sizeIn level) none).map Prod.snd

/-- `pick_level`: the shallowest level that has a pass. -/
def pickLevel (v : Version) (held : LiveSst → LiveSst → Bool) (oldestLive : Seq)
    (sizeIn : SizeInRange) : Option Job :=
  (List.range maxLevels).findSome? (pickInLevel v held oldestLive sizeIn)

/-- What `run_compact_range` takes of a level: at L0 all the range drags in, deeper the first
table in the range. -/
def rangeInputs (v : Version) (level : Nat) (start stop : Option Key) : List LiveSst :=
  if level = 0 then l0Inputs (v.levels 0) start stop
  else ((v.levels level).find? fun f => fileOverlapsRange f start stop).toList

/-- The next pass of `run_compact_range` at one level; `none` when the level is done. -/
def pickRange (v : Version) (level : Nat) (start stop : Option Key) : Option Job :=
  (keyRange (rangeInputs v level start stop)).map fun range =>
    ⟨level, level + 1, rangeInputs v level start stop,
      overlapping (v.levels (level + 1)) range.1 range.2⟩

structure UniversalCompactionOptions where
  sizeRatio : UInt32
  minMergeWidth : UInt32
  maxMergeWidth : UInt32
  maxSizeAmplificationPercent : UInt32

/-- The loop of the size-ratio rule over the runs, newest first: take the next run while it
does not dwarf those taken. -/
def sizeRatioGroup (o : UniversalCompactionOptions) :
    List LiveSst → Nat → List LiveSst → List LiveSst
  | group, _, [] => group
  | group, groupSize, f :: fs =>
    if max o.maxMergeWidth.toNat 1 ≤ group.length then group
    else if group.isEmpty then sizeRatioGroup o [f] f.metadata.fileSize.toNat fs
    else if f.metadata.fileSize.toNat ≤ groupSize * (100 + o.sizeRatio.toNat) / 100 then
      sizeRatioGroup o (group ++ [f]) (groupSize + f.metadata.fileSize.toNat) fs
    else group

/-- The runs `pick_and_run_universal` merges: the newest by the size-ratio rule, or all of
them once the younger outweigh the oldest. -/
def pickUniversalSize (o : UniversalCompactionOptions) (v : Version) : Option (List LiveSst) :=
  let byAge := (v.levels 0).reverse
  if byAge.length < 2 then none
  else
    let group := sizeRatioGroup o [] 0 byAge
    if max o.minMergeWidth.toNat 2 ≤ group.length then some group
    else match v.levels 0 with
      | [] => none
      | oldest :: younger =>
        let oldestSize := oldest.metadata.fileSize.toNat
        if oldestSize = 0 then none
        else if o.maxSizeAmplificationPercent.toNat ≤
            (younger.map fun f => f.metadata.fileSize.toNat).sum * 100 / oldestSize then some byAge
        else none

/-- `pick_universal`: the shortest group of the newest runs that is mostly dead, or the only
run when nothing deeper holds a key of its range. -/
def pickUniversal (v : Version) (oldestLive : Seq) (sizeIn : SizeInRange) : Option (List LiveSst) :=
  let runs := v.levels 0
  if !runs.any LiveSst.hasDeletions then none
  else match runs with
    | [only] =>
      let alone := ((List.range maxLevels).drop 1).all fun level =>
        (overlapping (v.levels level) only.smallest only.largest).isEmpty
      if alone && (share sizeIn [[only]]).mostlyDead && clearOfSnapshots [only] oldestLive then
        some [only]
      else none
    | _ => ((List.range (runs.length + 1)).drop 2).findSome? fun width =>
      let group := runs.drop (runs.length - width)
      if (share sizeIn (group.reverse.map fun f => [f])).mostlyDead &&
          clearOfSnapshots group oldestLive then some group
      else none

def CompactionOptions.universal (opts : CompactionOptions) : CompactionOptions :=
  { opts with targetFileSize := 2 ^ 64 - 1 }

def universalJob (runs : List LiveSst) : Job := ⟨0, 0, runs, []⟩

def resealJob (level : Nat) (f : LiveSst) : Job := ⟨level, level, [f], []⟩

/-- Every job a picker may take from a version, whatever flags it sees. -/
inductive Picked (v : Version) : Job → Prop
  | size {held : LiveSst → Bool} {level : Nat} {job : Job} (h : pickSize v held level = .ok job) :
    Picked v job
  | deletion {held : LiveSst → LiveSst → Bool} {oldestLive : Seq} {sizeIn : SizeInRange} {job : Job}
    (h : pickLevel v held oldestLive sizeIn = some job) : Picked v job
  | range {level : Nat} {start stop : Option Key} {job : Job} (hlevel : level + 1 < maxLevels)
    (h : pickRange v level start stop = some job) : Picked v job
  | universalSize {o : UniversalCompactionOptions} {runs : List LiveSst}
    (h : pickUniversalSize o v = some runs) : Picked v (universalJob runs)
  | universalDeletion {oldestLive : Seq} {sizeIn : SizeInRange} {runs : List LiveSst}
    (h : pickUniversal v oldestLive sizeIn = some runs) : Picked v (universalJob runs)
  | universalFull (h : 2 ≤ (v.levels 0).length) : Picked v (universalJob (v.levels 0))
  | reseal {level : Nat} {f : LiveSst} (hlevel : level < maxLevels) (h : f ∈ v.levels level) :
    Picked v (resealJob level f)

/-- The job's tables stand in the version where it says, and it writes a level below L0. -/
structure Job.From (v : Version) (job : Job) : Prop where
  inputs : ∀ f ∈ job.inputs, f ∈ v.levels job.level
  below : ∀ f ∈ job.below, f ∈ v.levels job.target
  target_pos : 1 ≤ job.target
  target_lt : job.target < maxLevels

theorem foldl_hull_within (fs : List LiveSst) (range : Key × Key) :
    let hull := fs.foldl (fun range g => (if g.smallest < range.1 then g.smallest else range.1,
      if range.2 < g.largest then g.largest else range.2)) range
    (hull.1 ≤ range.1 ∧ range.2 ≤ hull.2) ∧ ∀ f ∈ fs, hull.1 ≤ f.smallest ∧ f.largest ≤ hull.2 := by
  induction fs generalizing range with
  | nil => exact ⟨⟨le_rfl, le_rfl⟩, by simp⟩
  | cons f fs ih =>
    obtain ⟨⟨h1, h2⟩, hfs⟩ := ih (if f.smallest < range.1 then f.smallest else range.1,
      if range.2 < f.largest then f.largest else range.2)
    refine ⟨⟨h1.trans ?_, le_trans ?_ h2⟩, forall_mem_cons.mpr
      ⟨⟨h1.trans ?_, le_trans ?_ h2⟩, hfs⟩⟩ <;> split_ifs <;> order

theorem keyRange_within {range : Key × Key} (h : keyRange fs = some range) :
    ∀ f ∈ fs, range.1 ≤ f.smallest ∧ f.largest ≤ range.2 := by
  cases fs with
  | nil => cases h
  | cons f fs =>
    cases h
    obtain ⟨hf, hfs⟩ := foldl_hull_within fs (f.smallest, f.largest)
    exact forall_mem_cons.mpr ⟨hf, hfs⟩

theorem keyRange_isSome (h : fs ≠ []) : ∃ range, keyRange fs = some range := by
  cases fs with
  | nil => exact absurd rfl h
  | cons f fs => exact ⟨_, rfl⟩

theorem mem_of_mem_picked {marks : List Bool} (h : f ∈ picked files marks) : f ∈ files := by
  obtain ⟨p, hp, rfl⟩ := mem_map.mp h
  exact (of_mem_zip (mem_of_mem_filter hp)).1

theorem mem_of_mem_l0Inputs {start stop : Option Key} (h : f ∈ l0Inputs files start stop) :
    f ∈ files := by
  unfold l0Inputs at h
  dsimp only at h
  split at h
  · cases h
  · exact mem_of_mem_picked h

theorem mem_of_mem_overlapping {first last : Key} (h : f ∈ overlapping files first last) :
    f ∈ files :=
  (meeting_sublist _ _).subset h

theorem pickSize_eq_ok {held : LiveSst → Bool} (h : pickSize v held level = .ok job) : ∃ inputs
    minKey maxKey, level + 1 < maxLevels ∧ sizeInputs v held level = some inputs ∧
      keyRange inputs = some (minKey, maxKey) ∧
      job = ⟨level, level + 1, inputs, overlapping (v.levels (level + 1)) minKey maxKey⟩ := by
  unfold pickSize at h
  dsimp only at h
  split_ifs at h with hl he
  cases hi : sizeInputs v held level with
  | none => simp [hi] at h
  | some inputs =>
    cases hr : keyRange inputs with
    | none => simp [hi, hr] at h
    | some range =>
      simp only [hi, hr] at h
      split_ifs at h
      cases h
      exact ⟨inputs, range.1, range.2, not_le.mp hl, rfl, hr, rfl⟩

theorem mem_of_mem_sizeInputs {held : LiveSst → Bool} {inputs : List LiveSst}
    (h : sizeInputs v held level = some inputs) (hf : f ∈ inputs) : f ∈ v.levels level := by
  unfold sizeInputs at h
  split_ifs at h
  · cases h
    exact hf
  · obtain ⟨g, hg, rfl⟩ := Option.map_eq_some_iff.mp h
    rw [mem_singleton.mp hf]
    exact mem_of_find?_eq_some hg

theorem pickSize_from {held : LiveSst → Bool} (h : pickSize v held level = .ok job) :
    job.From v := by
  obtain ⟨inputs, minKey, maxKey, hl, hi, -, rfl⟩ := pickSize_eq_ok h
  exact ⟨fun f hf => mem_of_mem_sizeInputs hi hf, fun f hf => mem_of_mem_overlapping hf,
    Nat.succ_pos level, hl⟩

theorem mem_of_mem_levelInputs {f g : LiveSst} (hf : f ∈ v.levels level)
    (hg : g ∈ levelInputs v level f) : g ∈ v.levels level := by
  unfold levelInputs at hg
  split_ifs at hg with h
  · exact h ▸ mem_of_mem_l0Inputs hg
  · rwa [mem_singleton.mp hg]

theorem levelJob_from (hf : f ∈ v.levels level) (hl : level < maxLevels) :
    (levelJob v level f).From v := by
  have hmax : maxLevels = 7 := rfl
  unfold levelJob
  split_ifs with hbottom
  · refine ⟨fun g hg => ?_, by simp, show 1 ≤ level by omega, hl⟩
    rwa [mem_singleton.mp hg]
  · refine ⟨fun g hg => mem_of_mem_levelInputs hf hg, fun g hg => ?_, Nat.succ_pos level,
      show level + 1 < maxLevels by omega⟩
    cases hr : keyRange (levelInputs v level f) with
    | none => simp [hr] at hg
    | some range =>
      simp only [hr, Option.elim_some] at hg
      exact mem_of_mem_overlapping hg

theorem pickInLevel_eq_some (h : pickInLevel v held oldestLive sizeIn level = some job) :
    ∃ f ∈ v.levels level, eligible v (held f) oldestLive level f ∧ job = levelJob v level f := by
  obtain ⟨best, hbest, rfl⟩ := Option.map_eq_some_iff.mp h
  -- every pass kept on the way is that of a table seen
  have hk := List.foldlRecOn (v.levels level) (considerTable v held oldestLive sizeIn level)
    (motive := fun best => ∀ b ∈ best, ∃ f ∈ v.levels level,
      eligible v (held f) oldestLive level f ∧ b.2 = levelJob v level f) (b := none) (by simp) (by
    intro best ih f hf b hb
    unfold considerTable at hb
    dsimp only at hb
    split_ifs at hb with helig hdense
    · cases hb
      exact ⟨f, hf, helig, rfl⟩
    · exact ih b hb
    · exact ih b hb)
  exact hk best hbest

theorem pickLevel_eq_some (h : pickLevel v held oldestLive sizeIn = some job) :
    ∃ level < maxLevels, ∃ f ∈ v.levels level,
      eligible v (held f) oldestLive level f ∧ job = levelJob v level f := by
  obtain ⟨level, hl, h⟩ := exists_of_findSome?_eq_some h
  exact ⟨level, mem_range.mp hl, pickInLevel_eq_some h⟩

theorem pickLevel_from (h : pickLevel v held oldestLive sizeIn = some job) : job.From v := by
  obtain ⟨level, hl, f, hf, -, rfl⟩ := pickLevel_eq_some h
  exact levelJob_from hf hl

end RegolithStore
