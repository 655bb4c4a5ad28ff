import RegolithStore.Compaction.Retire
import RegolithStore.Compaction.Stripes
import RegolithStore.Lib.Ranges

/-! What one pass writes (`stream_compaction_outputs`, `StreamingCompactionWriter`). The merged
entries are shadowed, reduced and retired key by key and packed into outputs of about the target
size. Each output takes the part of the carried range tombstones over its own keys, and what is
left between the outputs goes into tables of tombstones alone. -/

namespace RegolithStore

open Lib RangeTombstoneSet

structure CompactionOptions where
  targetFileSize : Nat
  filter : Option CompactionFilter
  merge : Option MergeOperator

/-- A picked pass: `inputs` of `level`, and the tables of `target` they overlap. -/
structure Job where
  level : Nat
  target : Nat
  inputs : List LiveSst
  below : List LiveSst

namespace Job

variable (job : Job)

def files : List LiveSst := job.inputs ++ job.below

/-- Every range tombstone the pass reads, but those the filter removes. -/
def mergedTombstones (opts : CompactionOptions) : RangeTombstoneSet :=
  fromVec ((job.files.flatMap LiveSst.tombstones).filter fun t =>
    opts.filter.all fun filter =>
      match filter.filterRangeDelete job.target t.start t.stop with
      | .remove => false
      | _ => true)

/-- The k-way merge of the inputs; of one internal key only the first of the streams stays. -/
def mergedEntries : List Entry :=
  dedupBy (fun a b => decide (a.SameKey b))
    (mergeStreams (fun a b => decide (a.Before b)) (job.files.map fun f => f.reader.entries))

end Job

def Entry.encodedLen (e : Entry) : Nat := e.userKey.length + 9 + e.value.length

/-- The entries of the finished outputs, and of the open one; none is open when it has none. -/
structure StreamingCompactionWriter where
  finished : List (List Entry)
  current : List Entry

namespace StreamingCompactionWriter

def new : StreamingCompactionWriter := ⟨[], []⟩

def estimatedSize (w : StreamingCompactionWriter) : Nat := (w.current.map Entry.encodedLen).sum

def finishCurrent (w : StreamingCompactionWriter) : StreamingCompactionWriter :=
  if w.current = [] then w else ⟨w.finished ++ [w.current], []⟩

def addGroup (targetFileSize : Nat) (w : StreamingCompactionWriter) (group : List Entry) :
    StreamingCompactionWriter :=
  if group = [] then w
  else
    let w := if targetFileSize ≤ w.estimatedSize then w.finishCurrent else w
    { w with current := w.current ++ group }

def outputs (targetFileSize : Nat) (groups : List (List Entry)) : List (List Entry) :=
  (groups.foldl (addGroup targetFileSize) new).finishCurrent.finished

end StreamingCompactionWriter

/-- `finish_current`: the output takes the carried tombstones clipped to its keys. -/
def pointOutput (carried : RangeTombstoneSet) (file : OutputFile) (es : List Entry) :
    Option LiveSst :=
  (pointRange es).bind fun range =>
    let ts := carried.clippedOverlaps range.1 (succBytes range.2)
    (SsTableWriter.finish carried es ts).map fun summary =>
      { sequenceCeiling := summary.newestSeq
        metadata :=
          { fileId := file.fileId
            smallestKey := range.1
            largestKey := range.2
            fileSize := file.fileSize
            numEntries := summary.numEntries
            globalSeq := none
            deletions := some summary.deletions }
        reader := ⟨es, fromVec ts⟩ }

/-- The loop of `uncovered_range_tombstone_fragments` over the covered ranges, for one
tombstone ending at `stop`. -/
def uncoveredFrom (stop : Key) : Key → List (Key × Key) → List (Key × Key)
  | cursor, [] => if cursor < stop then [(cursor, stop)] else []
  | cursor, (start, next) :: covered =>
    if next ≤ cursor then uncoveredFrom stop cursor covered
    else if stop ≤ start then if cursor < stop then [(cursor, stop)] else []
    else
      let fragmentEnd := min start stop
      let fragment := if cursor < start ∧ cursor < fragmentEnd then [(cursor, fragmentEnd)] else []
      let cursor := if cursor < next then max next cursor else cursor
      fragment ++ if stop ≤ cursor then [] else uncoveredFrom stop cursor covered

def uncoveredFragments (ts : List RangeTombstone) (covered : List (Key × Key)) :
    List RangeTombstone :=
  sortDedupTombstones (ts.flatMap fun t =>
    (uncoveredFrom t.stop t.start (joinRanges covered)).map fun r => ⟨r.1, r.2, t.seq⟩)

/-- `group_range_tombstone_fragments`: one group for every run of fragments that touch. -/
def groupFragments (fragments : List RangeTombstone) : List (List RangeTombstone) :=
  groupTouching RangeTombstone.start RangeTombstone.stop (sortDedupTombstones fragments)

/-- `write_range_tombstone_only_file`. -/
def tombstoneOutput (file : OutputFile) (ts : List RangeTombstone) : Option LiveSst :=
  writeTable (fromVec []) file [] ts

namespace Job

variable (job : Job) (opts : CompactionOptions) (live : List Seq)

def stripes : Stripes := ⟨live, opts.filter, opts.merge, job.target⟩

variable (retirement : Retirement)

def groups : List (List Entry) :=
  (runsOf Entry.userKey job.mergedEntries).map fun group =>
    retirement.retireDeletion ((job.stripes opts live).reduceGroup
      (group.filter fun e => !(job.stripes opts live).shadowed (job.mergedTombstones opts) e))

def pointFiles : List (List Entry) :=
  StreamingCompactionWriter.outputs opts.targetFileSize (job.groups opts live retirement)

def tombstoneFiles : List (List RangeTombstone) :=
  groupFragments (uncoveredFragments
    (retirement.carriedTombstones (job.mergedTombstones opts)).tombstones
    ((job.pointFiles opts live retirement).filterMap fun es =>
      (pointRange es).map fun range => (range.1, succBytes range.2)))

/-- `stream_compaction_outputs`, with the ids its files are given, in order. -/
def outputs (live : List Seq) (retirement : Retirement) (file : Nat → OutputFile) : List LiveSst :=
  let points := job.pointFiles opts live retirement
  ((points.zipIdx).filterMap fun p =>
    pointOutput (retirement.carriedTombstones (job.mergedTombstones opts)) (file p.2) p.1) ++
  ((job.tombstoneFiles opts live retirement).zipIdx points.length).filterMap fun p =>
    tombstoneOutput (file p.2) p.1

/-- The outputs of a pass that reads the version `v` and the live snapshots `live`. -/
def perform (v : Version) (live : List Seq) (file : Nat → OutputFile) : List LiveSst :=
  job.outputs opts live (Retirement.new job.target v job.inputs live.head?) file

def edits (outputs : List LiveSst) : List VersionEdit :=
  (job.inputs.map LiveSst.id).map (.removeFile job.level) ++
  (job.below.map LiveSst.id).map (.removeFile job.target) ++
  outputs.map (.addFile job.target)

/-- An L0 to L0 merge is placed, not appended: L0 is taken out and put back with the
outputs in the place of the oldest input. -/
def rebuildEdits (v : Version) (outputs : List LiveSst) : List VersionEdit :=
  let l0 := v.levels 0
  let isInput := fun f : LiveSst => decide (f.id ∈ job.inputs.map LiveSst.id)
  let oldest := (l0.findIdx? isInput).getD 0
  (l0.map LiveSst.id).map (.removeFile 0) ++
  ((l0.take oldest).filter fun f => !isInput f).map (.addFile 0) ++
  outputs.map (.addFile 0) ++
  ((l0.drop oldest).filter fun f => !isInput f).map (.addFile 0)

def installEdits (v : Version) (outputs : List LiveSst) : List VersionEdit :=
  if job.level = 0 ∧ job.target = 0 then job.rebuildEdits v outputs else job.edits outputs

end Job

end RegolithStore
