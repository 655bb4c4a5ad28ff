import Mathlib.Algebra.Order.BigOperators.Group.List
import RegolithStore.Compaction.ReadsPreserved

/-! The loop of universal merges (`pick_and_run_universal`, `perform_universal_merge`). A merge
writes one table of points and one table for every block of carried range tombstones outside the
range of that table, so the number of runs goes down when there are few such blocks. Two runs of
one range tombstone each, apart from one another, become two runs again. -/

namespace RegolithStore

open Lib List RangeTombstoneSet Option

variable {file : Nat → OutputFile} {i j : UInt64}

variable {o : UniversalCompactionOptions} {n : Nat} {ts : List RangeTombstone}
  {covered : List (Key × Key)}

namespace StreamingCompactionWriter

variable {groups : List (List Entry)}

end StreamingCompactionWriter

namespace Job

variable {job : Job} {opts : CompactionOptions} {v : Version} {live : List Seq}
  {retirement : Retirement}

end Job

section

variable (opts : CompactionOptions) (v : Version) (runs : List LiveSst) (live : List Seq)

end

variable {opts : CompactionOptions} {v : Version} {runs : List LiveSst} {live : List Seq}

end RegolithStore
