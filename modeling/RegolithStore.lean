import RegolithStore.Commit.BytesAtRest
import RegolithStore.Commit.DurableFirst
import RegolithStore.Commit.EarlySplit
import RegolithStore.Commit.LatestReads
import RegolithStore.Commit.StallLevel
import RegolithStore.Compaction.Progress
import RegolithStore.Env.SerialLog
import RegolithStore.Flush.Disjoint
import RegolithStore.Ingest.FifoDrop
import RegolithStore.Manifest.Crash
import RegolithStore.Manifest.Repaired
import RegolithStore.Recovery.RangeDeletes
import RegolithStore.Snapshot.Listed
import RegolithStore.Txn.ReadsBack
import RegolithStore.Txn.ReadsKept
import RegolithStore.Wal.Damage
import RegolithStore.Wal.Rollback
import RegolithStore.Sync.Semaphore
import RegolithStore.Compaction.Census
import RegolithStore.Compaction.L0Inputs
