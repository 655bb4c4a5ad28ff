import RegolithStore.Manifest.Replay

/-! The end of a manifest whose replay stopped short of it (`manifest/tail.rs`). A batch
after the damage that reads back whole, needed a sync and has bytes after it proves the
damage durable, and the open refuses; with no such batch the bytes from the damage on are
what a crash can leave, and are dropped. -/

namespace RegolithStore

open Lib

/-- `FRAMING`: a batch's length in front and its checksum behind. -/
def framing : Nat := 8

structure DroppedTail where
  offset : Nat
  bytes : Nat
  deriving DecidableEq

section Tail

variable (checks : ManifestChecks) (data : Bytes) (sealing : Option ManifestSeal)

/-- Whether the batch was synced before the next was written. One that does not open or
does not decode counts as synced. -/
def needsSync (records : Bytes) (at_ : Nat) : Bool :=
  match Manifest.openRecords sealing at_ records with
  | .ok opened => ManifestRecord.needsSyncWithin opened.2.length opened.2
  | .error _ => true

/-- The loop of `proof_past`: every offset is tested, but a whole batch is stepped over. -/
def batchProofFrom : Nat → Nat → Option Nat
  | 0, _ => none
  | turns + 1, at_ =>
    if at_ + framing ≤ data.length then
      match Manifest.batchAt checks data at_ with
      | some batch =>
        if batch.stop < data.length ∧ needsSync sealing batch.records at_ then some batch.stop
        else batchProofFrom turns batch.stop
      | none => batchProofFrom turns (at_ + 1)
    else none

/-- The end of the first batch after `damageAt` that proves it durable. -/
def batchProofPast (damageAt : Nat) : Option Nat :=
  batchProofFrom checks data sealing (data.length - damageAt) (damageAt + 1)

/-- The tail to drop, or a refusal naming both offsets. -/
def judge (path : String) (damageAt : Nat) : Except IoError DroppedTail :=
  match batchProofPast checks data sealing damageAt with
  | some proven => .error ⟨.invalidData, s!"{path} is damaged at offset {damageAt}, below offset " ++
      s!"{proven} that a later batch proves durable; the database is left untouched"⟩
  | none => .ok ⟨damageAt, data.length - damageAt⟩

end Tail

/-- What an open finds in the table directory: how many tables beside a manifest without a
stamp may hold data, those tables as the refusal names them, and the highest id of a table
that is left there. -/
structure TableDir where
  path : String
  suspects : Nat
  described : String
  highestTable : Option UInt64

def judgeEnd (checks : ManifestChecks) (path : String) (dir : TableDir) (data : Bytes)
    (keyring : Option Keyring) (replay : ManifestReplay) : Except IoError (Option DroppedTail) :=
  if replay.stampLen = 0 then
    if 0 < dir.suspects then
      .error ⟨.invalidData, s!"{path} is damaged at offset 0: it has no header, yet " ++
        s!"{dir.suspects} table file(s) in {dir.path} may hold data ({dir.described}); the " ++
        "database is left untouched"⟩
    else .ok (if data = [] then none else some ⟨0, data.length⟩)
  else if replay.validLen = data.length then .ok none
  else (judge checks data (sealingOf keyring replay.salt) path replay.validLen).map some

end RegolithStore
