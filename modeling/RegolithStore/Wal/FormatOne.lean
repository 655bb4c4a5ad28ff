import RegolithStore.Wal.Frame

/-! Format 1 of the write-ahead log (`wal_v1.rs`), which nothing writes any more and replay
still reads: one record per write, `[len u32][type u8][payload][checksum u32]` after a stamp
of 12 bytes. It carries no synced offset, so its newest log is judged by its shape: a record
the file ends inside is a torn tail unless whole records tile the rest of the file, and a
whole record that is not usable is damage unless only zeros follow. -/

namespace RegolithStore

open Lib

/-- Where a replay of the newest log stopped short, and how much it threw away. -/
structure TailVerdict where
  offset : Nat
  discardedBytes : Nat
  deriving DecidableEq

def recordBatch : UInt8 := 0x05

def walHeaderLen : Nat := 5
def checksumLen : Nat := 4

structure FrameV1 where
  recordType : UInt8
  data : Bytes
  storedChecksum : Nat
  stop : Nat

variable (checks : WalChecks)

def FrameV1.checksumMatches (f : FrameV1) : Bool :=
  f.storedChecksum = (checks.walRecord f.data.length f.recordType f.data).toNat

/-- The record starting at `offset`, or `none` when the file ends inside it. -/
def frameAt (bytes : Bytes) (offset : Nat) : Option FrameV1 :=
  if bytes.length < offset + walHeaderLen then none
  else
    let dataStart := offset + walHeaderLen
    let dataEnd := dataStart + leAt 4 bytes offset
    let stop := dataEnd + checksumLen
    if bytes.length < stop then none
    else some ⟨bytes.getD (offset + 4) 0, slice bytes dataStart (dataEnd - dataStart),
      leAt 4 bytes dataEnd, stop⟩

/-- The offset of the first usable record past `pos` from which whole records tile the rest
of the file. One pass from the end: `tiles` are the offsets found to tile so far. -/
def resyncAfter (bytes : Bytes) (pos : Nat) : Option Nat :=
  let scanStart := pos + 1
  let visit : List Nat × Option Nat → Nat → List Nat × Option Nat := fun (tiles, first) offset =>
    match frameAt bytes offset with
    | none => (tiles, first)
    | some frame =>
      if frame.stop ≠ bytes.length ∧ frame.stop ∉ tiles then (tiles, first)
      else
        let known := frame.recordType ∈
          [recordPut, recordDelete, recordDeleteRange, recordMerge, recordBatch]
        (offset :: tiles, if known ∧ frame.checksumMatches checks then some offset else first)
  ((List.range' scanStart (bytes.length - scanStart)).reverse.foldl visit ([], none)).2

def TailVerdict.discarded (bytes : Bytes) (pos : Nat) : TailVerdict := ⟨pos, bytes.length - pos⟩

/-- Whether the incomplete record at `recordStart` is a torn tail or real damage. -/
def classifyIncompleteRecord (path : String) (bytes : Bytes)
    (recordStart : Nat) : Except IoError TailVerdict :=
  let pos := min recordStart bytes.length
  match resyncAfter checks bytes pos with
  | some next => .error ⟨.invalidData, s!"write-ahead log {path} is damaged at offset {pos}, and " ++
      s!"whole records follow it from offset {next}; refusing to open rather than lose them"⟩
  | none => .ok (.discarded bytes pos)

/-- Whether the record at `recordStart`, which is not usable, is an unwritten tail or
damage. -/
def classifyUnusableRecord (path : String) (bytes : Bytes) (recordStart : Nat) :
    Except IoError TailVerdict :=
  let pos := min recordStart bytes.length
  if (bytes.drop pos).all fun b => b = 0 then .ok (.discarded bytes pos)
  else .error ⟨.invalidData,
    s!"write-ahead log {path} is damaged at offset {pos}; refusing to open"⟩

/-- The loop of `parse_batch_record` over `count` entries, the rest of the data before it. -/
def parseBatchEntries : Nat → Bytes → Except IoError (List WalEntry)
  | 0, data =>
    if data = [] then .ok [] else .error ⟨.invalidData, "batch record has trailing bytes"⟩
  | count + 1, data =>
    if data.length < 5 then .error ⟨.invalidData, "batch entry header overflow"⟩
    else
      let recordType := data.getD 0 0
      let payloadLen := leAt 4 data 1
      if data.length - 5 < payloadLen then .error ⟨.invalidData, "batch entry payload overflow"⟩
      else do
        let payload := slice data 5 payloadLen
        let entry ←
          if recordType = recordPut then parsePutRecord payload
          else if recordType = recordDelete then parseDeleteRecord payload
          else if recordType = recordDeleteRange then parseDeleteRangeRecord payload
          else if recordType = recordMerge then parseMergeRecord payload
          else if recordType = recordBatch then
            .error ⟨.invalidData, "nested batch records are not supported"⟩
          else .error ⟨.invalidData, s!"unknown WAL batch entry type {recordType.toNat}"⟩
        let entries ← parseBatchEntries count (data.drop (5 + payloadLen))
        pure (entry :: entries)

def parseBatchRecord (data : Bytes) : Except IoError (List WalEntry) :=
  if data.length < 4 then .error ⟨.invalidData, "batch record too short"⟩
  else parseBatchEntries (leAt 4 data 0) (data.drop 4)

/-- One turn of the loop in `next_v1_entry_inner`: the entries of the record at `consumed`
and the offset after it; `none` at the end of the file. -/
def readV1Record (path : String) (file : Bytes) (consumed : Nat) :
    Except IoError (Option (List WalEntry × Nat)) :=
  let rest := file.drop consumed
  if rest = [] then .ok none
  else if rest.length < walHeaderLen then .error ⟨.unexpectedEof, "truncated WAL record header"⟩
  else
    let len := leAt 4 rest 0
    let recordType := rest.getD 4 0
    if maxRecordLen < len then
      .error ⟨.unexpectedEof, "WAL record length exceeds the format's maximum"⟩
    else if rest.length - walHeaderLen < len + checksumLen then
      .error ⟨.unexpectedEof, "truncated WAL record data"⟩
    else
      let payload := slice rest walHeaderLen len
      if leAt 4 rest (walHeaderLen + len) ≠ (checks.walRecord len recordType payload).toNat then
        .error ⟨.invalidData, s!"WAL checksum mismatch in {path}"⟩
      else do
        let entries ←
          if recordType = recordPut then (parsePutRecord payload).map ([·])
          else if recordType = recordDelete then (parseDeleteRecord payload).map ([·])
          else if recordType = recordDeleteRange then (parseDeleteRangeRecord payload).map ([·])
          else if recordType = recordMerge then (parseMergeRecord payload).map ([·])
          else if recordType = recordBatch then parseBatchRecord payload
          else .error ⟨.invalidData, s!"unknown WAL record type {recordType.toNat}"⟩
        pure (some (entries, consumed + walHeaderLen + len + checksumLen))

end RegolithStore
