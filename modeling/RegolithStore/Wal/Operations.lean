import RegolithStore.Lib.HostFile
import RegolithStore.Store.Entry

/-! The operations of a commit inside a log record (`wal.rs`, `wal_frame.rs`). A group is
its operations back to back, each a type byte and a payload that carries its own lengths
and its sequence number. Replay first checks that a group is a sequence of whole
operations, then decodes them one at a time. -/

namespace RegolithStore

open Lib List

inductive WriteBatchOp
  | put (key : Key) (value : Value)
  | delete (key : Key)
  | deleteRange (start stop : Key)
  | merge (key : Key) (operand : Value)
  deriving DecidableEq

inductive WalEntry
  | put (key : Key) (value : Value) (seq : Seq)
  | delete (key : Key) (seq : Seq)
  | deleteRange (start stop : Key) (seq : Seq)
  | merge (key : Key) (operand : Value) (seq : Seq)
  deriving DecidableEq

variable {op : WriteBatchOp} {ops : List (WriteBatchOp × Seq)} {key : Bytes}

/-- The entry an operation logged at `seq` replays as. -/
def WriteBatchOp.entry (seq : Seq) : WriteBatchOp → WalEntry
  | put key value => .put key value seq
  | delete key => .delete key seq
  | deleteRange start stop => .deleteRange start stop seq
  | merge key operand => .merge key operand seq

def recordPut : UInt8 := 0x01
def recordDelete : UInt8 := 0x02
def recordDeleteRange : UInt8 := 0x03
def recordMerge : UInt8 := 0x04

def encodeField (bytes : Bytes) : Bytes := leBytes 4 bytes.length ++ bytes

/-- The payload of a put, a range delete and a merge: two byte strings and the sequence. -/
def encodePairPayload (first second : Bytes) (seq : Seq) : Bytes :=
  encodeField first ++ (encodeField second ++ encodeU64 seq)

def encodePutPayload (key value : Bytes) (seq : Seq) : Bytes := encodePairPayload key value seq

def encodeDeletePayload (key : Bytes) (seq : Seq) : Bytes := encodeField key ++ encodeU64 seq

def encodeDeleteRangePayload (start stop : Bytes) (seq : Seq) : Bytes :=
  encodePairPayload start stop seq

def encodeMergePayload (key operand : Bytes) (seq : Seq) : Bytes :=
  encodePairPayload key operand seq

/-- One write-batch operation as one operation of a group. -/
def encodeOpRecord (seq : Seq) : WriteBatchOp → Bytes
  | .put key value => recordPut :: encodePutPayload key value seq
  | .delete key => recordDelete :: encodeDeletePayload key seq
  | .deleteRange start stop => recordDeleteRange :: encodeDeleteRangePayload start stop seq
  | .merge key operand => recordMerge :: encodeMergePayload key operand seq

/-- `MAX_RECORD_LEN`: the largest group payload the writer emits and a reader believes. -/
def maxRecordLen : Nat := 2 ^ 30

/-- The operations of one commit, each at its sequence. -/
def encodeGroup (ops : List (WriteBatchOp × Seq)) : Bytes :=
  ops.flatMap fun p => encodeOpRecord p.2 p.1

/-- A commit no larger than a record may be, which every write path checks before the write
is admitted (`check_record_len`). -/
structure Group where
  ops : List (WriteBatchOp × Seq)
  fits : (encodeGroup ops).length ≤ maxRecordLen

namespace Group

def encode (g : Group) : Bytes := encodeGroup g.ops

def entries (g : Group) : List WalEntry := g.ops.map fun p => p.1.entry p.2

end Group

def u32At (bytes : Bytes) (i : Nat) : Option Nat :=
  if i + 4 ≤ bytes.length then some (leAt 4 bytes i) else none

/-- Bytes of the payload of an operation of type `op` at the head of `rest`, by its own
length fields. -/
def payloadLen (op : UInt8) (rest : Bytes) : Option Nat :=
  if op = recordPut ∨ op = recordMerge ∨ op = recordDeleteRange then do
    let second := 4 + (← u32At rest 0)
    pure (second + 4 + (← u32At rest second) + 8)
  else if op = recordDelete then do
    pure (4 + (← u32At rest 0) + 8)
  else none

/-- Bytes of the operation at the head of `entries`, its type byte included. -/
def entryLen : Bytes → Option Nat
  | [] => none
  | op :: rest =>
    (payloadLen op rest).bind fun payload =>
      if payload ≤ rest.length then some (payload + 1) else none

/-- The loop of `entries_are_whole`; every operation takes bytes, so the length of the
group bounds its turns. -/
def wholeWithin : Nat → Bytes → Bool
  | 0, entries => entries.isEmpty
  | turns + 1, entries =>
    if entries = [] then true
    else match entryLen entries with
      | some len => wholeWithin turns (entries.drop len)
      | none => false

/-- Whether `entries` is a sequence of whole operations and nothing else. -/
def entriesAreWhole (entries : Bytes) : Bool := wholeWithin entries.length entries

/-- `parse_put_record`, `parse_delete_range_record` and `parse_merge_record`, with their
own names for the record and its two parts. -/
def parsePairRecord (record first second : String) (make : Bytes → Bytes → Seq → WalEntry)
    (data : Bytes) : Except IoError WalEntry :=
  if data.length < 16 then .error ⟨.invalidData, s!"{record} record too short"⟩
  else
    let firstLen := leAt 4 data 0
    if data.length < 4 + firstLen + 4 then
      .error ⟨.invalidData, s!"{record} record {first} overflow"⟩
    else
      let secondLen := leAt 4 data (4 + firstLen)
      if data.length < 4 + firstLen + 4 + secondLen + 8 then
        .error ⟨.invalidData, s!"{record} record {second} overflow"⟩
      else
        .ok (make (slice data 4 firstLen) (slice data (4 + firstLen + 4) secondLen)
          (UInt64.ofNat (leAt 8 data (4 + firstLen + 4 + secondLen))))

def parsePutRecord : Bytes → Except IoError WalEntry :=
  parsePairRecord "put" "key" "value" .put

def parseDeleteRangeRecord : Bytes → Except IoError WalEntry :=
  parsePairRecord "delete_range" "start" "end" .deleteRange

def parseMergeRecord : Bytes → Except IoError WalEntry :=
  parsePairRecord "merge" "key" "operand" .merge

def parseDeleteRecord (data : Bytes) : Except IoError WalEntry :=
  if data.length < 12 then .error ⟨.invalidData, "delete record too short"⟩
  else
    let keyLen := leAt 4 data 0
    if data.length < 4 + keyLen + 8 then .error ⟨.invalidData, "delete record key overflow"⟩
    else .ok (.delete (slice data 4 keyLen) (UInt64.ofNat (leAt 8 data (4 + keyLen))))

def parseEntry (op : UInt8) (payload : Bytes) : Except IoError WalEntry :=
  if op = recordPut then parsePutRecord payload
  else if op = recordDelete then parseDeleteRecord payload
  else if op = recordDeleteRange then parseDeleteRangeRecord payload
  else parseMergeRecord payload

def decodeEntry (entries : Bytes) : Except IoError (WalEntry × Nat) :=
  match entryLen entries with
  | none => .error ⟨.invalidData, "write-ahead log operation is malformed"⟩
  | some len => (parseEntry (entries.headD 0) (slice entries 1 (len - 1))).map fun e => (e, len)

@[simp] theorem length_encodeField (bytes : Bytes) :
    (encodeField bytes).length = 4 + bytes.length := by
  simp [encodeField]

section Field

variable {bytes : Bytes} (rest : Bytes)

theorem leAt_encodeField (h : bytes.length < 2 ^ 32) :
    leAt 4 (encodeField bytes ++ rest) 0 = bytes.length := by
  rw [encodeField, append_assoc, leAt_leBytes h]

theorem slice_encodeField : slice (encodeField bytes ++ rest) 4 bytes.length = bytes := by
  rw [encodeField, append_assoc, slice_append_right (length_leBytes 4 _) _ 0, slice_append_left rfl]

theorem u32At_encodeField (h : bytes.length < 2 ^ 32) :
    u32At (encodeField bytes ++ rest) 0 = some bytes.length := by
  rw [u32At, if_pos (by simp; omega), leAt_encodeField rest h]

theorem u32At_encodeField_right (i : Nat) :
    u32At (encodeField bytes ++ rest) (4 + bytes.length + i) = u32At rest i := by
  rw [u32At, u32At, leAt_append_right (length_encodeField bytes)]
  simp [Nat.add_assoc]

end Field

/-- Both parts fit the length field in front of them. -/
def WriteBatchOp.Fits : WriteBatchOp → Prop
  | put a b | deleteRange a b | merge a b => a.length < 2 ^ 32 ∧ b.length < 2 ^ 32
  | delete key => key.length < 2 ^ 32

section Pair

variable {a b : Bytes} (ha : a.length < 2 ^ 32) (hb : b.length < 2 ^ 32) (seq : Seq)

include ha hb

theorem entryLen_pair {op : UInt8}
    (hop : op = recordPut ∨ op = recordMerge ∨ op = recordDeleteRange) (rest : Bytes) :
    entryLen (op :: encodePairPayload a b seq ++ rest) =
      some (op :: encodePairPayload a b seq).length := by
  have hf := u32At_encodeField (encodeField b ++ encodeU64 seq ++ rest) ha
  have hsecond : u32At (encodeField a ++ (encodeField b ++ encodeU64 seq ++ rest))
      (4 + a.length) = some b.length := by
    rw [← Nat.add_zero (4 + a.length), u32At_encodeField_right, append_assoc,
      u32At_encodeField _ hb]
  simp only [encodePairPayload, cons_append, append_assoc] at hf hsecond ⊢
  simp [entryLen, payloadLen, hop, hf, hsecond]
  omega

theorem parsePairRecord_encode (record first second : String)
    (make : Bytes → Bytes → Seq → WalEntry) :
    parsePairRecord record first second make (encodePairPayload a b seq) = .ok (make a b seq) := by
  have hlen : (encodePairPayload a b seq).length = 4 + a.length + (4 + b.length) + 8 := by
    simp [encodePairPayload]
    omega
  have hf : leAt 4 (encodePairPayload a b seq) 0 = a.length := leAt_encodeField _ ha
  have hsecond : leAt 4 (encodePairPayload a b seq) (4 + a.length) = b.length := by
    rw [encodePairPayload, ← Nat.add_zero (4 + a.length),
      leAt_append_right (length_encodeField a), leAt_encodeField _ hb]
  have hslc : slice (encodePairPayload a b seq) (4 + a.length + 4) b.length = b := by
    rw [encodePairPayload, slice_append_right (length_encodeField a), slice_encodeField]
  have hseq : leAt 8 (encodePairPayload a b seq) (4 + a.length + 4 + b.length) = seq.toNat := by
    rw [encodePairPayload, Nat.add_assoc, leAt_append_right (length_encodeField a),
      ← Nat.add_zero (4 + b.length), leAt_append_right (length_encodeField b)]
    simpa using leAt_encodeU64 seq []
  have hkey : slice (encodePairPayload a b seq) 4 a.length = a := slice_encodeField _
  simp only [parsePairRecord, hlen, hf, hsecond, hslc, hseq, hkey, UInt64.ofNat_toNat]
  rw [if_neg (by omega), if_neg (by omega), if_neg (by omega)]

end Pair

theorem entryLen_delete (h : key.length < 2 ^ 32) (seq : Seq) (rest : Bytes) :
    entryLen (recordDelete :: encodeDeletePayload key seq ++ rest) =
      some (recordDelete :: encodeDeletePayload key seq).length := by
  have hkey := u32At_encodeField (encodeU64 seq ++ rest) h
  have hop : ¬ (recordDelete = recordPut ∨ recordDelete = recordMerge ∨
      recordDelete = recordDeleteRange) := by decide
  simp only [encodeDeletePayload, cons_append, append_assoc] at hkey ⊢
  simp [entryLen, payloadLen, hop, hkey]

theorem parseDeleteRecord_encode (h : key.length < 2 ^ 32) (seq : Seq) :
    parseDeleteRecord (encodeDeletePayload key seq) = .ok (.delete key seq) := by
  have hlen : (encodeDeletePayload key seq).length = 4 + key.length + 8 := by
    simp [encodeDeletePayload]
  have hkey : leAt 4 (encodeDeletePayload key seq) 0 = key.length := leAt_encodeField _ h
  have hslc : slice (encodeDeletePayload key seq) 4 key.length = key := slice_encodeField _
  have hseq : leAt 8 (encodeDeletePayload key seq) (4 + key.length) = seq.toNat := by
    rw [encodeDeletePayload, ← Nat.add_zero (4 + key.length),
      leAt_append_right (length_encodeField key)]
    simpa using leAt_encodeU64 seq []
  simp only [parseDeleteRecord, hlen, hkey, hslc, hseq, UInt64.ofNat_toNat]
  rw [if_neg (by omega), if_neg (by omega)]

theorem entryLen_pos {entries : Bytes} {len : Nat} (h : entryLen entries = some len) : 0 < len := by
  cases entries with
  | nil => simp [entryLen] at h
  | cons op rest =>
    obtain ⟨payload, -, h⟩ := Option.bind_eq_some_iff.mp h
    split_ifs at h
    exact Option.some.inj h ▸ Nat.succ_pos _

theorem encodeOpRecord_ne_nil (seq : Seq) (op : WriteBatchOp) : encodeOpRecord seq op ≠ [] := by
  cases op <;> simp [encodeOpRecord]

def WriteBatchOp.payloadSize : WriteBatchOp → Nat
  | put a b | deleteRange a b | merge a b => 4 + a.length + 4 + b.length + 8
  | delete key => 4 + key.length + 8

theorem length_encodeOpRecord (seq : Seq) : (encodeOpRecord seq op).length = op.payloadSize + 1 := by
  cases op <;> simp [encodeOpRecord, encodePutPayload, encodeDeletePayload,
    encodeDeleteRangePayload, encodeMergePayload, encodePairPayload, WriteBatchOp.payloadSize] <;>
    omega

theorem entryLen_encode (h : op.Fits) (seq : Seq) (rest : Bytes) :
    entryLen (encodeOpRecord seq op ++ rest) = some (encodeOpRecord seq op).length := by
  cases op with
  | put a b => exact entryLen_pair h.1 h.2 seq (.inl rfl) rest
  | delete key => exact entryLen_delete h seq rest
  | deleteRange a b => exact entryLen_pair h.1 h.2 seq (.inr (.inr rfl)) rest
  | merge a b => exact entryLen_pair h.1 h.2 seq (.inr (.inl rfl)) rest

/-- An operation decodes to its entry. -/
theorem decodeEntry_encode (h : op.Fits) (seq : Seq) (rest : Bytes) :
    decodeEntry (encodeOpRecord seq op ++ rest) =
      .ok (op.entry seq, (encodeOpRecord seq op).length) := by
  have hslc : ∀ (byte : UInt8) payload,
      slice (byte :: payload ++ rest) 1 ((byte :: payload).length - 1) = payload := by
    simp [slice]
  rw [decodeEntry, entryLen_encode h seq rest]
  suffices hparse : parseEntry ((encodeOpRecord seq op ++ rest).headD 0)
      (slice (encodeOpRecord seq op ++ rest) 1 ((encodeOpRecord seq op).length - 1)) =
        .ok (op.entry seq) by
    simp only [hparse, Except.map]
  cases op with
  | put a b =>
    rw [encodeOpRecord, hslc]
    exact parsePairRecord_encode h.1 h.2 seq ..
  | delete key =>
    rw [encodeOpRecord, hslc]
    exact parseDeleteRecord_encode h seq
  | deleteRange a b | merge a b =>
    rw [encodeOpRecord, hslc]
    exact parsePairRecord_encode h.1 h.2 seq ..

theorem wholeWithin_eq {n m : Nat} {entries : Bytes} (hn : entries.length ≤ n)
    (hm : entries.length ≤ m) : wholeWithin n entries = wholeWithin m entries := by
  induction n generalizing entries m with
  | zero =>
    have hnil : entries = [] := length_eq_zero_iff.mp (by omega)
    cases m <;> simp [wholeWithin, hnil]
  | succ n ih =>
    cases m with
    | zero =>
      have hnil : entries = [] := length_eq_zero_iff.mp (by omega)
      simp [wholeWithin, hnil]
    | succ m =>
      simp only [wholeWithin]
      split_ifs with hnil
      · rfl
      · cases hlen : entryLen entries with
        | none => rfl
        | some len =>
          have hpos := entryLen_pos hlen
          exact ih (by rw [length_drop]; omega) (by rw [length_drop]; omega)

theorem entriesAreWhole_encode (h : op.Fits) (seq : Seq) (rest : Bytes) :
    entriesAreWhole (encodeOpRecord seq op ++ rest) = entriesAreWhole rest := by
  have hlen := entryLen_encode h seq rest
  have hne := encodeOpRecord_ne_nil seq op
  have hpos := length_pos_iff.mpr hne
  obtain ⟨n, hn⟩ : ∃ n, (encodeOpRecord seq op ++ rest).length = n + 1 :=
    ⟨(encodeOpRecord seq op ++ rest).length - 1, by rw [length_append]; omega⟩
  rw [entriesAreWhole, hn, wholeWithin, if_neg (by simp [hne]), hlen]
  simp only [drop_left]
  rw [length_append] at hn
  exact wholeWithin_eq (by omega) le_rfl

theorem Group.op_fits (g : Group) {p : WriteBatchOp × Seq} (hp : p ∈ g.ops) : p.1.Fits := by
  have hmem : encodeOpRecord p.2 p.1 ∈ g.ops.map fun p => encodeOpRecord p.2 p.1 :=
    mem_map.mpr ⟨p, hp, rfl⟩
  have hle : (encodeOpRecord p.2 p.1).length ≤ maxRecordLen :=
    le_trans (sublist_flatten_of_mem hmem).length_le (flatMap_def ▸ g.fits)
  have hmax : maxRecordLen < 2 ^ 32 := by decide
  rw [length_encodeOpRecord] at hle
  rcases p with ⟨_ | _ | _ | _, seq⟩ <;>
    simp only [WriteBatchOp.payloadSize, WriteBatchOp.Fits] at hle ⊢ <;> omega

theorem entriesAreWhole_encodeGroup
    (h : ∀ p ∈ ops, p.1.Fits) : entriesAreWhole (encodeGroup ops) = true := by
  induction ops with
  | nil => rfl
  | cons p ops ih =>
    rw [forall_mem_cons] at h
    rw [encodeGroup, flatMap_cons, entriesAreWhole_encode h.1]
    exact ih h.2

theorem length_le_encodeGroup (ops : List (WriteBatchOp × Seq)) :
    ops.length ≤ (encodeGroup ops).length := by
  induction ops with
  | nil => exact le_rfl
  | cons p ops ih =>
    have hpos := length_pos_iff.mpr (encodeOpRecord_ne_nil p.2 p.1)
    rw [encodeGroup, flatMap_cons, length_append, length_cons]
    rw [encodeGroup] at ih
    omega

theorem encodeGroup_eq_nil : encodeGroup ops = [] ↔ ops = [] := by
  cases ops with
  | nil => simp [encodeGroup]
  | cons p ops => simp [encodeGroup, encodeOpRecord_ne_nil]

end RegolithStore
