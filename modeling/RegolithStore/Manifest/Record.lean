import RegolithStore.Store.Version

/-! Manifest records (`manifest.rs`). An edit batch is logged as records, each a tag byte
and its fields; a table is its own record and, when it has counted deletions, a second one
that carries them under its file id. A record decodes to what was encoded, but for the
counts, which replay joins to their table at its end. -/

namespace RegolithStore

open Lib List

inductive ManifestRecord
  | addFile (level : Nat) (metadata : SsTableMeta)
  | removeFile (level : Nat) (fileId : UInt64)
  | tableCounts (fileId : UInt64) (deletions : Deletions)
  | setLastSeq (seq : Seq)
  | setNextFileId (id : UInt64)
  | setMinWalId (id : UInt64)
  | reset (nextFileId minWalId : UInt64)
  | rangeDeletesChecked
  deriving DecidableEq

def tagAddFile : UInt8 := 1
def tagRemoveFile : UInt8 := 2
def tagLastSeq : UInt8 := 3
def tagNextFileId : UInt8 := 4
def tagMinWalId : UInt8 := 5
def tagReset : UInt8 := 6
def tagAddIngestedFile : UInt8 := 7
def tagTableCounts : UInt8 := 8
def tagRangeDeletesChecked : UInt8 := 9

/-- The records of one table at `level`: its own, then its counts when it has them. -/
def pushTable (level : Nat) (metadata : SsTableMeta) : List ManifestRecord :=
  .addFile level metadata :: (metadata.deletions.map (.tableCounts metadata.fileId)).toList

def VersionEdit.toRecords : VersionEdit → List ManifestRecord
  | addFile level file => pushTable level file.metadata
  | removeFile level fileId => [.removeFile level fileId]
  | countFile _ fileId deletions => [.tableCounts fileId deletions]
  | setLastSeq seq => [.setLastSeq seq]
  | setNextFileId id => [.setNextFileId id]
  | setMinWalId id => [.setMinWalId id]
  | reset nextFileId minWalId => [.reset nextFileId minWalId]

namespace ManifestRecord

variable {rs : List ManifestRecord} {r : ManifestRecord}

/-- Whether a batch holding this record is synced before `apply` returns. -/
def requiresSync : ManifestRecord → Bool
  | setNextFileId _ | setMinWalId _ | tableCounts .. | rangeDeletesChecked => false
  | _ => true

def encodeBytes (bytes : Bytes) : Bytes := leBytes 4 bytes.length ++ bytes

def encode : ManifestRecord → Bytes
  | addFile level m =>
    (if m.globalSeq.isSome then tagAddIngestedFile else tagAddFile) ::
      (leBytes 4 level ++ (encodeU64 m.fileId ++ (encodeBytes m.smallestKey ++
        (encodeBytes m.largestKey ++ (encodeU64 m.fileSize ++ (encodeU64 m.numEntries ++
          (m.globalSeq.map encodeU64).getD []))))))
  | removeFile level fileId => tagRemoveFile :: (leBytes 4 level ++ encodeU64 fileId)
  | tableCounts fileId d =>
    tagTableCounts :: (encodeU64 fileId ++ (encodeU64 d.points ++ (encodeU64 d.dead ++
      encodeU64 d.newestSeq)))
  | setLastSeq seq => tagLastSeq :: encodeU64 seq
  | setNextFileId id => tagNextFileId :: encodeU64 id
  | setMinWalId id => tagMinWalId :: encodeU64 id
  | reset nextFileId minWalId => tagReset :: (encodeU64 nextFileId ++ encodeU64 minWalId)
  | rangeDeletesChecked => [tagRangeDeletesChecked]

def shortRead : IoError := ⟨.unexpectedEof, "short read"⟩

variable (data : Bytes) {turns : Nat} {level : Nat}

def readU32 : Except IoError (Nat × Bytes) :=
  (readLe 4 data).elim (.error shortRead) .ok

def readU64 : Except IoError (UInt64 × Bytes) :=
  (Lib.readU64 data).elim (.error shortRead) .ok

def readBytes : Except IoError (Bytes × Bytes) :=
  (readU32 data).bind fun p => (splitBytes p.1 p.2).elim (.error shortRead) .ok

/-- The sequence an ingested table's entries read at; they start at 1. -/
def readGlobalSeq (fileId : UInt64) (data : Bytes) : Except IoError (Option Seq × Bytes) :=
  (readU64 data).bind fun p =>
    if p.1 = 0 then
      .error ⟨.invalidData, s!"manifest records ingested table {fileId.toNat} at sequence 0"⟩
    else .ok (some p.1, p.2)

def decodeAddFile (ingested : Bool) (data : Bytes) : Except IoError (ManifestRecord × Bytes) := do
  let (level, data) ← readU32 data
  validateLevelIndex level
  let (fileId, data) ← readU64 data
  let (smallestKey, data) ← readBytes data
  let (largestKey, data) ← readBytes data
  let (fileSize, data) ← readU64 data
  let (numEntries, data) ← readU64 data
  let (globalSeq, data) ← if ingested then readGlobalSeq fileId data else .ok (none, data)
  pure (addFile level ⟨fileId, smallestKey, largestKey, fileSize, numEntries, globalSeq, none⟩, data)

def decodeRemoveFile : Except IoError (ManifestRecord × Bytes) := do
  let (level, data) ← readU32 data
  validateLevelIndex level
  let (fileId, data) ← readU64 data
  pure (removeFile level fileId, data)

def decodeTableCounts : Except IoError (ManifestRecord × Bytes) := do
  let (fileId, data) ← readU64 data
  let (points, data) ← readU64 data
  let (dead, data) ← readU64 data
  let (newestSeq, data) ← readU64 data
  pure (tableCounts fileId ⟨points, dead, newestSeq⟩, data)

def decodeNumber (make : UInt64 → ManifestRecord) (data : Bytes) :
    Except IoError (ManifestRecord × Bytes) :=
  (readU64 data).map fun p => (make p.1, p.2)

def decodeReset : Except IoError (ManifestRecord × Bytes) := do
  let (nextFileId, data) ← readU64 data
  let (minWalId, data) ← readU64 data
  pure (reset nextFileId minWalId, data)

def decodeTagged (tag : UInt8) (data : Bytes) : Except IoError (ManifestRecord × Bytes) :=
  if tag = tagAddFile then decodeAddFile false data
  else if tag = tagAddIngestedFile then decodeAddFile true data
  else if tag = tagRemoveFile then decodeRemoveFile data
  else if tag = tagTableCounts then decodeTableCounts data
  else if tag = tagLastSeq then decodeNumber setLastSeq data
  else if tag = tagNextFileId then decodeNumber setNextFileId data
  else if tag = tagMinWalId then decodeNumber setMinWalId data
  else if tag = tagReset then decodeReset data
  else if tag = tagRangeDeletesChecked then .ok (rangeDeletesChecked, data)
  else .error ⟨.invalidData, s!"unknown manifest record tag: {tag.toNat}"⟩

/-- The record at the head of the data and what follows it; `none` at the end. -/
def decode : Bytes → Except IoError (Option (ManifestRecord × Bytes))
  | [] => .ok none
  | tag :: data => (decodeTagged tag data).map some

def decodeWithin : Nat → Bytes → Except IoError (List ManifestRecord)
  | 0, _ => .ok []
  | turns + 1, data =>
    match decode data with
    | .error e => .error e
    | .ok none => .ok []
    | .ok (some (r, rest)) => (decodeWithin turns rest).map (r :: ·)

/-- Every record of a batch. Each takes a byte at least. -/
def decodeAll : Except IoError (List ManifestRecord) :=
  decodeWithin data.length data

/-- The loop of `needs_sync` over the records of a batch. -/
def needsSyncWithin : Nat → Bytes → Bool
  | 0, _ => false
  | turns + 1, data =>
    match decode data with
    | .error _ => true
    | .ok none => false
    | .ok (some (r, rest)) => r.requiresSync || needsSyncWithin turns rest

/-- The record as it decodes: a table without its counts. -/
def bare : ManifestRecord → ManifestRecord
  | addFile level m => addFile level { m with deletions := none }
  | r => r

@[simp] theorem requiresSync_bare (r : ManifestRecord) : r.bare.requiresSync = r.requiresSync := by
  cases r <;> rfl

/-- A record whose fields fit their widths and which decoding does not refuse. -/
def Fits : ManifestRecord → Prop
  | addFile level m => level < maxLevels ∧ m.smallestKey.length < 2 ^ 32 ∧
      m.largestKey.length < 2 ^ 32 ∧ m.globalSeq ≠ some 0
  | removeFile level _ => level < maxLevels
  | _ => True

instance : DecidablePred Fits
  | addFile .. => inferInstanceAs (Decidable (_ ∧ _))
  | removeFile .. => inferInstanceAs (Decidable (_ < _))
  | tableCounts .. | setLastSeq _ | setNextFileId _ | setMinWalId _ | reset .. |
    rangeDeletesChecked => .isTrue trivial

theorem readU32_encode {n : Nat} (h : n < 2 ^ 32) (rest : Bytes) :
    readU32 (leBytes 4 n ++ rest) = .ok (n, rest) := by
  rw [readU32, readLe_append rest h]
  rfl

@[simp] theorem readU64_encode (x : UInt64) (rest : Bytes) :
    readU64 (encodeU64 x ++ rest) = .ok (x, rest) := by
  rw [readU64, Lib.readU64_encode]
  rfl

theorem readBytes_encode {bytes : Bytes} (h : bytes.length < 2 ^ 32) (rest : Bytes) :
    readBytes (encodeBytes bytes ++ rest) = .ok (bytes, rest) := by
  rw [readBytes, encodeBytes, append_assoc, readU32_encode h]
  simp only [Except.bind]
  rw [splitBytes_append rest rfl]
  rfl

theorem validateLevelIndex_ok (h : level < maxLevels) :
    validateLevelIndex level = .ok () := if_pos h

theorem decodeAddFile_encode {m : SsTableMeta} (h : (addFile level m).Fits)
    (rest : Bytes) : decodeAddFile m.globalSeq.isSome (leBytes 4 level ++ (encodeU64 m.fileId ++
      (encodeBytes m.smallestKey ++ (encodeBytes m.largestKey ++ (encodeU64 m.fileSize ++
        (encodeU64 m.numEntries ++ ((m.globalSeq.map encodeU64).getD [] ++ rest))))))) =
      .ok ((addFile level m).bare, rest) := by
  obtain ⟨hl, hsmall, hlarge, hseq⟩ := h
  have hmax : maxLevels < 2 ^ 32 := by decide
  obtain ⟨fileId, smallestKey, largestKey, fileSize, numEntries, globalSeq, deletions⟩ := m
  simp only [decodeAddFile, readU32_encode (hl.trans hmax), validateLevelIndex_ok hl,
    readU64_encode, readBytes_encode hsmall, readBytes_encode hlarge, bind, Except.bind]
  cases globalSeq with
  | none => rfl
  | some seq =>
    have hne : seq ≠ 0 := fun h0 => hseq (h0 ▸ rfl)
    simp [readGlobalSeq, Except.bind, hne, pure, Except.pure, bare]

/-- A record decodes to what was encoded, without its counts. -/
theorem decode_encode (h : r.Fits) (rest : Bytes) :
    decode (r.encode ++ rest) = .ok (some (r.bare, rest)) := by
  have hmax : maxLevels < 2 ^ 32 := by decide
  cases r with
  | addFile level m =>
    have hbody := decodeAddFile_encode h rest
    simp only [encode, cons_append, append_assoc, decode]
    cases hseq : m.globalSeq.isSome <;> rw [hseq] at hbody
    · rw [if_neg Bool.false_ne_true, decodeTagged, if_pos rfl, hbody]
      rfl
    · rw [if_pos rfl, decodeTagged, if_neg (by decide), if_pos rfl, hbody]
      rfl
  | removeFile level fileId =>
    have hl : level < maxLevels := h
    simp [encode, decode, decodeTagged, decodeRemoveFile, tagRemoveFile, tagAddFile,
      tagAddIngestedFile, readU32_encode (hl.trans hmax), validateLevelIndex_ok hl, bind,
      Except.bind, pure, Except.pure, Except.map, bare]
  | tableCounts fileId d =>
    simp [encode, decode, decodeTagged, decodeTableCounts, tagTableCounts, tagRemoveFile,
      tagAddFile, tagAddIngestedFile, bind, Except.bind, pure, Except.pure, Except.map, bare]
  | setLastSeq seq =>
    simp [encode, decode, decodeTagged, decodeNumber, tagLastSeq, tagTableCounts, tagRemoveFile,
      tagAddFile, tagAddIngestedFile, Except.map, bare]
  | setNextFileId id =>
    simp [encode, decode, decodeTagged, decodeNumber, tagNextFileId, tagLastSeq, tagTableCounts,
      tagRemoveFile, tagAddFile, tagAddIngestedFile, Except.map, bare]
  | setMinWalId id =>
    simp [encode, decode, decodeTagged, decodeNumber, tagMinWalId, tagNextFileId, tagLastSeq,
      tagTableCounts, tagRemoveFile, tagAddFile, tagAddIngestedFile, Except.map, bare]
  | reset nextFileId minWalId =>
    simp [encode, decode, decodeTagged, decodeReset, tagReset, tagMinWalId, tagNextFileId,
      tagLastSeq, tagTableCounts, tagRemoveFile, tagAddFile, tagAddIngestedFile, bind, Except.bind,
      pure, Except.pure, Except.map, bare]
  | rangeDeletesChecked => rfl

def encodeAll (rs : List ManifestRecord) : Bytes := rs.flatMap encode

theorem length_le_encodeAll (rs : List ManifestRecord) : rs.length ≤ (encodeAll rs).length := by
  induction rs with
  | nil => exact Nat.zero_le _
  | cons r rs ih =>
    have hpos : 0 < r.encode.length := by cases r <;> simp [encode]
    simp only [encodeAll, flatMap_cons, length_append, length_cons] at ih ⊢
    omega

theorem decodeWithin_encodeAll (h : ∀ r ∈ rs, r.Fits) (ht : rs.length ≤ turns) :
    decodeWithin turns (encodeAll rs) = .ok (rs.map bare) := by
  induction rs generalizing turns with
  | nil => cases turns <;> rfl
  | cons r rs ih =>
    rw [forall_mem_cons] at h
    obtain ⟨turns, rfl⟩ := Nat.exists_eq_add_of_le' (Nat.lt_of_lt_of_le rs.length.succ_pos ht)
    rw [encodeAll, flatMap_cons, ← encodeAll, decodeWithin, decode_encode h.1]
    simp only
    rw [ih h.2 (by simpa using ht)]
    rfl

/-- A record whose level exists and which decoding does not refuse. -/
def Sound : ManifestRecord → Prop
  | addFile level m => level < maxLevels ∧ m.globalSeq ≠ some 0
  | removeFile level _ => level < maxLevels
  | _ => True

theorem length_encode_le (h : r ∈ rs) : r.encode.length ≤ (encodeAll rs).length := by
  obtain ⟨pre, suf, rfl⟩ := append_of_mem h
  simp only [encodeAll, flatMap_append, flatMap_cons, length_append]
  omega

theorem Sound.fits (hr : r ∈ rs) (h : r.Sound) (hlen : (encodeAll rs).length < 2 ^ 32) :
    r.Fits := by
  have hle := length_encode_le hr
  cases r with
  | addFile level m =>
    have hkeys : m.smallestKey.length ≤ (addFile level m).encode.length ∧
        m.largestKey.length ≤ (addFile level m).encode.length := by
      constructor <;> cases hg : m.globalSeq <;> simp [encode, encodeBytes, hg] <;> omega
    exact ⟨h.1, by omega, by omega, h.2⟩
  | removeFile level fileId => exact h
  | tableCounts _ _ | setLastSeq _ | setNextFileId _ | setMinWalId _ | reset _ _ |
    rangeDeletesChecked => trivial

theorem needsSyncWithin_encodeAll (h : ∀ r ∈ rs, r.Fits)
    (ht : rs.length ≤ turns) : needsSyncWithin turns (encodeAll rs) = rs.any requiresSync := by
  induction rs generalizing turns with
  | nil => cases turns <;> rfl
  | cons r rs ih =>
    rw [forall_mem_cons] at h
    obtain ⟨turns, rfl⟩ := Nat.exists_eq_add_of_le' (Nat.lt_of_lt_of_le rs.length.succ_pos ht)
    rw [encodeAll, flatMap_cons, ← encodeAll, needsSyncWithin, decode_encode h.1]
    simp only
    rw [ih h.2 (by simpa using ht), requiresSync_bare, any_cons]

end ManifestRecord

end RegolithStore
