import RegolithStore.Manifest.Record
import RegolithStore.Store.Seal

/-! Manifest files (`manifest.rs`, `manifest/sealed.rs`, `manifest/tail.rs`): a stamp, then
batches. A batch is the records of one edit under one length and one checksum; in a sealed
manifest they are one frame under the key the batch names, bound to the manifest's salt and
to the batch's offset. A whole manifest can be one such batch, which names the version. The
checksum is a parameter. -/

namespace RegolithStore

open Lib List ManifestRecord

variable {data bytes : Bytes}

/-- `checksum::manifest_record`. -/
structure ManifestChecks where
  manifestRecord : (len : Nat) → Bytes → UInt32

def manifestMagic : Bytes := [0x52, 0x45, 0x47, 0x4F, 0x4D, 0x41, 0x4E]

def manifestFormatV1 : UInt8 := 1
def manifestFormatSealed : UInt8 := 2

def manifestStampLen : Nat := 12
def manifestSealedStampLen : Nat := 28
def saltLen : Nat := 16

structure Salt where
  bytes : Bytes
  length_eq : bytes.length = saltLen

/-- What every batch of a sealed manifest is sealed with. -/
structure ManifestSeal where
  keyring : Keyring
  salt : Salt

variable {aeadNonce : AeadNonce} {offset : Nat}

namespace Manifest

variable (checks : ManifestChecks)

/-- `VersionSet::encode_stamp` and `sealed::encode_stamp`: magic, format and salt, and their
checksum. -/
def stampBytes (salt : Option Salt) : Bytes :=
  let head := match salt with
    | some salt => manifestMagic ++ manifestFormatSealed :: salt.bytes
    | none => manifestMagic ++ [manifestFormatV1]
  head ++ encodeU32 (checks.manifestRecord 0 head)

/-- `sealed::decode_stamp`: the salt, or `none` when the file is too short to hold it. -/
def decodeSealedStamp (data : Bytes) : Except IoError (Option Salt) :=
  if h : manifestSealedStampLen ≤ data.length then
    if leAt 4 data 24 ≠ (checks.manifestRecord 0 (slice data 0 24)).toNat then
      .error ⟨.invalidData, "MANIFEST stamp checksum mismatch"⟩
    else .ok (some ⟨slice data 8 saltLen, by
      simp only [slice, saltLen, manifestSealedStampLen, length_take, length_drop] at *
      omega⟩)
  else .ok none

/-- `stamp_len`: the bytes the stamp takes, none when the file is too short to hold one. -/
def stampLen (data : Bytes) (keyring : Option Keyring) : Except IoError (Nat × Option Salt) :=
  if data.length < manifestStampLen then .ok (0, none)
  else if slice data 0 7 ≠ manifestMagic then
    .error ⟨.invalidData, "MANIFEST does not begin with the REGOMAN stamp"⟩
  else
    let format := data.getD 7 0
    if format = manifestFormatSealed then
      match decodeSealedStamp checks data with
      | .error e => .error e
      | .ok none => .ok (0, none)
      | .ok (some salt) =>
        if keyring.isNone then
          .error ⟨.other, "this database is encrypted; open it with Options::key_provider"⟩
        else .ok (manifestSealedStampLen, some salt)
    else if leAt 4 data 8 ≠ (checks.manifestRecord 0 (slice data 0 8)).toNat then
      .error ⟨.invalidData, "MANIFEST stamp checksum mismatch"⟩
    else if manifestFormatSealed < format then
      .error ⟨.invalidData, s!"MANIFEST format {format.toNat} was written by a newer regolith " ++
        s!"than this build, which understands up to {manifestFormatSealed.toNat}"⟩
    else .ok (manifestStampLen, none)

/-- A batch around its body: length, body and checksum. -/
def frameBatch (body : Bytes) : Bytes :=
  leBytes 4 body.length ++ (body ++ encodeU32 (checks.manifestRecord body.length body))

def domainManifest : UInt8 := 0x4D

/-- What a sealed batch's tag binds besides its records. -/
def aad (salt : Salt) (offset : Nat) (id : UInt32) : Bytes :=
  domainManifest :: (salt.bytes ++ (leBytes 8 offset ++ encodeU32 id))

def batchTooLong : IoError := ⟨.invalidInput, "MANIFEST edit batch exceeds u32 length"⟩

def encodeBatch (sealer : Sealer) (salt : Salt) (offset : Nat) (plain : Bytes)
    (aeadNonce : AeadNonce) : Except IoError Bytes :=
  if 2 ^ 32 ≤ 4 + plain.length + overhead then .error batchTooLong
  else (sealer.sealFrame aeadNonce (aad salt offset sealer.id) plain).map fun frame =>
    frameBatch checks (encodeU32 sealer.id ++ frame)

/-- The batch of `records` at `offset`, and the key it is sealed under. -/
def encodeRecords (records : List ManifestRecord) (offset : Nat) (sealing : Option ManifestSeal)
    (aeadNonce : AeadNonce) : Except IoError (Bytes × Option UInt32) :=
  if records = [] then .ok ([], none)
  else
    let plain := encodeAll records
    match sealing with
    | some sealing =>
      sealing.keyring.current.bind fun sealer =>
        (encodeBatch checks sealer sealing.salt offset plain aeadNonce).map fun bytes =>
          (bytes, some sealer.id)
    | none =>
      if plain.length < 2 ^ 32 then .ok (frameBatch checks plain, none) else .error batchTooLong

/-- `sealed::open_batch`: the key the batch names, and its records' bytes. -/
def openBatch (keyring : Keyring) (salt : Salt) (offset : Nat) (body : Bytes) :
    Except IoError (UInt32 × Bytes) :=
  if body.length < 4 then
    .error ⟨.invalidData, s!"MANIFEST: the edit batch at offset {offset} is too short to be sealed"⟩
  else
    let id := UInt32.ofNat (leAt 4 body 0)
    (keyring.sealer id).bind fun sealer =>
      match sealer.openFrame (aad salt offset id) (body.drop 4) with
      | some plain => .ok (id, plain)
      | none => .error ⟨.invalidData, s!"MANIFEST: the edit batch at offset {offset} does not " ++
          s!"verify under key id {id.toNat}; the key is wrong or the file is damaged"⟩

structure Batch where
  records : Bytes
  stop : Nat
  deriving DecidableEq

/-- The batch at `at_`, when the file has all of it and its checksum holds. -/
def batchAt (data : Bytes) (at_ : Nat) : Option Batch :=
  if data.length < at_ + 4 then none
  else
    let len := leAt 4 data at_
    if data.length < at_ + (4 + len + 4) then none
    else
      let records := slice data (at_ + 4) len
      if leAt 4 data (at_ + (4 + len)) = (checks.manifestRecord len records).toNat then
        some ⟨records, at_ + (4 + len + 4)⟩
      else none

/-- The records of an image: the counters, then every table, level by level. -/
def imageRecords (nextFileId : UInt64) (lastSeq : Seq) (minWalId : UInt64)
    (rangeDeletesChecked : Bool) (files : List (Nat × SsTableMeta)) : List ManifestRecord :=
  [.setNextFileId nextFileId, .setLastSeq lastSeq, .setMinWalId minWalId] ++
    (if rangeDeletesChecked then [.rangeDeletesChecked] else []) ++
      files.flatMap fun f => pushTable f.1 f.2

/-- `encode_image`: the stamp and one batch, and the key it is sealed under. -/
def encodeImage (nextFileId : UInt64) (lastSeq : Seq) (minWalId : UInt64)
    (rangeDeletesChecked : Bool) (files : List (Nat × SsTableMeta)) (sealing : Option ManifestSeal)
    (aeadNonce : AeadNonce) : Except IoError (Bytes × Option UInt32) :=
  (files.forM fun f => validateLevelIndex f.1).bind fun _ =>
    let stamp := stampBytes checks (sealing.map ManifestSeal.salt)
    (encodeRecords checks
      (imageRecords nextFileId lastSeq minWalId rangeDeletesChecked files) stamp.length sealing
      aeadNonce).map fun batch => (stamp ++ batch.1, batch.2)

/-- The records' bytes of the body of the batch at `offset`, and the key it names; the body
itself in a manifest that is not sealed. -/
def openRecords (sealing : Option ManifestSeal) (offset : Nat) (body : Bytes) :
    Except IoError (Option UInt32 × Bytes) :=
  match sealing with
  | some s => (openBatch s.keyring s.salt offset body).map fun p => (some p.1, p.2)
  | none => .ok (none, body)

variable {checks}

@[simp] theorem length_stampBytes_none : (stampBytes checks none).length = manifestStampLen := by
  simp [stampBytes, manifestMagic, manifestStampLen]

@[simp] theorem length_stampBytes_some (salt : Salt) :
    (stampBytes checks (some salt)).length = manifestSealedStampLen := by
  simp [stampBytes, manifestMagic, manifestSealedStampLen, salt.length_eq, saltLen]

variable (checks) in
theorem stampLen_plain (keyring : Option Keyring) (rest : Bytes) :
    stampLen checks (stampBytes checks none ++ rest) keyring = .ok (manifestStampLen, none) := by
  have hh : (manifestMagic ++ [manifestFormatV1]).length = 8 := rfl
  have hlen : ¬ (stampBytes checks none ++ rest).length < manifestStampLen := by
    rw [length_append, length_stampBytes_none]
    omega
  have hmagic : slice (stampBytes checks none ++ rest) 0 7 = manifestMagic := rfl
  have hformat : (stampBytes checks none ++ rest).getD 7 0 = manifestFormatV1 := rfl
  have hfields : slice (stampBytes checks none ++ rest) 0 8 = manifestMagic ++ [manifestFormatV1] :=
    rfl
  have hc : leAt 4 (stampBytes checks none ++ rest) 8 =
      (checks.manifestRecord 0 (manifestMagic ++ [manifestFormatV1])).toNat := by
    rw [stampBytes, append_assoc, ← Nat.add_zero 8, leAt_append_right hh, leAt_encodeU32]
  simp only [stampLen, if_neg hlen, hmagic, hformat, hfields, hc, ne_eq, not_true_eq_false,
    if_false]
  rfl

variable (checks) in
theorem stampLen_sealed (salt : Salt) {keyring : Option Keyring} (hkr : keyring.isSome)
    (rest : Bytes) : stampLen checks (stampBytes checks (some salt) ++ rest) keyring =
      .ok (manifestSealedStampLen, some salt) := by
  set head := manifestMagic ++ manifestFormatSealed :: salt.bytes with hh
  have hheadLen : head.length = 24 := by simp [hh, manifestMagic, salt.length_eq, saltLen]
  have hb : stampBytes checks (some salt) ++ rest =
      head ++ (encodeU32 (checks.manifestRecord 0 head) ++ rest) := by
    rw [stampBytes, append_assoc]
  have hlong : manifestSealedStampLen ≤ (stampBytes checks (some salt) ++ rest).length := by
    rw [length_append, length_stampBytes_some]
    omega
  have hsht : ¬ (stampBytes checks (some salt) ++ rest).length < manifestStampLen :=
    not_lt.mpr (le_trans (by decide) hlong)
  have hmagic : slice (stampBytes checks (some salt) ++ rest) 0 7 = manifestMagic := rfl
  have hformat : (stampBytes checks (some salt) ++ rest).getD 7 0 = manifestFormatSealed := rfl
  have hfields : slice (stampBytes checks (some salt) ++ rest) 0 24 = head := by
    rw [hb, slice_append_left hheadLen]
  have hc : leAt 4 (stampBytes checks (some salt) ++ rest) 24 =
      (checks.manifestRecord 0 head).toNat := by
    rw [hb, ← Nat.add_zero 24, leAt_append_right hheadLen, leAt_encodeU32]
  have hsalt : slice (stampBytes checks (some salt) ++ rest) 8 saltLen = salt.bytes := by
    rw [hb, hh, show manifestMagic ++ manifestFormatSealed :: salt.bytes =
      (manifestMagic ++ [manifestFormatSealed]) ++ salt.bytes by simp, append_assoc,
      show 8 = 8 + 0 from rfl, slice_append_right (by rfl), slice_append_left salt.length_eq]
  have hdecode : decodeSealedStamp checks (stampBytes checks (some salt) ++ rest) =
      .ok (some salt) := by
    rw [decodeSealedStamp, dif_pos hlong, hfields, hc, if_neg (by simp)]
    simp only [hsalt]
  have hs : keyring.isNone = false := by simpa using hkr
  simp only [stampLen, if_neg hsht, hmagic, hformat, hdecode, hs, ne_eq, not_true_eq_false,
    if_false, if_true, Bool.false_eq_true]

/-- A batch the file holds whole is read. -/
theorem batchAt_of_holds {body : Bytes} (hlen : body.length < 2 ^ 32)
    (h : Holds data offset (frameBatch checks body)) :
    batchAt checks data offset = some ⟨body, offset + (frameBatch checks body).length⟩ := by
  have hf : (frameBatch checks body).length = 4 + body.length + 4 := by
    simp [frameBatch]
    omega
  have hend := h.end_le (by rw [← length_pos_iff]; omega)
  obtain ⟨rest, hr⟩ := h
  have hslc : ∀ i w, slice data (offset + i) w = slice (frameBatch checks body ++ rest) i w := by
    intro i w
    rw [slice, slice, ← drop_drop, ← hr]
  have hfield : ∀ i w, leAt w data (offset + i) = leAt w (frameBatch checks body ++ rest) i := by
    intro i w
    rw [leAt, leAt, hslc]
  have hbody : slice data (offset + 4) body.length = body := by
    rw [hslc, frameBatch, append_assoc, append_assoc, ← Nat.add_zero 4,
      slice_append_right (length_leBytes 4 _), slice_append_left rfl]
  have hlenAt : leAt 4 data offset = body.length := by
    rw [← Nat.add_zero offset, hfield, frameBatch, append_assoc, leAt_leBytes hlen]
  have hc : leAt 4 data (offset + (4 + body.length)) =
      (checks.manifestRecord body.length body).toNat := by
    rw [hfield, frameBatch, append_assoc, leAt_append_right (length_leBytes 4 _),
      append_assoc, ← Nat.add_zero body.length, leAt_append_right rfl, Nat.add_zero,
      leAt_encodeU32]
  simp only [batchAt, hlenAt, hbody, hc, if_true]
  rw [if_neg (by omega), if_neg (by omega), hf]

theorem lt_stop_of_batchAt {at_ : Nat} {batch : Batch} (h : batchAt checks data at_ = some batch) :
    at_ + 8 ≤ batch.stop ∧ batch.stop ≤ data.length := by
  simp only [batchAt] at h
  split_ifs at h with hfield hlen hc
  rw [← Option.some.inj h]
  dsimp only
  omega

/-- A sealed batch opens where it was sealed. -/
theorem openBatch_encodeBatch {keyring : Keyring} {sealer : Sealer} {salt : Salt}
    {plain : Bytes} (hkey : keyring.sealer sealer.id = .ok sealer)
    (h : encodeBatch checks sealer salt offset plain aeadNonce = .ok bytes) :
    ∃ body, bytes = frameBatch checks body ∧ body.length < 2 ^ 32 ∧
      plain.length ≤ body.length ∧
      openBatch keyring salt offset body = .ok (sealer.id, plain) := by
  rw [encodeBatch] at h
  split_ifs at h with hlarge
  cases hs : sealer.sealFrame aeadNonce (aad salt offset sealer.id) plain with
  | error e => simp [hs, Except.map] at h
  | ok frame =>
    simp only [hs, Except.map, Except.ok.injEq] at h
    have hf := Sealer.length_sealFrame hs
    have hlen : (encodeU32 sealer.id ++ frame).length = 4 + frame.length := by simp
    have hid : UInt32.ofNat (leAt 4 (encodeU32 sealer.id ++ frame) 0) = sealer.id := by
      rw [leAt_encodeU32, UInt32.ofNat_toNat]
    have hd : (encodeU32 sealer.id ++ frame).drop 4 = frame := by
      rw [← length_encodeU32 sealer.id, drop_left]
    refine ⟨encodeU32 sealer.id ++ frame, h.symm, by omega, by omega, ?_⟩
    simp only [openBatch, hid, hd, hkey, Except.bind, Sealer.openFrame_sealFrame hs]
    rw [if_neg (by omega)]

end Manifest

/-- A batch as it was written: its records, and its body. -/
structure ManifestBatch where
  records : List ManifestRecord
  body : Bytes

namespace ManifestBatch

def frame (checks : ManifestChecks) (_offset : Nat) (b : ManifestBatch) : Bytes :=
  Manifest.frameBatch checks b.body

structure Written (sealing : Option ManifestSeal) (offset : Nat) (b : ManifestBatch) : Prop where
  body_lt : b.body.length < 2 ^ 32
  opens : ∃ id, Manifest.openRecords sealing offset b.body =
    .ok (id, encodeAll b.records)
  fits : ∀ r ∈ b.records, r.Fits

theorem frame_ne_nil (checks : ManifestChecks) (offset : Nat) (b : ManifestBatch) :
    b.frame checks offset ≠ [] := by
  intro h
  have hlen := congrArg List.length h
  simp [frame, Manifest.frameBatch] at hlen

theorem exists_of_encodeRecords {checks : ManifestChecks} {records : List ManifestRecord} {sealing : Option ManifestSeal}
    {sealedUnder : Option UInt32} (hne : records ≠ []) (hs : ∀ r ∈ records, r.Sound)
    (h : Manifest.encodeRecords checks records offset sealing aeadNonce = .ok (bytes, sealedUnder)) :
    ∃ b : ManifestBatch, b.records = records ∧ b.frame checks offset = bytes ∧
      b.Written sealing offset := by
  rw [Manifest.encodeRecords, if_neg hne] at h
  cases sealing with
  | none =>
    dsimp only at h
    split_ifs at h with hlen
    obtain ⟨rfl, -⟩ := Prod.mk.inj (Except.ok.inj h)
    exact ⟨⟨records, encodeAll records⟩, rfl, rfl, hlen, ⟨none, rfl⟩,
      fun r hr => (hs r hr).fits hr hlen⟩
  | some s =>
    cases hkey : s.keyring.current with
    | error e => simp [hkey, Except.bind] at h
    | ok sealer =>
      have hid : s.keyring.sealer sealer.id = .ok sealer := by
        rw [Keyring.current] at hkey
        rw [Keyring.sealer_id hkey, hkey]
      cases hb : Manifest.encodeBatch checks sealer s.salt offset
          (encodeAll records) aeadNonce with
      | error e => simp [hkey, hb, Except.bind, Except.map] at h
      | ok encoded =>
        simp only [hkey, hb, Except.bind, Except.map, Except.ok.injEq, Prod.mk.injEq] at h
        obtain ⟨body, hbody, hlen, hp, ho⟩ := Manifest.openBatch_encodeBatch hid hb
        refine ⟨⟨records, body⟩, rfl, hbody.symm.trans h.1, hlen, ⟨some sealer.id, ?_⟩,
          fun r hr => (hs r hr).fits hr (hp.trans_lt hlen)⟩
        simp only [Manifest.openRecords, ho, Except.map]

end ManifestBatch

end RegolithStore
