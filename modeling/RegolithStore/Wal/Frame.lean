import RegolithStore.Store.Seal
import RegolithStore.Wal.Operations

/-! Format 2 of the write-ahead log (`wal_frame.rs`, `wal_seal.rs`): its stamp and its
record frame, plain and sealed. A record is a header of 21 bytes, whose own check covers
its fields, the log's nonce and the record's offset, and a payload: the operations, or the
sealed frame that holds them. `xxh3` is a parameter. -/

namespace RegolithStore

open Lib

/-- The hashes of `checksum.rs`, each under its own domain or seed. -/
structure WalChecks where
  walStamp : (magic : Bytes) → (format reserved : Nat) → UInt32
  walStampV2 : Bytes → UInt32
  walGroupPayload : Bytes → UInt32
  headerHash : Bytes → UInt32
  walRecord : (len : Nat) → (recordType : UInt8) → Bytes → UInt32

/-- What the header check hashes and a sealed record's tag binds. -/
def walGroupHeaderInput (nonce : UInt64) (offset : Nat) (fields : Bytes) : Bytes :=
  encodeU64 nonce ++ (leBytes 8 offset ++ fields)

variable (checks : WalChecks) (nonce : UInt64) (offset : Nat)

def WalChecks.walGroupHeader (fields : Bytes) : UInt32 :=
  checks.headerHash (walGroupHeaderInput nonce offset fields)

def walMagic : Bytes := [0x52, 0x45, 0x47, 0x4F]

def walStampLen : Nat := 12
def stampLen : Nat := 24
def sealedStampLen : Nat := 56
def headerLen : Nat := 21

def formatV2 : Nat := 2
def flagSealed : Nat := 1

inductive RecordKind
  | group
  | close
  deriving DecidableEq

variable (kind : RecordKind) {sealing : Option Sealer}

namespace RecordKind

def byte : RecordKind → UInt8
  | group => 0xC0
  | close => 0xC1

def ofByte (b : UInt8) : Option RecordKind :=
  if b = byte group then some group else if b = byte close then some close else none

@[simp] theorem ofByte_byte : ofByte kind.byte = some kind := by
  cases kind <;> rfl

end RecordKind

/-- The fields every format 2 stamp begins with: magic, format, flags, head check, nonce. -/
def stampHead (flags : Nat) (nonce : UInt64) : Bytes :=
  walMagic ++ (leBytes 2 formatV2 ++ (leBytes 2 flags ++
    (encodeU32 (checks.walStamp walMagic formatV2 flags) ++ encodeU64 nonce)))

def encodeStamp : Bytes :=
  let head := stampHead checks 0 nonce
  head ++ encodeU32 (checks.walStampV2 head)

/-- The nonce of a stamp whose first 12 bytes validated. -/
def stampNonce (stamp : Bytes) : Except IoError UInt64 :=
  if leAt 4 stamp 20 = (checks.walStampV2 (slice stamp 0 20)).toNat then
    .ok (UInt64.ofNat (leAt 8 stamp 12))
  else .error ⟨.invalidData, "the write-ahead log header is damaged"⟩

def domainWal : UInt8 := 0x57
def aadStamp : UInt8 := 0
def aadRecord : UInt8 := 1

/-- What a sealed stamp's tag binds: its first 28 bytes. -/
def stampAad (stamp : Bytes) : Bytes := domainWal :: aadStamp :: slice stamp 0 28

/-- The sealed stamp's fields and their check: all that precedes the AEAD nonce. -/
def sealedStampFields (id : UInt32) : Bytes :=
  let head := stampHead checks flagSealed nonce ++ encodeU32 id
  head ++ encodeU32 (checks.walStampV2 head)

def encodeSealedStamp (sealer : Sealer)
    (aeadNonce : AeadNonce) : Except IoError Bytes :=
  let fields := sealedStampFields checks nonce sealer.id
  (sealer.sealWith aeadNonce (stampAad fields) []).map fun sealed =>
    fields ++ (aeadNonce.bytes ++ sealed.2)

/-- Whether the 24 bytes a sealed stamp's check covers verify. -/
def stampCheckHolds (stamp : Bytes) : Bool :=
  28 ≤ stamp.length ∧ leAt 4 stamp 24 = (checks.walStampV2 (slice stamp 0 24)).toNat

/-- The nonce of a sealed stamp, and the sealer its records open under. -/
def openStamp (path : String) (keyring : Option Keyring) (stamp : Bytes) :
    Except IoError (UInt64 × Sealer) :=
  if !stampCheckHolds checks stamp then
    .error ⟨.invalidData, s!"{path}: the write-ahead log header is damaged"⟩
  else match keyring with
    | none =>
      .error ⟨.other, "this database is encrypted; open it with Options::key_provider"⟩
    | some keyring => do
      let id := UInt32.ofNat (leAt 4 stamp 20)
      let sealer ← keyring.sealer id
      match sealer.decrypt (slice stamp 28 nonceLen) (stampAad stamp) [] (slice stamp 40 tagLen) with
      | some _ => .ok (UInt64.ofNat (leAt 8 stamp 12), sealer)
      | none => .error ⟨.invalidData, s!"{path}: the write-ahead log header does not verify " ++
          s!"under key id {id.toNat}; the key is wrong or the header is damaged"⟩

structure Header where
  len : Nat
  kind : RecordKind
  syncedThrough : Nat
  payloadCheck : UInt32
  deriving DecidableEq

variable {h : Header}

namespace Header

def recordLen (h : Header) : Nat := headerLen + h.len

/-- The offset the record proves durable: its stamp, or for CLOSE the whole file. -/
def proves (h : Header) (fileLen : Nat) : Nat :=
  match h.kind with
  | .close => fileLen
  | .group => h.syncedThrough

theorem proves_group (hk : h.kind = .group) (fileLen : Nat) :
    h.proves fileLen = h.syncedThrough := by
  rw [proves, hk]

def fields (h : Header) : Bytes :=
  leBytes 4 h.len ++ (h.kind.byte :: (leBytes 8 h.syncedThrough ++ encodeU32 h.payloadCheck))

/-- The header as it is written at `offset` of the log stamped with `nonce`. -/
def encode (h : Header) : Bytes :=
  h.fields ++ encodeU32 (checks.walGroupHeader nonce offset h.fields)

def payloadMatches (h : Header) (payload : Bytes) : Bool :=
  checks.walGroupPayload payload = h.payloadCheck

end Header

/-- The header `encode_header` frames a plain payload with. -/
def plainHeader (payload : Bytes) (syncedThrough : Nat) :
    Header :=
  ⟨payload.length, kind, syncedThrough, checks.walGroupPayload payload⟩

def encodeHeader (payload : Bytes) (syncedThrough : Nat)
    (nonce : UInt64) (offset : Nat) : Bytes :=
  (plainHeader checks kind payload syncedThrough).encode checks nonce offset

/-- Whether `kind` and `len` are a shape a sealed log's writer produces. -/
def sealedLenOk (len : Nat) : Bool :=
  match kind with
  | .close => len = overhead
  | .group => overhead < len

/-- Whether the header keeps the writer's own rules. -/
def Header.shapeOk (h : Header) (isSealed : Bool) : Bool :=
  if isSealed then
    h.len ≤ maxRecordLen + overhead && h.payloadCheck = 0 && sealedLenOk h.kind h.len
  else h.len ≤ maxRecordLen && (h.kind ≠ .close || h.len = 0)

/-- The header at the start of `bytes`, read at `offset` of the log stamped with `nonce`. -/
def decodeHeader (bytes : Bytes) (nonce : UInt64) (offset : Nat)
    (isSealed : Bool) : Option Header :=
  if bytes.length < headerLen then none
  else
    (RecordKind.ofByte (bytes.getD 4 0)).bind fun kind =>
      if leAt 4 bytes 17 ≠ (checks.walGroupHeader nonce offset (slice bytes 0 17)).toNat then none
      else
        let h : Header := ⟨leAt 4 bytes 0, kind, leAt 8 bytes 5, UInt32.ofNat (leAt 4 bytes 13)⟩
        if !h.shapeOk isSealed || offset < h.syncedThrough then none else some h

structure Place where
  offset : Nat
  len : Nat
  /-- The log's write epoch when the commit was decided. -/
  epoch : Nat
  deriving DecidableEq

def Place.stop (place : Place) : Nat := place.offset + place.len

/-- What a sealed record's tag binds besides its payload. -/
def recordAad (fields : Bytes) : Bytes :=
  domainWal :: aadRecord :: walGroupHeaderInput nonce offset fields

/-- The header of a sealed record: its length counts the frame, and the tag takes the place
of the payload check. -/
def sealedHeader (payload : Bytes) (syncedThrough : Nat) : Header :=
  ⟨payload.length + overhead, kind, syncedThrough, 0⟩

/-- `frame_record`: a sealed record, header included. -/
def frameRecord (sealer : Sealer) (kind : RecordKind) (payload : Bytes)
    (syncedThrough : Nat) (nonce : UInt64) (offset : Nat) (aeadNonce : AeadNonce) :
    Except IoError Bytes :=
  let header := sealedHeader kind payload syncedThrough
  if 2 ^ 32 ≤ header.len then
    .error ⟨.other, "a write-ahead log record is too large to seal"⟩
  else
    (sealer.sealFrame aeadNonce (recordAad nonce offset header.fields) payload).map fun body =>
      header.encode checks nonce offset ++ body

/-- `open_record`: the operations of a sealed payload. -/
def openRecord (sealer : Sealer) (fields : Bytes) (nonce : UInt64) (offset : Nat)
    (payload : Bytes) : Option Bytes :=
  sealer.openFrame (recordAad nonce offset fields) payload

/-- The operations of the record whose header verified, when its payload does. -/
def openPayload (sealing : Option Sealer) (nonce : UInt64) (offset : Nat)
    (header : Header) (payload : Bytes) : Option Bytes :=
  match sealing with
  | some sealer => openRecord sealer header.fields nonce offset payload
  | none => if header.payloadMatches checks payload then some payload else none

@[simp] theorem Header.length_fields (h : Header) : h.fields.length = 17 := by
  simp [fields]

@[simp] theorem Header.length_encode
    (h : Header) : (h.encode checks nonce offset).length = headerLen := by
  simp [encode, headerLen]

/-- A header the writer can produce at `offset`. -/
structure Header.Valid (h : Header) (offset : Nat) (isSealed : Bool) : Prop where
  len_lt : h.len < 2 ^ 32
  synced_le : h.syncedThrough ≤ offset
  offset_lt : offset < 2 ^ 64
  shape : h.shapeOk isSealed = true

/-- A header decodes where it was written. -/
theorem decodeHeader_encode {offset : Nat} {isSealed : Bool}
    (hv : h.Valid offset isSealed) (nonce : UInt64) (rest : Bytes) :
    decodeHeader checks (h.encode checks nonce offset ++ rest) nonce offset isSealed =
      some h := by
  have hs : h.syncedThrough < 256 ^ 8 := lt_of_le_of_lt hv.synced_le hv.offset_lt
  have hb : h.encode checks nonce offset ++ rest =
      leBytes 4 h.len ++ ([h.kind.byte] ++ (leBytes 8 h.syncedThrough ++
        (encodeU32 h.payloadCheck ++
          (encodeU32 (checks.walGroupHeader nonce offset h.fields) ++ rest)))) := by
    simp [Header.encode, Header.fields]
  have hfields : slice (h.encode checks nonce offset ++ rest) 0 17 = h.fields := by
    rw [Header.encode, List.append_assoc, slice_append_left h.length_fields]
  have hc : leAt 4 (h.encode checks nonce offset ++ rest) 17 =
      (checks.walGroupHeader nonce offset h.fields).toNat := by
    rw [Header.encode, List.append_assoc, ← Nat.add_zero 17, leAt_append_right h.length_fields,
      leAt_encodeU32]
  have hlen : leAt 4 (h.encode checks nonce offset ++ rest) 0 = h.len := by
    rw [hb, leAt_leBytes hv.len_lt]
  have hk : (h.encode checks nonce offset ++ rest).getD 4 0 = h.kind.byte := by
    rfl
  have hthru : leAt 8 (h.encode checks nonce offset ++ rest) 5 = h.syncedThrough := by
    rw [hb, show 5 = 4 + (1 + 0) from rfl, leAt_append_right (length_leBytes 4 _),
      leAt_append_right (List.length_singleton), leAt_leBytes hs]
  have hpayload : leAt 4 (h.encode checks nonce offset ++ rest) 13 = h.payloadCheck.toNat := by
    rw [hb, show 13 = 4 + (1 + (8 + 0)) from rfl, leAt_append_right (length_leBytes 4 _),
      leAt_append_right (List.length_singleton), leAt_append_right (length_leBytes 8 _),
      leAt_encodeU32]
  have hlong : ¬ (h.encode checks nonce offset ++ rest).length < headerLen := by simp
  simp only [decodeHeader, if_neg hlong, hfields, hc, hlen, hk, hthru, hpayload,
    RecordKind.ofByte_byte, Option.bind_some, UInt32.ofNat_toNat, ne_eq, not_true_eq_false,
    if_false, hv.shape, Bool.not_true, Bool.false_or, decide_eq_true_eq]
  rw [if_neg (not_lt.mpr hv.synced_le)]

/-- A record as it was written: its header, the bytes after it, and the operations they
hold. -/
structure LogRecord where
  header : Header
  body : Bytes
  ops : List (WriteBatchOp × Seq)

namespace LogRecord

def frame (r : LogRecord) : Bytes :=
  r.header.encode checks nonce offset ++ r.body

def entries (r : LogRecord) : List WalEntry := r.ops.map fun p => p.1.entry p.2

/-- The record verifies where it was written. -/
structure Written (checks : WalChecks) (sealing : Option Sealer) (nonce : UInt64) (offset : Nat)
    (r : LogRecord) : Prop where
  len_eq : r.header.len = r.body.length
  valid : r.header.Valid offset sealing.isSome
  opens : openPayload checks sealing nonce offset r.header r.body = some (encodeGroup r.ops)
  fits : ∀ p ∈ r.ops, p.1.Fits
  ops_le : r.ops.length ≤ r.body.length

theorem frame_ne_nil (r : LogRecord) : r.frame checks nonce offset ≠ [] := by
  intro h
  have hlen := congrArg List.length h
  simp [frame, headerLen] at hlen

theorem Written.length_frame {checks : WalChecks} {nonce : UInt64}
    {offset : Nat} {r : LogRecord} (h : r.Written checks sealing nonce offset) :
    (r.frame checks nonce offset).length = r.header.recordLen := by
  simp [frame, Header.recordLen, h.len_eq]

end LogRecord

/-- What `write_record` writes: the record's bytes, sealed when the log is. -/
def recordBytes (sealing : Option Sealer) (kind : RecordKind) (payload : Bytes)
    (syncedThrough : Nat) (nonce : UInt64) (offset : Nat) (aeadNonce : AeadNonce) :
    Except IoError Bytes :=
  match sealing with
  | some sealer => frameRecord checks sealer kind payload syncedThrough nonce offset aeadNonce
  | none => .ok (encodeHeader checks kind payload syncedThrough nonce offset ++ payload)

/-- What a writer may put into a record of this kind: a commit that has operations, or
nothing at a close. -/
def RecordKind.Carries : RecordKind → Bytes → Prop
  | group, payload => payload ≠ []
  | close, payload => payload = []

/-- What is written is a record that verifies there. -/
theorem recordBytes_eq_ok {checks : WalChecks} {kind : RecordKind} {g : Group}
    {syncedThrough offset : Nat} {nonce : UInt64} {aeadNonce : AeadNonce} {bytes : Bytes}
    (hcarr : kind.Carries g.encode) (hsyn : syncedThrough ≤ offset) (hoff : offset < 2 ^ 64)
    (h : recordBytes checks sealing kind g.encode syncedThrough nonce offset aeadNonce =
      .ok bytes) :
    ∃ r : LogRecord, bytes = r.frame checks nonce offset ∧ r.ops = g.ops ∧
      r.header.kind = kind ∧ r.header.syncedThrough = syncedThrough ∧
      r.Written checks sealing nonce offset := by
  have hmax : maxRecordLen + overhead < 2 ^ 32 := by decide
  have hf : g.encode.length ≤ maxRecordLen := g.fits
  have hops : g.ops.length ≤ g.encode.length := length_le_encodeGroup g.ops
  cases sealing with
  | none =>
    simp only [recordBytes, Except.ok.injEq] at h
    refine ⟨⟨plainHeader checks kind g.encode syncedThrough, g.encode, g.ops⟩, h.symm, rfl, rfl,
      rfl, rfl, ⟨?_, hsyn, hoff, ?_⟩, ?_, fun p hp => g.op_fits hp, hops⟩
    · simp only [plainHeader]
      omega
    · cases kind <;> simp_all [Header.shapeOk, plainHeader, RecordKind.Carries]
    · simp [openPayload, Header.payloadMatches, plainHeader, Group.encode]
  | some sealer =>
    simp only [recordBytes, frameRecord] at h
    split_ifs at h with hlarge
    cases hs : sealer.sealFrame aeadNonce
        (recordAad nonce offset (sealedHeader kind g.encode syncedThrough).fields) g.encode with
    | error e => simp [hs, Except.map] at h
    | ok body =>
      simp only [hs, Except.map, Except.ok.injEq] at h
      have hbody := Sealer.length_sealFrame hs
      refine ⟨⟨sealedHeader kind g.encode syncedThrough, body, g.ops⟩, h.symm, rfl, rfl, rfl,
        hbody.symm, ⟨not_le.mp hlarge, hsyn, hoff, ?_⟩,
        Sealer.openFrame_sealFrame hs, fun p hp => g.op_fits hp, by simp only; omega⟩
      have hpos : g.encode ≠ [] → 0 < g.encode.length := List.length_pos_iff.mpr
      cases kind <;> simp_all [Header.shapeOk, sealedHeader, sealedLenOk, RecordKind.Carries]

end RegolithStore
