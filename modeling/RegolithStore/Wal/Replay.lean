import RegolithStore.Wal.FormatOne
import RegolithStore.Wal.Scan

/-! Replay of one write-ahead log file (`wal_replay.rs`). The stamp says how the records
are framed. In a format 2 log every unusable record is alike: in an earlier log it is
damage; in the newest it ends the log, unless a usable record in the file proves a byte
past it synced. Replay is drained to its end, as recovery does, one turn of the reader's
loop at a time. -/

namespace RegolithStore

open Lib List LogRecord

variable {checks : WalChecks} {nonce : UInt64}

variable {aeadNonce : AeadNonce} {sealer : Sealer} {stamp : Bytes} {k : Keyring} {flags : Nat}

inductive WalPosition
  | newest
  | earlier
  deriving DecidableEq

inductive Framing
  | unstamped
  | v1
  | v2 (nonce : UInt64)
  deriving DecidableEq

structure WalReplayIter where
  file : Bytes
  path : String
  fileLen : Nat
  consumed : Nat
  /-- What is left of the current format 2 group. -/
  group : Bytes
  sealing : Option Sealer
  /-- Entries decoded from the current format 1 record. -/
  pending : List WalEntry
  tail : Option TailVerdict
  position : WalPosition
  framing : Framing
  closed : Bool
  /-- Where the record stood that the current call of `next_v1_entry` began with. -/
  recordStart : Nat

/-- The format the first 12 bytes name; `none` for a log with no stamp. -/
def validateWalStamp (checks : WalChecks) (bytes : Bytes) : Except IoError (Option Nat) :=
  if bytes.length < walStampLen ∨ slice bytes 0 4 ≠ walMagic then .ok none
  else
    let format := leAt 2 bytes 4
    let reserved := leAt 2 bytes 6
    if leAt 4 bytes 8 ≠ (checks.walStamp walMagic format reserved).toNat then
      .error ⟨.invalidData, "the write-ahead log header is damaged"⟩
    else if format = 0 ∨ formatV2 < format then
      .error ⟨.invalidData, s!"the write-ahead log is in format {format}, which this version of " ++
        "regolith cannot read; open it with the version that wrote it"⟩
    else .ok (some format)

/-- Whether the first bytes of a log whose magic is wrong still hold a stamp that was
written whole. -/
def stampWasWritten (checks : WalChecks) (head : Bytes) : Bool :=
  if head.length < walStampLen ∨ slice head 0 4 = walMagic then false
  else
    let fixed := walMagic ++ slice head 4 (stampLen - 4) ++
      List.replicate (stampLen - head.length) 0
    if leAt 4 fixed 8 = (checks.walStamp walMagic (leAt 2 fixed 4) (leAt 2 fixed 6)).toNat then true
    else if stampCheckHolds checks (walMagic ++ head.drop 4) then true
    else if head.length < stampLen then false
    else (stampNonce checks fixed).isOk ||
      (decodeHeader checks (head.drop stampLen) (UInt64.ofNat (leAt 8 fixed 12)) stampLen
        false).isSome

def atPath (path : String) (e : IoError) : IoError := ⟨e.kind, s!"{path}: {e.message}"⟩

/-- `{:#x}`. -/
def hexText (n : Nat) : String := "0x" ++ String.ofList (Nat.toDigits 16 n)

/-- The framing the stamp names, the bytes it takes, and the key the log is sealed under. -/
def readStamp (checks : WalChecks) (path : String) (keyring : Option Keyring) (file : Bytes) :
    Except IoError (Framing × Nat × Option Sealer) := do
  let named ← (validateWalStamp checks (slice file 0 walStampLen)).mapError (atPath path)
  let flags := leAt 2 file 6
  match named with
  | none => pure (.unstamped, 0, none)
  | some format =>
    if format ≠ formatV2 then pure (.v1, walStampLen, none)
    else if flags = flagSealed then
      -- A sealed log appears under its name only once its whole stamp is durable.
      if file.length < sealedStampLen then
        throw ⟨.invalidData, s!"{path}: the write-ahead log header is damaged"⟩
      else
        let (nonce, sealer) ← openStamp checks path keyring (slice file 0 sealedStampLen)
        pure (.v2 nonce, sealedStampLen, some sealer)
    else if flags = 0 then
      -- A stamp torn by a crash while the log was created.
      if file.length < stampLen then pure (.unstamped, 0, none)
      else
        let nonce ← (stampNonce checks (slice file 0 stampLen)).mapError (atPath path)
        pure (.v2 nonce, stampLen, none)
    else throw ⟨.invalidData, s!"{path}: the write-ahead log header carries flags " ++
      s!"{hexText flags}, which this version of regolith cannot read; open it with the version " ++
      "that wrote it"⟩

namespace WalReplayIter

def unstamped (checks : WalChecks) (it : WalReplayIter) : Except IoError WalReplayIter :=
  if it.fileLen = 0 then .ok it
  else if stampWasWritten checks (slice it.file 0 (stampLen + headerLen)) then
    .error ⟨.invalidData, s!"{it.path}: the write-ahead log header is damaged"⟩
  else
    let tail := match it.position with
      | .newest => some ⟨0, it.fileLen⟩
      | .earlier => it.tail
    .ok { it with tail, fileLen := 0 }

def «open» (checks : WalChecks) (path : String) (position : WalPosition)
    (keyring : Option Keyring) (file : Bytes) : Except IoError WalReplayIter := do
  let (framing, consumed, sealing) ← readStamp checks path keyring file
  let it : WalReplayIter := ⟨file, path, file.length, consumed, [], sealing, [], none, position,
    framing, false, consumed⟩
  if framing = .unstamped then it.unstamped checks else pure it

def damageInAClosedFile (it : WalReplayIter) (offset : Nat) : IoError :=
  ⟨.invalidData, s!"write-ahead log {it.path} is damaged at offset {offset}, and a newer log " ++
    "follows it; refusing to open rather than lose the writes it held"⟩

/-- Read the format 2 record at `consumed`; `none` when it is not usable. -/
def readV2Record (checks : WalChecks) (nonce : UInt64) (it : WalReplayIter) :
    Option WalReplayIter :=
  let remaining := it.fileLen - it.consumed
  if remaining < headerLen then none
  else do
    let header ← decodeHeader checks (it.file.drop it.consumed) nonce it.consumed
      it.sealing.isSome
    if remaining < header.recordLen then none
    else
      let payload := slice it.file (it.consumed + headerLen) header.len
      let operations ← openPayload checks it.sealing nonce it.consumed header payload
      if entriesAreWhole operations then
        some { it with
          consumed := it.consumed + header.recordLen
          group := operations
          closed := header.kind = .close }
      else none

/-- The format 2 record at `offset` is not usable: the replay that ends there, or the
refusal. -/
def unusableV2Record (checks : WalChecks) (nonce : UInt64) (offset : Nat) (it : WalReplayIter) :
    Except IoError WalReplayIter :=
  match it.position with
  | .earlier => .error (it.damageInAClosedFile offset)
  | .newest =>
    let proof :=
      if it.closed then some it.fileLen
      else proofPast checks it.sealing nonce it.file it.fileLen offset (offset + 1)
    match proof with
    | some synced => .error ⟨.invalidData, s!"write-ahead log {it.path} is damaged at offset " ++
        s!"{offset}, but offsets up to {synced} were already made durable; refusing to open " ++
        "rather than lose acknowledged writes"⟩
    | none => .ok { it with
        group := [], tail := some ⟨offset, it.fileLen - offset⟩, consumed := it.fileLen }

inductive Turn
  | yields (entry : WalEntry) (it : WalReplayIter)
  | again (it : WalReplayIter)
  | done (it : WalReplayIter)
  | fails (e : IoError)

def turnV2 (checks : WalChecks) (nonce : UInt64) (it : WalReplayIter) : Turn :=
  if it.group ≠ [] then
    match decodeEntry it.group with
    | .ok (entry, len) => .yields entry { it with group := it.group.drop len }
    | .error e => .fails e
  else if it.consumed = it.fileLen then .done it
  else
    match if it.closed then none else it.readV2Record checks nonce with
    | some it => .again it
    | none =>
      match it.unusableV2Record checks nonce it.consumed with
      | .ok it => .done it
      | .error e => .fails e

/-- One turn of the loop in `next_v1_entry_inner`, and what `next_v1_entry` makes of its
errors. -/
def turnV1 (checks : WalChecks) (it : WalReplayIter) : Turn :=
  match it.pending with
  | entry :: pending => .yields entry { it with pending, recordStart := it.consumed }
  | [] =>
    match readV1Record checks it.path it.file it.consumed with
    | .ok none => .done it
    | .ok (some (entries, consumed)) => .again { it with pending := entries, consumed }
    | .error e =>
      let judged : Except IoError TailVerdict := match e.kind, it.position with
        | .unexpectedEof, .earlier | .invalidData, .earlier =>
          .error (it.damageInAClosedFile it.recordStart)
        | .unexpectedEof, .newest =>
          classifyIncompleteRecord checks it.path it.file it.recordStart
        | .invalidData, .newest => classifyUnusableRecord it.path it.file it.recordStart
        | _, _ => .error e
      match judged with
      | .ok tail => .done { it with tail := some tail }
      | .error e => .fails e

def turn (checks : WalChecks) (it : WalReplayIter) : Turn :=
  match it.framing with
  | .unstamped => .done it
  | .v1 => it.turnV1 checks
  | .v2 nonce => it.turnV2 checks nonce

/-- `next_entry` until it returns no entry: the entries, and the discarded tail. -/
def drain (checks : WalChecks) : Nat → WalReplayIter →
    Except IoError (List WalEntry × Option TailVerdict)
  | 0, it => .ok ([], it.tail)
  | turns + 1, it =>
    match it.turn checks with
    | .yields entry it => (drain checks turns it).map fun p => (entry :: p.1, p.2)
    | .again it => drain checks turns it
    | .done it => .ok ([], it.tail)
    | .fails e => .error e

end WalReplayIter

/-- Every entry of the log, and the tail that was discarded. Every turn but the last takes a
byte of the file. -/
def replayWal (checks : WalChecks) (path : String) (position : WalPosition)
    (keyring : Option Keyring) (file : Bytes) :
    Except IoError (List WalEntry × Option TailVerdict) := do
  let it ← WalReplayIter.open checks path position keyring file
  it.drain checks (file.length + 1)

@[simp] theorem length_stampHead (checks : WalChecks) (flags : Nat) (nonce : UInt64) :
    (stampHead checks flags nonce).length = 20 := by
  simp [stampHead, walMagic]

/-- A file that begins as a format 2 stamp does. -/
structure StampedAs (checks : WalChecks) (flags : Nat) (file : Bytes) : Prop where
  magic_eq : slice file 0 4 = walMagic
  format_eq : leAt 2 file 4 = formatV2
  flags_eq : leAt 2 file 6 = flags
  check_eq : leAt 4 file 8 = (checks.walStamp walMagic formatV2 flags).toNat
  length_le : walStampLen ≤ file.length

theorem leAt_stampHead_nonce (checks : WalChecks) (flags : Nat) (nonce : UInt64) (rest : Bytes) :
    leAt 8 (stampHead checks flags nonce ++ rest) 12 = nonce.toNat := by
  rw [stampHead]
  simp only [append_assoc]
  rw [show 12 = 4 + (2 + (2 + (4 + 0))) from rfl, leAt_append_right (by rfl),
    leAt_append_right (length_leBytes 2 _), leAt_append_right (length_leBytes 2 _),
    leAt_append_right (length_encodeU32 _), leAt_encodeU64]

theorem stampedAs_stampHead (checks : WalChecks) (hflags : flags < 2 ^ 16) (nonce : UInt64)
    (rest : Bytes) : StampedAs checks flags (stampHead checks flags nonce ++ rest) := by
  have hb : stampHead checks flags nonce ++ rest = walMagic ++ (leBytes 2 formatV2 ++
      (leBytes 2 flags ++ (encodeU32 (checks.walStamp walMagic formatV2 flags) ++
        (encodeU64 nonce ++ rest)))) := by
    simp [stampHead]
  have hmagic : walMagic.length = 4 := rfl
  refine ⟨?_, ?_, ?_, ?_, by rw [length_append, length_stampHead, walStampLen]; omega⟩
  · rw [hb, slice_append_left hmagic]
  · rw [hb, ← Nat.add_zero 4, leAt_append_right hmagic, leAt_leBytes (by decide)]
  · rw [hb, show 6 = 4 + (2 + 0) from rfl, leAt_append_right hmagic,
      leAt_append_right (length_leBytes 2 _), leAt_leBytes hflags]
  · rw [hb, show 8 = 4 + (2 + (2 + 0)) from rfl, leAt_append_right hmagic,
      leAt_append_right (length_leBytes 2 _), leAt_append_right (length_leBytes 2 _),
      leAt_encodeU32]

theorem StampedAs.validate {file : Bytes} (h : StampedAs checks flags file) :
    validateWalStamp checks (slice file 0 walStampLen) = .ok (some formatV2) := by
  have hfield : ∀ w j, j + w ≤ walStampLen →
      leAt w (slice file 0 walStampLen) j = leAt w file j := by
    intro w j hj
    rw [leAt, leAt, slice_slice hj, Nat.zero_add]
  have hlen : (slice file 0 walStampLen).length = walStampLen := by
    rw [slice, length_take, length_drop, Nat.sub_zero, min_eq_left h.length_le]
  have hmagic : slice (slice file 0 walStampLen) 0 4 = walMagic := by
    rw [slice_slice (by decide), Nat.zero_add, h.magic_eq]
  rw [validateWalStamp, if_neg (by simp [hlen, hmagic])]
  simp only [hfield 2 4 (by decide), hfield 2 6 (by decide), hfield 4 8 (by decide), h.format_eq,
    h.flags_eq, h.check_eq]
  simp [formatV2]

theorem readStamp_plain (checks : WalChecks) (path : String) (keyring : Option Keyring)
    (nonce : UInt64) (rest : Bytes) :
    readStamp checks path keyring (encodeStamp checks nonce ++ rest) =
      .ok (.v2 nonce, stampLen, none) := by
  have hb : encodeStamp checks nonce ++ rest = stampHead checks 0 nonce ++
      (encodeU32 (checks.walStampV2 (stampHead checks 0 nonce)) ++ rest) := by
    simp [encodeStamp]
  have hst := stampedAs_stampHead checks (show 0 < 2 ^ 16 by decide) nonce
    (encodeU32 (checks.walStampV2 (stampHead checks 0 nonce)) ++ rest)
  rw [← hb] at hst
  have hlen : ¬ (encodeStamp checks nonce ++ rest).length < stampLen := by
    simp [encodeStamp, stampLen]
    omega
  have hs : slice (encodeStamp checks nonce ++ rest) 0 stampLen = encodeStamp checks nonce :=
    slice_append_left (by simp [encodeStamp, stampLen]) rest
  have hnonce : stampNonce checks (encodeStamp checks nonce) = .ok nonce := by
    have hc : leAt 4 (encodeStamp checks nonce) 20 =
        (checks.walStampV2 (stampHead checks 0 nonce)).toNat := by
      rw [encodeStamp, ← Nat.add_zero 20, leAt_append_right (length_stampHead checks 0 nonce)]
      simpa using leAt_encodeU32 (checks.walStampV2 (stampHead checks 0 nonce)) []
    rw [stampNonce, hc, if_pos]
    · rw [encodeStamp, leAt_stampHead_nonce, UInt64.ofNat_toNat]
    · rw [encodeStamp, slice_append_left (length_stampHead checks 0 nonce)]
  simp only [readStamp, hst.validate, hst.flags_eq, hs, hnonce, hlen, bind, Except.bind,
    Except.mapError, pure, Except.pure]
  simp [flagSealed]

@[simp] theorem length_sealedStampFields (checks : WalChecks) (nonce : UInt64) (id : UInt32) :
    (sealedStampFields checks nonce id).length = 28 := by
  simp [sealedStampFields]

theorem encodeSealedStamp_eq_ok (h : encodeSealedStamp checks nonce sealer aeadNonce = .ok stamp) :
    ∃ tag, stamp = sealedStampFields checks nonce sealer.id ++ (aeadNonce.bytes ++ tag) ∧
      tag.length = tagLen ∧ sealer.decrypt aeadNonce.bytes
        (stampAad (sealedStampFields checks nonce sealer.id)) [] tag = some [] := by
  rw [encodeSealedStamp, Sealer.sealWith] at h
  cases he : sealer.encrypt aeadNonce.bytes
      (stampAad (sealedStampFields checks nonce sealer.id)) [] with
  | none => simp [he, Except.map] at h
  | some sealed =>
    simp only [he, Except.map, Except.ok.injEq] at h
    obtain ⟨hbody, htag⟩ := sealer.length_encrypt he
    refine ⟨sealed.2, h.symm, htag, ?_⟩
    have hnil : sealed.1 = [] := length_eq_zero_iff.mp hbody
    have hdec := sealer.decrypt_encrypt he
    rwa [hnil] at hdec

/-- A sealed stamp opens under the key that sealed it. -/
theorem openStamp_encode (path : String) (hk : k.current = .ok sealer)
    (h : encodeSealedStamp checks nonce sealer aeadNonce = .ok stamp) :
    openStamp checks path (some k) stamp = .ok (nonce, sealer) := by
  obtain ⟨tag, rfl, htag, hdec⟩ := encodeSealedStamp_eq_ok h
  set fields := sealedStampFields checks nonce sealer.id with hfields
  have hlen : fields.length = 28 := length_sealedStampFields checks nonce sealer.id
  have haad : ∀ rest, stampAad (fields ++ rest) = stampAad fields := by
    intro rest
    rw [stampAad, stampAad, slice_append_left hlen]
    simpa using (slice_append_left hlen []).symm
  have hb : ∀ rest, fields ++ rest = stampHead checks flagSealed nonce ++ (encodeU32 sealer.id ++
      (encodeU32 (checks.walStampV2 (stampHead checks flagSealed nonce ++ encodeU32 sealer.id)) ++
        rest)) := by
    simp [hfields, sealedStampFields]
  have hlogNonce : leAt 8 (fields ++ (aeadNonce.bytes ++ tag)) 12 = nonce.toNat := by
    rw [hb, leAt_stampHead_nonce]
  have hid : leAt 4 (fields ++ (aeadNonce.bytes ++ tag)) 20 = sealer.id.toNat := by
    rw [hb, ← Nat.add_zero 20, leAt_append_right (length_stampHead ..), leAt_encodeU32]
  have hh : slice (fields ++ (aeadNonce.bytes ++ tag)) 0 24 =
      stampHead checks flagSealed nonce ++ encodeU32 sealer.id := by
    rw [hb, ← append_assoc, slice_append_left (by simp)]
  have hc : leAt 4 (fields ++ (aeadNonce.bytes ++ tag)) 24 =
      (checks.walStampV2 (stampHead checks flagSealed nonce ++ encodeU32 sealer.id)).toNat := by
    rw [hb, show 24 = 20 + (4 + 0) from rfl, leAt_append_right (length_stampHead ..),
      leAt_append_right (length_encodeU32 _), leAt_encodeU32]
  have hhld : stampCheckHolds checks (fields ++ (aeadNonce.bytes ++ tag)) = true := by
    simp only [stampCheckHolds, hh, hc, length_append, hlen, decide_eq_true_eq, and_true]
    omega
  have hnonce : slice (fields ++ (aeadNonce.bytes ++ tag)) 28 nonceLen = aeadNonce.bytes := by
    rw [← Nat.add_zero 28, slice_append_right hlen, slice_append_left aeadNonce.length_eq]
  have htagAt : slice (fields ++ (aeadNonce.bytes ++ tag)) 40 tagLen = tag := by
    rw [show 40 = 28 + (nonceLen + 0) from rfl, slice_append_right hlen,
      slice_append_right aeadNonce.length_eq]
    simpa using slice_append_left htag []
  have hsealer : k.sealer sealer.id = .ok sealer := by
    rw [Keyring.sealer_id hk]
    exact hk
  simp only [openStamp, hhld, hid, UInt32.ofNat_toNat, hsealer, bind, Except.bind, hnonce, htagAt,
    haad, hdec, hlogNonce, UInt64.ofNat_toNat, Bool.not_true, Bool.false_eq_true, if_false]

theorem readStamp_sealed (path : String) (hk : k.current = .ok sealer)
    (h : encodeSealedStamp checks nonce sealer aeadNonce = .ok stamp) (rest : Bytes) :
    readStamp checks path (some k) (stamp ++ rest) = .ok (.v2 nonce, stamp.length, some
      sealer) := by
  have ho := openStamp_encode path hk h
  obtain ⟨tag, hs, htag, -⟩ := encodeSealedStamp_eq_ok h
  have hlen : stamp.length = sealedStampLen := by
    simp [hs, aeadNonce.length_eq, htag, nonceLen, tagLen, sealedStampLen]
  have hb : stamp ++ rest = stampHead checks flagSealed nonce ++ (encodeU32 sealer.id ++
      (encodeU32 (checks.walStampV2 (stampHead checks flagSealed nonce ++ encodeU32 sealer.id)) ++
        (aeadNonce.bytes ++ (tag ++ rest)))) := by
    simp [hs, sealedStampFields]
  have hst := stampedAs_stampHead checks (show flagSealed < 2 ^ 16 by decide) nonce
    (encodeU32 sealer.id ++ (encodeU32 (checks.walStampV2 (stampHead checks flagSealed nonce ++
      encodeU32 sealer.id)) ++ (aeadNonce.bytes ++ (tag ++ rest))))
  rw [← hb] at hst
  have hlong : ¬ (stamp ++ rest).length < sealedStampLen := by
    rw [length_append]
    omega
  have hslc : slice (stamp ++ rest) 0 sealedStampLen = stamp := slice_append_left hlen rest
  simp only [readStamp, hst.validate, hst.flags_eq, hslc, ho, hlong, hlen, bind, Except.bind,
    Except.mapError, pure, Except.pure]
  simp

namespace WalReplayIter

variable {offset : Nat}

def after (entries : List WalEntry) (rest : Except IoError (List WalEntry × Option TailVerdict)) :
    Except IoError (List WalEntry × Option TailVerdict) :=
  rest.map fun p => (entries ++ p.1, p.2)

@[simp] theorem after_nil (rest : Except IoError (List WalEntry × Option TailVerdict)) :
    after [] rest = rest := by
  cases rest <;> rfl

@[simp] theorem after_after (es es' : List WalEntry)
    (rest : Except IoError (List WalEntry × Option TailVerdict)) :
    after es (after es' rest) = after (es ++ es') rest := by
  cases rest <;> simp [after, Except.map]

variable {it : WalReplayIter} {rs : List LogRecord}

theorem turn_v2 (h : it.framing = .v2 nonce) : it.turn checks = it.turnV2 checks nonce := by
  rw [turn, h]

variable (checks nonce) in
/-- A record is read where it verifies and its operations are whole. -/
theorem readV2Record_eq (hlen : it.fileLen = it.file.length) : it.readV2Record checks nonce =
      (verifiedAt checks it.sealing nonce it.file it.consumed).bind fun p =>
        if entriesAreWhole p.2 then
          some { it with
            consumed := it.consumed + p.1.recordLen
            group := p.2
            closed := p.1.kind = .close }
        else none := by
  have hh : headerLen = 21 := rfl
  rw [readV2Record, verifiedAt, hlen]
  by_cases hsht : it.file.length - it.consumed < headerLen
  · rw [if_pos hsht, decodeHeader_of_short checks (by rwa [length_drop])]
    rfl
  · rw [if_neg hsht]
    cases hhdr : decodeHeader checks (it.file.drop it.consumed) nonce it.consumed
        it.sealing.isSome with
    | none => rfl
    | some header =>
      have hiff : it.file.length - it.consumed < header.recordLen ↔
          it.file.length < it.consumed + header.recordLen := by omega
      simp only [Option.bind_eq_bind, Option.bind_some]
      by_cases hfit : it.file.length < it.consumed + header.recordLen
      · rw [if_pos hfit, if_pos (hiff.mpr hfit), Option.bind_none]
      · rw [if_neg hfit, if_neg (mt hiff.mp hfit), Option.bind_map]
        rfl

variable (it) in
/-- A group is replayed operation by operation. -/
theorem drain_group {ops : List (WriteBatchOp × Seq)} (hf : ∀ p ∈ ops, p.1.Fits) (n : Nat)
    (hfrm : it.framing = .v2 nonce) (hgroup : it.group = encodeGroup ops) :
    it.drain checks (n + ops.length) =
      after (ops.map fun p => p.1.entry p.2) (drain checks n { it with group := [] }) := by
  induction ops generalizing it with
  | nil =>
    have hit : { it with group := [] } = it := by
      cases it
      simp only [encodeGroup, flatMap_nil] at hgroup
      simp [hgroup]
    simp [hit]
  | cons p ops ih =>
    rw [forall_mem_cons] at hf
    have hcat : it.group = encodeOpRecord p.2 p.1 ++ encodeGroup ops := hgroup
    have hne : it.group ≠ [] := by simp [hcat, encodeOpRecord_ne_nil]
    have ht : it.turn checks =
        .yields (p.1.entry p.2) { it with group := encodeGroup ops } := by
      rw [turn_v2 hfrm, turnV2, if_pos hne, hcat, decodeEntry_encode hf.1]
      simp
    have hr := ih { it with group := encodeGroup ops } hf.2 hfrm rfl
    rw [length_cons, ← Nat.add_assoc, drain, ht]
    simp only
    rw [hr]
    cases drain checks n { it with group := [] } <;> simp [after, Except.map]

def atOffset (it : WalReplayIter) (offset : Nat) (closed : Bool) : WalReplayIter :=
  { it with consumed := offset, group := [], closed }

variable (it) in
/-- A record that verifies is replayed whole. -/
theorem drain_record {r : LogRecord} (n : Nat) (hfrm : it.framing = .v2 nonce)
    (hlen : it.fileLen = it.file.length) (hr : r.Written checks it.sealing nonce offset)
    (hh : Holds it.file offset (r.frame checks nonce offset)) : (it.atOffset offset false).drain
    checks (n + (r.ops.length + 1)) =
      after r.entries ((it.atOffset (offset + (r.frame checks nonce offset).length)
        (r.header.kind = .close)).drain checks n) := by
  have hend := hh.end_le (r.frame_ne_nil checks nonce offset)
  have hpos := length_pos_iff.mpr (r.frame_ne_nil checks nonce offset)
  have hread : (it.atOffset offset false).readV2Record checks nonce = some { it with
      consumed := offset + (r.frame checks nonce offset).length
      group := encodeGroup r.ops
      closed := r.header.kind = .close } := by
    rw [readV2Record_eq checks nonce (by exact hlen)]
    simp only [atOffset]
    rw [verifiedAt_of_holds hr hh, Option.bind_some,
      if_pos (entriesAreWhole_encodeGroup hr.fits), hr.length_frame]
  have ht : (it.atOffset offset false).turn checks = .again { it with
      consumed := offset + (r.frame checks nonce offset).length
      group := encodeGroup r.ops
      closed := r.header.kind = .close } := by
    have hmore : ¬ (it.atOffset offset false).consumed = (it.atOffset offset false).fileLen := by
      simp only [atOffset]
      omega
    rw [turn_v2 (by exact hfrm), turnV2, if_neg (by simp [atOffset]), if_neg hmore, hread]
    rfl
  rw [← Nat.add_assoc, drain, ht]
  exact drain_group { it with
    consumed := offset + (r.frame checks nonce offset).length
    group := encodeGroup r.ops
    closed := r.header.kind = .close } hr.fits n hfrm rfl

/-- Turns of the loop the records take: one to read each, and one for each operation. -/
def turnsOf (rs : List LogRecord) : Nat := (rs.map fun r => r.ops.length + 1).sum

variable (it) in
theorem drain_records (n : Nat) (hfrm : it.framing = .v2 nonce) (hlen : it.fileLen = it.file.length)
    (hg : ∀ r ∈ rs, r.header.kind = .group) (hwr : ∀ p ∈ placed (frame checks nonce) offset rs,
      p.2.Written checks it.sealing nonce p.1)
    (hi : ∀ p ∈ placed (frame checks nonce) offset rs, Intact (frame checks nonce) it.file p) :
    (it.atOffset offset false).drain checks (n + turnsOf rs) = after (rs.flatMap LogRecord.entries)
        ((it.atOffset (endOf (frame checks nonce) offset rs) false).drain checks n) := by
  induction rs generalizing offset with
  | nil => simp [turnsOf]
  | cons r rs ih =>
    rw [forall_mem_cons] at hg
    rw [placed, forall_mem_cons] at hwr hi
    have ht : n + turnsOf (r :: rs) = (n + turnsOf rs) + (r.ops.length + 1) := by
      simp only [turnsOf, map_cons, sum_cons]
      omega
    have hc : decide (r.header.kind = .close) = false := by simp [hg.1]
    rw [ht, drain_record it _ hfrm hlen hwr.1 hi.1, hc,
      ih hg.2 hwr.2 hi.2, after_after, endOf_cons, flatMap_cons]

theorem turnsOf_le {sealing : Option Sealer} (hwr : ∀ p ∈ placed (frame checks nonce) offset rs,
      p.2.Written checks sealing nonce p.1) :
    offset + turnsOf rs ≤ endOf (frame checks nonce) offset rs := by
  induction rs generalizing offset with
  | nil => simp [turnsOf]
  | cons r rs ih =>
    rw [placed, forall_mem_cons] at hwr
    have hr := ih hwr.2
    have hops : r.ops.length ≤ r.body.length := hwr.1.ops_le
    have hf : (r.frame checks nonce offset).length = headerLen + r.body.length := by
      simp [frame]
    have hh : headerLen = 21 := rfl
    rw [endOf_cons]
    simp only [turnsOf, map_cons, sum_cons] at hr ⊢
    omega

end WalReplayIter

end RegolithStore
