import RegolithStore.Wal.Frame

/-! The scan behind a damaged record (`proof_past`). A damaged record's length cannot be
trusted to say where the next one starts, so the scan tests every offset after it for a
header that verifies and a payload that does, chunk by chunk, with an overlap of one
header less a byte. It finds what a test of the offsets one after the other finds. -/

namespace RegolithStore

open Lib List Option

variable {start p : Nat}

def scanChunk : Nat := 64 * 1024

section Scan

variable (checks : WalChecks) (sealing : Option Sealer) (nonce : UInt64) (file : Bytes)
  (fileEnd damagedAt : Nat)

/-- Whether the plain payload at `at` verifies; the source hashes it in pieces. -/
def payloadVerifies (offset : Nat) (header : Header) : Bool :=
  checks.walGroupPayload (slice file offset header.len) = header.payloadCheck

/-- Whether the sealed payload at `at`, of the record at `offset`, opens to whole operations. -/
def sealedPayloadVerifies (sealer : Sealer) (payloadAt : Nat) (header : Header) (offset : Nat) :
    Bool :=
  (openRecord sealer header.fields nonce offset (slice file payloadAt header.len)).any
    entriesAreWhole

/-- The offset the record at `offset`, whose bytes begin `bytes`, proves durable, when it
is usable and proves a byte past the damage. -/
def proofAt (bytes : Bytes) (offset : Nat) : Option Nat :=
  (decodeHeader checks bytes nonce offset sealing.isSome).bind fun header =>
    let proves := header.proves fileEnd
    if proves ≤ damagedAt ∨ fileEnd < offset + header.recordLen then none
    else
      let usable := match sealing with
        | some sealer => sealedPayloadVerifies nonce file sealer (offset + headerLen) header offset
        | none => payloadVerifies checks file (offset + headerLen) header
      if usable then some proves else none

/-- The inner loop: of the chunk read at `start`, the offsets where a kind byte stands. -/
def scanCandidates (chunk : Bytes) (start candidates : Nat) : Option Nat :=
  (List.range candidates).findSome? fun i =>
    if (RecordKind.ofByte (chunk.getD (i + 4) 0)).isSome then
      proofAt checks sealing nonce file fileEnd damagedAt (chunk.drop i) (start + i)
    else none

/-- The outer loop, chunk by chunk; every turn moves on by a byte at least. -/
def proofPastFrom : Nat → Nat → Option Nat
  | 0, _ => none
  | turns + 1, start =>
    if start + headerLen ≤ fileEnd then
      let want := min (fileEnd - start) (scanChunk + headerLen - 1)
      let candidates := want - headerLen + 1
      (scanCandidates checks sealing nonce file fileEnd damagedAt (slice file start want) start
        candidates).or (proofPastFrom turns (start + candidates))
    else none

/-- The first usable record in `[start, fileEnd)` that proves a byte past `damagedAt`
durable, as the offset it proves through. -/
def proofPast (start : Nat) : Option Nat :=
  proofPastFrom checks sealing nonce file fileEnd damagedAt (fileEnd - start) start

end Scan

variable (checks : WalChecks) {bytes : Bytes}

theorem decodeHeader_take {n : Nat} (h : headerLen ≤ n) (bytes : Bytes) (nonce : UInt64)
    (offset : Nat) (isSealed : Bool) : decodeHeader checks (bytes.take n) nonce offset isSealed =
      decodeHeader checks bytes nonce offset isSealed := by
  have hn : 21 ≤ n := h
  have hslc : ∀ i w, i + w ≤ 21 → slice (bytes.take n) i w = slice bytes i w := by
    intro i w hiw
    rw [slice, slice, drop_take, take_take, min_eq_left (by omega)]
  have hget : (bytes.take n).getD 4 0 = bytes.getD 4 0 := by
    rw [getD_eq_getElem?_getD, getD_eq_getElem?_getD, getElem?_take_of_lt (by omega)]
  have hlen : (bytes.take n).length < headerLen ↔ bytes.length < headerLen := by
    rw [length_take]
    omega
  by_cases hsht : bytes.length < headerLen
  · rw [decodeHeader, decodeHeader, if_pos hsht, if_pos (hlen.mpr hsht)]
  · rw [decodeHeader, decodeHeader, if_neg hsht, if_neg (mt hlen.mp hsht)]
    simp only [hget, leAt, hslc 17 4 (by omega), hslc 0 17 (by omega), hslc 0 4 (by omega),
      hslc 5 8 (by omega), hslc 13 4 (by omega)]
    rfl

theorem decodeHeader_of_short (h : bytes.length < headerLen) (nonce : UInt64) (offset : Nat)
    (isSealed : Bool) : decodeHeader checks bytes nonce offset isSealed = none := if_pos h

theorem decodeHeader_of_kind (h : RecordKind.ofByte (bytes.getD 4 0) = none) (nonce : UInt64)
    (offset : Nat) (isSealed : Bool) : decodeHeader checks bytes nonce offset isSealed = none := by
  rw [decodeHeader, h]
  split_ifs <;> rfl

section Scan

variable {checks : WalChecks} {sealing : Option Sealer} {nonce : UInt64} {file : Bytes}
  {damagedAt : Nat} {offset : Nat}

def testAt (checks : WalChecks) (sealing : Option Sealer) (nonce : UInt64) (file : Bytes)
    (damagedAt offset : Nat) : Option Nat :=
  proofAt checks sealing nonce file file.length damagedAt (file.drop offset) offset

theorem testAt_of_short (h : file.length < offset + headerLen) :
    testAt checks sealing nonce file damagedAt offset = none := by
  have hsht : (file.drop offset).length < headerLen := by
    rw [length_drop]
    simp only [headerLen] at h ⊢
    omega
  rw [testAt, proofAt, decodeHeader_of_short checks hsht, bind_none]

theorem scanCandidates_eq {want candidates : Nat} (hcand : candidates + headerLen ≤ want + 1)
    : scanCandidates checks sealing nonce file file.length damagedAt (slice file start want) start
        candidates =
      (List.range' start candidates).findSome? (testAt checks sealing nonce file damagedAt) := by
  rw [scanCandidates, range'_eq_map_range, findSome?_map, ← head?_filterMap, ← head?_filterMap]
  refine congrArg List.head? (filterMap_congr fun i hi => ?_)
  have hi : i < candidates := mem_range.mp hi
  have hh : headerLen = 21 := rfl
  have hd : (slice file start want).drop i = (file.drop (start + i)).take (want - i) := by
    rw [slice, drop_take, drop_drop]
  have hget : (slice file start want).getD (i + 4) 0 = (file.drop (start + i)).getD 4 0 := by
    rw [getD_eq_getElem?_getD, getD_eq_getElem?_getD, slice,
      getElem?_take_of_lt (by omega), getElem?_drop, getElem?_drop, Nat.add_assoc]
  rw [hget, hd, Function.comp_apply, testAt, proofAt, proofAt, decodeHeader_take checks (by omega)]
  cases hk : RecordKind.ofByte ((file.drop (start + i)).getD 4 0) with
  | none => simp [decodeHeader_of_kind checks hk]
  | some kind => simp

/-- The chunks are one scan over every offset. -/
theorem proofPastFrom_eq {turns : Nat} (ht : file.length - start ≤ turns) :
    proofPastFrom checks sealing nonce file file.length damagedAt turns start =
      (List.range' start (file.length - start)).findSome?
        (testAt checks sealing nonce file damagedAt) := by
  have hh : headerLen = 21 := rfl
  have hchunk : scanChunk = 65536 := rfl
  induction turns generalizing start with
  | zero =>
    have hn : file.length - start = 0 := by omega
    rw [hn]
    rfl
  | succ turns ih =>
    rw [proofPastFrom]
    split_ifs with hroom
    · dsimp only
      set want := min (file.length - start) (scanChunk + headerLen - 1)
      set candidates := want - headerLen + 1
      have hr : List.range' start (file.length - start) = List.range' start candidates ++
          List.range' (start + candidates) (file.length - (start + candidates)) := by
        rw [range'_append_1]
        congr 1
        omega
      rw [scanCandidates_eq (by omega), ih (by omega), hr, findSome?_append]
    · refine (findSome?_eq_none_iff.mpr fun o ho => testAt_of_short ?_).symm
      have := (mem_range'_1.mp ho).1
      omega

/-- The scan finds what testing the offsets one after the other finds. -/
theorem proofPast_eq (start : Nat) :
    proofPast checks sealing nonce file file.length damagedAt start =
      (List.range' start (file.length - start)).findSome?
        (testAt checks sealing nonce file damagedAt) :=
  proofPastFrom_eq le_rfl

theorem exists_of_proofPast
    (h : proofPast checks sealing nonce file file.length damagedAt start = some p) :
    ∃ o, start ≤ o ∧ testAt checks sealing nonce file damagedAt o = some p := by
  rw [proofPast_eq] at h
  obtain ⟨o, ho, htest⟩ := exists_of_findSome?_eq_some h
  exact ⟨o, (mem_range'_1.mp ho).1, htest⟩

theorem proofPast_isSome {o : Nat} (ho : start ≤ o)
    (h : testAt checks sealing nonce file damagedAt o = some p) :
    (proofPast checks sealing nonce file file.length damagedAt start).isSome := by
  have hroom : o + headerLen ≤ file.length := by
    by_contra hsht
    rw [testAt_of_short (not_le.mp hsht)] at h
    cases h
  have hh : headerLen = 21 := rfl
  rw [proofPast_eq, findSome?_isSome_iff]
  exact ⟨o, mem_range'_1.mpr ⟨ho, by omega⟩, by rw [h]; rfl⟩

variable (checks sealing nonce file) in
/-- The header and the operations of the record at `offset`, when the file has all of it
and both its checks, or its tag, accept it. -/
def verifiedAt (offset : Nat) : Option (Header × Bytes) :=
  (decodeHeader checks (file.drop offset) nonce offset sealing.isSome).bind fun header =>
    if file.length < offset + header.recordLen then none
    else (openPayload checks sealing nonce offset header
      (slice file (offset + headerLen) header.len)).map fun ops => (header, ops)

theorem lt_of_verifiedAt (h : (verifiedAt checks sealing nonce file offset).isSome) :
    offset < file.length := by
  by_contra hle
  have hsht : (file.drop offset).length < headerLen := by
    rw [length_drop, Nat.sub_eq_zero_of_le (not_lt.mp hle)]
    decide
  rw [verifiedAt, decodeHeader_of_short checks hsht] at h
  cases h

theorem verifiedAt_of_holds {r : LogRecord} (hr : r.Written checks sealing nonce offset)
    (h : Holds file offset (r.frame checks nonce offset)) :
    verifiedAt checks sealing nonce file offset = some (r.header, encodeGroup r.ops) := by
  have hend := h.end_le (r.frame_ne_nil checks nonce offset)
  rw [hr.length_frame] at hend
  obtain ⟨rest, hrest⟩ := h
  have hd : file.drop offset = r.header.encode checks nonce offset ++ (r.body ++ rest) := by
    rw [← hrest, LogRecord.frame, append_assoc]
  have hbody : slice file (offset + headerLen) r.header.len = r.body := by
    rw [slice, ← drop_drop, hd, ← r.header.length_encode checks nonce offset,
      drop_left, hr.len_eq, take_left]
  rw [verifiedAt, hd, decodeHeader_encode checks hr.valid, bind_some,
    if_neg hend.not_gt, hbody, hr.opens, map_some]

theorem verifiedAt_of_testAt {offset : Nat}
    (h : testAt checks sealing nonce file damagedAt offset = some p) :
    ∃ header ops, verifiedAt checks sealing nonce file offset = some (header, ops) ∧
      header.proves file.length = p ∧ damagedAt < p := by
  obtain ⟨header, hh, h⟩ := bind_eq_some_iff.mp h
  dsimp only at h
  split_ifs at h with hr husable
  obtain ⟨hp, hroom⟩ := not_or.mp hr
  have ho : ∃ ops, openPayload checks sealing nonce offset header
      (slice file (offset + headerLen) header.len) = some ops := by
    cases sealing with
    | none =>
      have hmatch : header.payloadMatches checks (slice file (offset + headerLen) header.len) =
        true := husable
      exact ⟨_, if_pos hmatch⟩
    | some sealer =>
      obtain ⟨ops, hops, -⟩ := (Option.any_eq_true ..).mp husable
      exact ⟨ops, hops⟩
  obtain ⟨ops, hops⟩ := ho
  refine ⟨header, ops, ?_, some.inj h, some.inj h ▸ not_le.mp hp⟩
  rw [verifiedAt, hh, bind_some, if_neg hroom, hops, map_some]

/-- A record that verifies past the damage is found. -/
theorem testAt_of_verifiedAt {header : Header} {ops : Bytes}
    (h : verifiedAt checks sealing nonce file offset = some (header, ops))
    (hw : entriesAreWhole ops = true) (hp : damagedAt < header.proves file.length) :
    testAt checks sealing nonce file damagedAt offset = some (header.proves file.length) := by
  obtain ⟨header', hh, h⟩ := bind_eq_some_iff.mp h
  split_ifs at h with hroom
  obtain ⟨ops', hops, heq⟩ := map_eq_some_iff.mp h
  obtain ⟨rfl, rfl⟩ := Prod.mk.injEq .. ▸ heq
  rw [testAt, proofAt, hh, bind_some]
  rw [if_neg (not_or.mpr ⟨not_le.mpr hp, hroom⟩)]
  cases sealing with
  | none =>
    by_cases hmatch : header'.payloadMatches checks (slice file (offset + headerLen) header'.len)
    · exact if_pos hmatch
    · rw [openPayload, if_neg hmatch] at hops
      cases hops
  | some sealer =>
    have husable : sealedPayloadVerifies nonce file sealer (offset + headerLen) header' offset =
        true := by
      rw [sealedPayloadVerifies, show openRecord sealer header'.fields nonce offset
        (slice file (offset + headerLen) header'.len) = some ops' from hops]
      exact hw
    exact if_pos husable

end Scan

end RegolithStore
