import RegolithStore.Lib.HostFile

/-! Sealed frames (`seal.rs`): a nonce, the ciphertext and a tag, bound to where they
belong by the associated data. The cipher is a parameter: a key's sealer carries that
what it encrypts decrypts, under the same nonce and associated data. -/

namespace RegolithStore

open Lib

def nonceLen : Nat := 12

def tagLen : Nat := 16

/-- `OVERHEAD`: bytes a sealed frame adds to what it seals. -/
def overhead : Nat := nonceLen + tagLen

structure AeadNonce where
  bytes : Bytes
  length_eq : bytes.length = nonceLen

def sampleAeadNonce : AeadNonce := ⟨List.replicate nonceLen 0, rfl⟩

structure Sealer where
  id : UInt32
  encrypt : (nonce aad plain : Bytes) → Option (Bytes × Bytes)
  decrypt : (nonce aad body tag : Bytes) → Option Bytes
  length_encrypt : ∀ {nonce aad plain body tag}, encrypt nonce aad plain = some (body, tag) →
    body.length = plain.length ∧ tag.length = tagLen
  decrypt_encrypt : ∀ {nonce aad plain body tag}, encrypt nonce aad plain = some (body, tag) →
    decrypt nonce aad body tag = some plain

namespace Sealer

variable (s : Sealer)

def sealWith (nonce : AeadNonce) (aad plain : Bytes) : Except IoError (Bytes × Bytes) :=
  match s.encrypt nonce.bytes aad plain with
  | some sealed => .ok sealed
  | none => .error ⟨.other, "a frame is too large to seal"⟩

def sealFrame (nonce : AeadNonce) (aad plain : Bytes) : Except IoError Bytes :=
  (s.sealWith nonce aad plain).map fun sealed => nonce.bytes ++ (sealed.1 ++ sealed.2)

/-- What the frame seals, or `none` when it is too short to be one or its tag fails. -/
def openFrame (aad frame : Bytes) : Option Bytes :=
  if frame.length < overhead then none
  else
    let bodyLen := frame.length - overhead
    s.decrypt (slice frame 0 nonceLen) aad (slice frame nonceLen bodyLen)
      (slice frame (nonceLen + bodyLen) tagLen)

variable {s} {aad plain frame : Bytes} {nonce : AeadNonce}

section

variable (h : s.sealFrame nonce aad plain = .ok frame)

include h

theorem sealFrame_eq_ok : ∃ body tag, s.encrypt nonce.bytes aad plain = some (body, tag) ∧
      frame = nonce.bytes ++ (body ++ tag) := by
  rw [sealFrame, sealWith] at h
  cases he : s.encrypt nonce.bytes aad plain with
  | none => simp [he, Except.map] at h
  | some sealed =>
    simp only [he, Except.map, Except.ok.injEq] at h
    exact ⟨sealed.1, sealed.2, rfl, h.symm⟩

theorem length_sealFrame : frame.length = plain.length + overhead := by
  obtain ⟨body, tag, he, rfl⟩ := sealFrame_eq_ok h
  obtain ⟨hbody, htag⟩ := s.length_encrypt he
  simp only [List.length_append, nonce.length_eq, hbody, htag, overhead]
  omega

theorem openFrame_sealFrame : s.openFrame aad frame = some plain := by
  have hlen := length_sealFrame h
  obtain ⟨body, tag, he, rfl⟩ := sealFrame_eq_ok h
  obtain ⟨hbody, htag⟩ := s.length_encrypt he
  have hbodyAt : slice (nonce.bytes ++ (body ++ tag)) nonceLen body.length = body := by
    rw [← Nat.add_zero nonceLen, slice_append_right nonce.length_eq, slice_append_left rfl]
  have htagAt : slice (nonce.bytes ++ (body ++ tag)) (nonceLen + body.length) tagLen = tag := by
    rw [slice_append_right nonce.length_eq, ← Nat.add_zero body.length, slice_append_right rfl]
    simpa using slice_append_left htag []
  rw [openFrame, if_neg (by omega), hlen, Nat.add_sub_cancel, ← hbody]
  simp only [slice_append_left nonce.length_eq, hbodyAt, htagAt]
  exact s.decrypt_encrypt he

end

end Sealer

/-- A database's keys: the one new files are sealed under, and each by its id. -/
structure Keyring where
  currentId : UInt32
  key : UInt32 → Option Sealer
  id_key : ∀ {id s}, key id = some s → s.id = id

namespace Keyring

def sealer (k : Keyring) (id : UInt32) : Except IoError Sealer :=
  match k.key id with
  | some s => .ok s
  | none => .error ⟨.other,
      s!"the key provider does not provide key id {id.toNat}, which this database needs"⟩

def current (k : Keyring) : Except IoError Sealer := k.sealer k.currentId

theorem sealer_id {k : Keyring} {id : UInt32} {s : Sealer} (h : k.sealer id = .ok s) :
    s.id = id := by
  rw [sealer] at h
  cases hkey : k.key id with
  | none => simp [hkey] at h
  | some s' =>
    simp only [hkey, Except.ok.injEq] at h
    exact h ▸ k.id_key hkey

end Keyring

end RegolithStore
