import RegolithStore.Manifest.VersionSet

/-! What `apply` leaves in memory. Up to the sync a failure leaves the version as it was; the
version is installed next, and only then is the manifest rewritten when it is due. A rewrite
that fails makes `apply` return an error with the version already installed, so `apply` is
all or nothing exactly when that does not happen to a batch that changes the version. -/

namespace RegolithStore

open Lib Manifest ManifestRecord VersionEdit

variable {encoded : Bytes} {sync : Bool}

/-- The two versions list the same tables and hold the same counters. -/
structure Version.Same (v w : Version) : Prop where
  levels : v.levels = w.levels
  lastSeq : v.lastSeq = w.lastSeq
  nextFileId : v.nextFileId = w.nextFileId
  minWalId : v.minWalId = w.minWalId

theorem Version.Same.refl (v : Version) : v.Same v := ⟨rfl, rfl, rfl, rfl⟩

namespace VersionSet

variable (checks : ManifestChecks) (vs : VersionSet)

/-- An error leaves the version as it was, and `Ok` leaves the version of the whole batch. -/
def AllOrNothing (edits : List VersionEdit) (calls : ApplyCalls) : Prop :=
  (∀ e, (vs.apply checks edits calls).1 = .error e →
    (vs.apply checks edits calls).2.current.Same vs.current) ∧
  ((vs.apply checks edits calls).1 = .ok () →
    (vs.apply checks edits calls).2.current.Same (vs.current.applyEdits edits))

/-- The host calls of a rewrite that let it fail. -/
def RewriteFails (calls : RewriteCalls) : Prop :=
  match freshSealing vs.keyring calls.salt with
  | .error _ => True
  | .ok sealing =>
    match vs.image checks sealing calls.aeadNonce with
    | .error _ => True
    | .ok _ => calls.temporary.isSome ∨ calls.rename.isSome ∨ calls.parent.isSome ∨ calls.reopen.isSome

/-- The set once the batch is logged, synced where it must be, and installed. -/
def logged (edits : List VersionEdit) (calls : ApplyCalls) : Option VersionSet :=
  match validate edits with
  | .error _ => none
  | .ok () =>
    match encodeRecords checks (vs.batchRecords edits) vs.manifestBytes vs.sealing
        calls.aeadNonce with
    | .error _ => none
    | .ok (encoded, sealedUnder) =>
      if !vs.writer then none
      else
        match { vs with unlogged := [] }.appendBatch encoded (vs.requiresSync edits) calls with
        | (.error _, _) => none
        | (.ok (), appended) => some (appended.install (vs.current.applyEdits edits) encoded.length
            vs.recordsCheck sealedUnder)

variable {checks} {vs : VersionSet} {edits : List VersionEdit} {calls : ApplyCalls}
  {installed : VersionSet} {vs' : VersionSet}

theorem current_replaceManifest (vs : VersionSet) (calls : RewriteCalls)
    (sealing : Option ManifestSeal) (image : Bytes) (sealedUnder : Option UInt32) :
    (vs.replaceManifest calls sealing image sealedUnder).2.current = vs.current := by
  simp only [replaceManifest]
  rcases hostCall calls.rename with _ | _
  · rfl
  · rcases hostCall calls.parent with _ | _
    · rfl
    · rcases hostCall calls.reopen with _ | _ <;> rfl

theorem current_compactManifest (vs : VersionSet) (calls : RewriteCalls) :
    (vs.compactManifest checks calls).2.current = vs.current := by
  rw [compactManifest]
  split_ifs
  · rfl
  · rcases freshSealing vs.keyring calls.salt with _ | sealing
    · rfl
    · dsimp only
      rcases vs.image checks sealing calls.aeadNonce with _ | ⟨image, sealedUnder⟩
      · rfl
      · dsimp only
        rcases hostCall calls.temporary with _ | _
        · rfl
        · exact current_replaceManifest ..

theorem isOk_replaceManifest (vs : VersionSet) (calls : RewriteCalls)
    (sealing : Option ManifestSeal) (image : Bytes) (sealedUnder : Option UInt32) :
    (vs.replaceManifest calls sealing image sealedUnder).1 = .ok () ↔
      calls.rename = none ∧ calls.parent = none ∧ calls.reopen = none := by
  simp only [replaceManifest, hostCall]
  rcases calls.rename with _ | _ <;> rcases calls.parent with _ | _ <;>
    rcases calls.reopen with _ | _ <;> simp

theorem compactManifest_ok_iff (hw : vs.writer = true) (calls : RewriteCalls) :
    (vs.compactManifest checks calls).1 = .ok () ↔ ¬ vs.RewriteFails checks calls := by
  rw [compactManifest, RewriteFails]
  simp only [hw, Bool.not_true, Bool.false_eq_true, if_false]
  rcases freshSealing vs.keyring calls.salt with _ | sealing
  · simp
  · dsimp only
    rcases vs.image checks sealing calls.aeadNonce with _ | ⟨image, sealedUnder⟩
    · simp
    · dsimp only
      cases htemp : calls.temporary with
      | some e => simp [hostCall]
      | none => simp [hostCall, isOk_replaceManifest]

theorem compactManifest_ok {calls : RewriteCalls}
    (h : vs.compactManifest checks calls = (.ok (), vs')) :
    ∃ sealing image sealedUnder, freshSealing vs.keyring calls.salt = .ok sealing ∧
      vs.image checks sealing calls.aeadNonce = .ok (image, sealedUnder) ∧
      vs' = { vs with
        manifest := ⟨image, image.length⟩, manifestBytes := image.length, sealing
        sealedUnder := sealedUnder.toList, unlogged := [], replaced := none, writer := true } := by
  rw [compactManifest] at h
  split_ifs at h with hw
  · simp at h
  · rcases hs : freshSealing vs.keyring calls.salt with _ | sealing <;> simp only [hs] at h
    · simp at h
    · rcases hi : vs.image checks sealing calls.aeadNonce with _ | ⟨image, sealedUnder⟩ <;>
        simp only [hi] at h
      · simp at h
      · refine ⟨sealing, image, sealedUnder, rfl, hi, ?_⟩
        cases htemp : calls.temporary <;> cases hrename : calls.rename <;>
          cases hparent : calls.parent <;> cases hreopen : calls.reopen <;>
            simp [htemp, hrename, hparent, hreopen, hostCall, replaceManifest] at h
        exact h.symm

/-- What a rewrite, completed or not, leaves on the host: the file as it was, or the image with
what it replaced still to be brought back by a crash, or the image alone. -/
theorem files_compactManifest (vs : VersionSet) (calls : RewriteCalls) :
    let after := (vs.compactManifest checks calls).2
    (after.manifest = vs.manifest ∧ after.replaced = vs.replaced) ∨
      ∃ sealing image sealedUnder, freshSealing vs.keyring calls.salt = .ok sealing ∧
        vs.image checks sealing calls.aeadNonce = .ok (image, sealedUnder) ∧
        after.manifest = ⟨image, image.length⟩ ∧
        (after.replaced = some vs.manifest ∨ after.replaced = none) := by
  simp only [compactManifest]
  split_ifs with hw
  · exact .inl ⟨rfl, rfl⟩
  · rcases hs : freshSealing vs.keyring calls.salt with _ | sealing
    · exact .inl ⟨rfl, rfl⟩
    · dsimp only
      rcases hi : vs.image checks sealing calls.aeadNonce with _ | ⟨image, sealedUnder⟩
      · exact .inl ⟨rfl, rfl⟩
      · cases htemp : calls.temporary <;> cases hrename : calls.rename <;>
          cases hparent : calls.parent <;> cases hreopen : calls.reopen <;>
            simp [hostCall, replaceManifest, hrename, hparent, hreopen, hi]

theorem appendBatch_error {e : IoError} (h : vs.appendBatch encoded sync calls = (.error e, vs')) :
    vs'.current = vs.current ∧ vs'.replaced = vs.replaced ∧
      ((∀ fault ∈ calls.append, encoded.length ≤ fault.landed) →
        vs'.manifest = ⟨vs.manifest.bytes ++ encoded, vs.manifest.synced⟩) := by
  rw [appendBatch] at h
  cases ha : calls.append with
  | some fault =>
    rw [ha] at h
    cases h
    refine ⟨rfl, rfl, fun hlands => ?_⟩
    rw [List.take_of_length_le (hlands fault rfl)]
  | none =>
    cases sync <;> cases hs : calls.sync <;> simp [ha, writeAll, hs, hostCall] at h
    obtain ⟨-, rfl⟩ := h
    exact ⟨rfl, rfl, fun _ => rfl⟩

theorem appendBatch_ok
    (h : vs.appendBatch encoded sync calls = (.ok (), vs')) :
    vs' = { vs with manifest := ⟨vs.manifest.bytes ++ encoded,
      if sync then (vs.manifest.bytes ++ encoded).length else vs.manifest.synced⟩ } := by
  rw [appendBatch] at h
  cases ha : calls.append with
  | some fault => simp [ha, writeAll] at h
  | none =>
    cases sync with
    | false => simpa [ha, writeAll, eq_comm] using h
    | true =>
      cases hs : calls.sync with
      | some e => simp [ha, writeAll, hs, hostCall] at h
      | none => simpa [ha, writeAll, hs, hostCall, eq_comm] using h

/-- All of the batch reaches the file, whether or not the host says so. -/
def Lands (checks : ManifestChecks) (vs : VersionSet) (edits : List VersionEdit)
    (calls : ApplyCalls) : Prop :=
  ∀ fault ∈ calls.append, ∀ p, encodeRecords checks (vs.batchRecords edits) vs.manifestBytes
    vs.sealing calls.aeadNonce = .ok p → p.1.length ≤ fault.landed

/-- What a batch that was not installed leaves: the file as it was, or with the batch at its
end, where its append or the sync it needed failed. -/
theorem apply_of_logged_none (h : vs.logged checks edits calls = none) :
    (∃ e, (vs.apply checks edits calls).1 = .error e) ∧
      (vs.apply checks edits calls).2.current = vs.current ∧
      (vs.apply checks edits calls).2.replaced = vs.replaced ∧
      (vs.Lands checks edits calls → (vs.apply checks edits calls).2.manifest = vs.manifest ∨
        ∃ encoded sealedUnder, validate edits = .ok () ∧
          encodeRecords checks (vs.batchRecords edits) vs.manifestBytes vs.sealing
            calls.aeadNonce = .ok (encoded, sealedUnder) ∧
          (vs.apply checks edits calls).2.manifest =
            ⟨vs.manifest.bytes ++ encoded, vs.manifest.synced⟩) := by
  rw [logged] at h
  rw [apply]
  rcases hv : validate edits with e | _ <;> simp only [hv] at h ⊢
  · exact ⟨⟨e, rfl⟩, trivial, trivial, fun _ => .inl trivial⟩
  · rcases he : encodeRecords checks (vs.batchRecords edits) vs.manifestBytes vs.sealing
      calls.aeadNonce with e | ⟨encoded, sealedUnder⟩ <;> simp only [he] at h ⊢
    · exact ⟨⟨e, rfl⟩, trivial, trivial, fun _ => .inl trivial⟩
    · split_ifs at h ⊢
      · exact ⟨⟨_, rfl⟩, rfl, rfl, fun _ => .inl rfl⟩
      · rcases ha : appendBatch { vs with unlogged := [] } encoded (vs.requiresSync edits) calls
          with ⟨e | _, vs'⟩ <;> simp only [ha] at h ⊢
        · obtain ⟨hcur, hrepl, hman⟩ := appendBatch_error ha
          exact ⟨⟨e, rfl⟩, hcur, hrepl, fun hlands => .inr ⟨encoded, sealedUnder, trivial, rfl,
            hman fun fault hfault => hlands fault hfault _ he⟩⟩
        · cases h

/-- What a batch that was logged leaves: the file with the batch at its end, and the version
of the batch. -/
theorem exists_of_logged (h : vs.logged checks edits calls = some installed) :
    ∃ encoded sealedUnder, validate edits = .ok () ∧
      encodeRecords checks (vs.batchRecords edits) vs.manifestBytes vs.sealing
        calls.aeadNonce = .ok (encoded, sealedUnder) ∧ vs.writer = true ∧
      installed = { vs with
        current := vs.current.applyEdits edits
        unlogged := []
        manifest := ⟨vs.manifest.bytes ++ encoded, if vs.requiresSync edits then
          (vs.manifest.bytes ++ encoded).length else vs.manifest.synced⟩
        manifestBytes := vs.manifestBytes + encoded.length
        rangeDeletesChecked := vs.rangeDeletesChecked || vs.recordsCheck
        sealedUnder := pushKeyId vs.sealedUnder sealedUnder } := by
  rw [logged] at h
  rcases hv : validate edits with e | _ <;> simp only [hv] at h
  · cases h
  · rcases he : encodeRecords checks (vs.batchRecords edits) vs.manifestBytes vs.sealing
      calls.aeadNonce with e | ⟨encoded, sealedUnder⟩ <;> simp only [he] at h
    · cases h
    · split_ifs at h with hw
      refine ⟨encoded, sealedUnder, rfl, rfl, by simpa using hw, ?_⟩
      rcases ha : appendBatch { vs with unlogged := [] } encoded (vs.requiresSync edits) calls
        with ⟨e | _, vs'⟩ <;> simp only [ha] at h
      · cases h
      · rw [← Option.some.inj h, appendBatch_ok ha]
        rfl

theorem exists_logged_of_plain (hvalid : validate edits = .ok ()) (hne : vs.batchRecords edits ≠ [])
    (hseal : vs.sealing = none) (hlen : (encodeAll (vs.batchRecords edits)).length < 2 ^ 32)
    (hw : vs.writer = true) (ha : calls.append = none) (hs : calls.sync = none) : ∃
    installed, vs.logged checks edits calls = some installed ∧
      installed.manifestBytes = vs.manifestBytes +
        ((encodeAll (vs.batchRecords edits)).length + 8) := by
  have henc : encodeRecords checks (vs.batchRecords edits) vs.manifestBytes vs.sealing
      calls.aeadNonce = .ok (frameBatch checks
        (encodeAll (vs.batchRecords edits)), none) := by
    simp only [encodeRecords, if_neg hne, hseal, if_pos hlen]
  have hf : (frameBatch checks (encodeAll (vs.batchRecords edits))).length =
        (encodeAll (vs.batchRecords edits)).length + 8 := by
    simp [frameBatch]
    omega
  cases hlog : vs.logged checks edits calls with
  | none =>
    simp only [logged, hvalid, henc, hw, Bool.not_true, Bool.false_eq_true, if_false,
      appendBatch, ha, writeAll, hs, hostCall] at hlog
    split_ifs at hlog
  | some installed =>
    obtain ⟨encoded, sealedUnder, -, henc', -, rfl⟩ := exists_of_logged hlog
    rw [henc] at henc'
    obtain ⟨rfl, -⟩ := Prod.mk.inj (Except.ok.inj henc')
    exact ⟨_, rfl, by rw [hf]⟩

theorem rewriteFails_of_temporary {calls : RewriteCalls} (h : calls.temporary.isSome) :
    vs.RewriteFails checks calls := by
  rw [RewriteFails]
  rcases freshSealing vs.keyring calls.salt with _ | sealing
  · trivial
  · dsimp only
    rcases vs.image checks sealing calls.aeadNonce with _ | _
    · trivial
    · exact .inl h

/-- A batch that was logged is installed, and what `apply` returns is what the rewrite does. -/
theorem apply_of_logged (h : vs.logged checks edits calls = some installed)
    : installed.current = vs.current.applyEdits edits ∧ installed.writer = true ∧
      vs.apply checks edits calls =
        if installed.rewriteDue (vs.unlogged ≠ []) then
          installed.compactManifest checks calls.rewrite
        else (.ok (), installed) := by
  obtain ⟨encoded, sealedUnder, hv, he, hw, heq⟩ := exists_of_logged h
  refine ⟨by rw [heq], by rw [heq]; exact hw, ?_⟩
  rw [logged] at h
  simp only [hv, he, hw, Bool.not_true, Bool.false_eq_true, if_false] at h
  simp only [apply, hv, he, hw, Bool.not_true, Bool.false_eq_true, if_false]
  rcases ha : appendBatch { vs with unlogged := [] } encoded (vs.requiresSync edits) calls
    with ⟨e | _, vs'⟩ <;> simp only [hw] at ha <;> simp only [ha] at h ⊢
  · cases h
  · rw [Option.some.inj h]

/-- `apply` is all or nothing exactly when no rewrite that is due fails after a batch that
changes the version. -/
theorem apply_allOrNothing_iff (checks : ManifestChecks) (vs : VersionSet)
    (edits : List VersionEdit) (calls : ApplyCalls) : vs.AllOrNothing checks edits calls ↔
      ∀ installed, vs.logged checks edits calls = some installed →
        installed.rewriteDue (vs.unlogged ≠ []) = true →
          installed.RewriteFails checks calls.rewrite →
            (vs.current.applyEdits edits).Same vs.current := by
  cases hlog : vs.logged checks edits calls with
  | none =>
    obtain ⟨⟨e, he⟩, hcur, -⟩ := apply_of_logged_none hlog
    simp [AllOrNothing, he, hcur, Version.Same.refl]
  | some installed =>
    obtain ⟨hcur, hwtr, happly⟩ := apply_of_logged hlog
    simp only [Option.some.injEq, forall_eq', AllOrNothing, happly]
    by_cases hdue : installed.rewriteDue (vs.unlogged ≠ []) = true
    · simp only [hdue, if_true, current_compactManifest, hcur, forall_const]
      have hok := @compactManifest_ok_iff checks installed hwtr calls.rewrite
      rcases hres : (installed.compactManifest checks calls.rewrite).1 with e | _
      · have hfails : installed.RewriteFails checks calls.rewrite := by
          by_contra hno
          have := hok.mpr hno
          simp [hres] at this
        simp [hfails]
      · have hno : ¬ installed.RewriteFails checks calls.rewrite := hok.mp hres
        simp [hno, Version.Same.refl]
    · simp only [hdue]
      simp [hcur, Version.Same.refl]

/-! A database created without encryption is opened with a key provider before its first
edit. That edit carries the record the open left, so the manifest is rewritten sealed right
after it, and the rename fails. -/

def sampleSealer : Sealer :=
  ⟨1, fun _ _ plain => some (plain, List.replicate tagLen 0), fun _ _ body _ => some body,
    by rintro _ _ _ _ _ ⟨⟩; exact ⟨rfl, rfl⟩, by rintro _ _ _ _ _ ⟨⟩; rfl⟩

def sampleKeyring : Keyring :=
  ⟨1, fun id => if id = 1 then some sampleSealer else none, by
    intro id s h
    split_ifs at h with hid
    exact Option.some.inj h ▸ hid.symm⟩

def sampleSalt : Salt := ⟨List.replicate saltLen 0, rfl⟩

def sampleManifestChecks : ManifestChecks := ⟨fun len _ => UInt32.ofNat len⟩

def sampleDir : TableDir := ⟨"sst", 0, "", none⟩

def sampleRename : RewriteCalls :=
  ⟨.ok sampleSalt, sampleAeadNonce, none, some ⟨.other, "rename"⟩, none, none⟩

/-- The first edit of the database returns an error and is installed all the same. -/
theorem apply_of_failed_rename :
    let manifest := (create sampleManifestChecks "MANIFEST" sampleDir none sampleSalt).manifest
    ∃ vs, openExisting sampleManifestChecks (fun _ _ => .error ⟨.other, "no table"⟩) "MANIFEST"
        sampleDir manifest (some sampleKeyring) sampleSalt sampleRename = .ok vs ∧
      vs.current.nextFileId = 1 ∧
      (vs.apply sampleManifestChecks [.setNextFileId 9] ⟨⟨List.replicate nonceLen 0, rfl⟩, none,
        none, sampleRename⟩).1 = .error ⟨.other, "rename"⟩ ∧
      (vs.apply sampleManifestChecks [.setNextFileId 9] ⟨⟨List.replicate nonceLen 0, rfl⟩, none,
        none, sampleRename⟩).2.current.nextFileId = 9 := by
  exact ⟨_, rfl, rfl, rfl, rfl⟩

end VersionSet

end RegolithStore
