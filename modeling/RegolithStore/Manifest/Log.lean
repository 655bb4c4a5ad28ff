import RegolithStore.Manifest.Atomic
import RegolithStore.Manifest.Rebuild

/-! The manifest a version set leaves behind: the stamp and the batches of the history. Replaying
all of them mirrors the current version, and replaying those before a batch that is not yet
durable mirrors the version of the operations before that batch. Every accepted operation keeps
this, a rewrite by starting a history of one batch. -/

namespace RegolithStore

open Lib List VersionSet Option

variable {v : Version} {rest : Bytes}
  {openTable : UInt64 → Option Seq → Except IoError SsTableReader}

/-! ### Histories -/

variable (ops : List VersionSetOp)

def editsOf : List VersionEdit :=
  ops.flatMap fun
    | .apply edits _ => edits
    | .rotate _ => []

def versionAfter : Version := Version.new.applyEdits (editsOf ops)

theorem versionAfter_apply (edits : List VersionEdit) (calls : ApplyCalls)
    : versionAfter (ops ++ [.apply edits calls]) = (versionAfter ops).applyEdits edits := by
  simp [versionAfter, editsOf, Version.applyEdits_append]

theorem versionAfter_rotate (id : UInt32) :
    versionAfter (ops ++ [.rotate id]) = versionAfter ops := by
  simp [versionAfter, editsOf]

/-- A batch of the log and the operations that came before it. -/
structure LoggedBatch where
  batch : ManifestBatch
  before : List VersionSetOp

variable {pre : List LoggedBatch}

variable (checks : ManifestChecks) {sealedUnder : Option UInt32} {op : VersionSetOp}

namespace LoggedBatch

def frame (offset : Nat) (b : LoggedBatch) : Bytes :=
  b.batch.frame checks offset

/-- The batch is synced before `apply` returns. -/
def NeedsSync (b : LoggedBatch) : Prop := b.batch.records.any ManifestRecord.requiresSync = true

theorem frame_ne_nil (offset : Nat) (b : LoggedBatch) : b.frame checks offset ≠ [] :=
  b.batch.frame_ne_nil checks offset

end LoggedBatch

def replayed (hist : List LoggedBatch) : ReplayState :=
  ReplayState.new.replayAll (hist.flatMap fun b => b.batch.records.map .bare)

theorem replayed_concat (hist : List LoggedBatch) (b : LoggedBatch) :
    replayed (hist ++ [b]) = (replayed hist).replayAll (b.batch.records.map .bare) := by
  simp [replayed, ReplayState.replayAll_append]

/-! ### Replaying a log -/

open LoggedBatch

section Replay

variable {checks : ManifestChecks} {data : Bytes} {sealing : Option ManifestSeal}

/-- Replay reads every batch the file holds. -/
theorem replayFrom_batches {hist : List LoggedBatch} {turns : Nat} {r : ReplayedBatches}
    (hwr : ∀ p ∈ placed (frame checks) r.validLen hist,
      p.2.batch.Written sealing p.1)
    (hi : ∀ p ∈ placed (frame checks) r.validLen hist,
      Intact (frame checks) data p) (ht : hist.length ≤ turns) :
    ∃ keyIds, replayFrom checks data sealing turns r =
      replayFrom checks data sealing (turns - hist.length)
        ⟨r.state.replayAll (hist.flatMap fun b => b.batch.records.map .bare),
          endOf (frame checks) r.validLen hist, keyIds⟩ := by
  induction hist generalizing turns r with
  | nil => exact ⟨r.keyIds, by simp [ReplayState.replayAll]⟩
  | cons b hist ih =>
    obtain ⟨turns, rfl⟩ : ∃ t, turns = t + 1 := ⟨turns - 1, by simp at ht; omega⟩
    simp only [placed, forall_mem_cons] at hwr hi
    obtain ⟨⟨hlen, ⟨id, hopens⟩, hf⟩, hwr⟩ := hwr
    have hb := Manifest.batchAt_of_holds hlen hi.1
    have hlt : r.validLen < data.length := by
      have hend : r.validLen + (b.frame checks r.validLen).length ≤ data.length :=
        hi.1.end_le (b.frame_ne_nil checks _)
      have hpos := length_pos_iff.mpr (b.frame_ne_nil checks r.validLen)
      omega
    obtain ⟨keyIds, hr⟩ := @ih turns ⟨r.state.replayAll (b.batch.records.map .bare),
      r.validLen + (b.frame checks r.validLen).length, pushKeyId r.keyIds id⟩ hwr hi.2
      (by simpa using ht)
    refine ⟨keyIds, ?_⟩
    rw [replayFrom, if_pos hlt, hb]
    dsimp only
    rw [hopens, Except.bind, ManifestRecord.decodeAll,
      ManifestRecord.decodeWithin_encodeAll hf (ManifestRecord.length_le_encodeAll _)]
    rw [length_cons, Nat.add_sub_add_right, endOf_cons, flatMap_cons, ReplayState.replayAll_append]
    exact hr

theorem replayFrom_stop {turns : Nat} {r : ReplayedBatches}
    (h : Manifest.batchAt checks data r.validLen = none) :
    replayFrom checks data sealing turns r = .ok r := by
  cases turns with
  | zero => rfl
  | succ turns =>
    rw [replayFrom, h]
    split_ifs <;> rfl

theorem batchAt_of_length_le {offset : Nat} (h : data.length ≤ offset) :
    Manifest.batchAt checks data offset = none := by
  rw [Manifest.batchAt, if_pos (by omega)]

end Replay

/-! ### The file -/

def stampOf (sealing : Option ManifestSeal) : Bytes :=
  Manifest.stampBytes checks (sealing.map ManifestSeal.salt)

/-- The file holds the batches of a fresh set's operations. `must` are the operations a crash
may not take back. -/
structure LogFile (checks : ManifestChecks) (keyring : Option Keyring)
    (sealing : Option ManifestSeal) (file : SyncedFile) (hist : List LoggedBatch)
    (ops : List VersionSetOp) (must : List VersionSetOp → Prop) : Prop where
  sealing_eq : sealingOf keyring (sealing.map ManifestSeal.salt) = sealing
  sealed : sealing.isSome = keyring.isSome
  bytes_eq : file.bytes = stampOf checks sealing ++
    layout (frame checks) (stampOf checks sealing).length hist
  boundary : ∃ first, first <+: hist ∧
    file.synced = endOf (frame checks) (stampOf checks sealing).length first
  written : ∀ p ∈ placed (frame checks) (stampOf checks sealing).length hist,
    p.2.batch.Written sealing p.1
  mirrors : Mirrors (versionAfter ops) (replayed hist)
  kept : (versionAfter ops).Kept
  must_le : ∀ early, must early → early <+: ops
  past : ∀ pre b suf, hist = pre ++ b :: suf →
    file.synced ≤ endOf (frame checks) (stampOf checks sealing).length pre →
      b.before <+: ops ∧ Mirrors (versionAfter b.before) (replayed pre) ∧
        (versionAfter b.before).Kept ∧ ∀ early, must early → early <+: b.before

namespace LogFile

variable {checks : ManifestChecks} {keyring : Option Keyring} {sealing : Option ManifestSeal}
  {file : SyncedFile} {hist : List LoggedBatch} {ops : List VersionSetOp}
  {must must' : List VersionSetOp → Prop}

section

variable (h : LogFile checks keyring sealing file hist ops must)

include h

theorem length_bytes : file.bytes.length =
      endOf (frame checks) (stampOf checks sealing).length hist := by
  rw [h.bytes_eq, length_append, endOf]

theorem stamp_le : (stampOf checks sealing).length ≤ file.synced := by
  obtain ⟨first, -, hs⟩ := h.boundary
  exact hs ▸ start_le_endOf _ _

theorem synced_le : file.synced ≤ file.bytes.length := by
  obtain ⟨first, hf, hs⟩ := h.boundary
  rw [hs, h.length_bytes]
  exact endOf_mono hf _

theorem stampLen {data : Bytes}
    (hdata : data = stampOf checks sealing ++ rest) : Manifest.stampLen checks data keyring =
      .ok ((stampOf checks sealing).length, sealing.map ManifestSeal.salt) := by
  subst hdata
  cases hsealing : sealing with
  | none =>
    exact Manifest.stampLen_plain checks keyring rest
  | some s =>
    have hkr : keyring.isSome := by
      have hs := h.sealing_eq
      rw [hsealing] at hs
      cases keyring with
      | none => cases hs
      | some k => rfl
    rw [stampOf, map_some, Manifest.length_stampBytes_some]
    exact Manifest.stampLen_sealed checks s.salt hkr rest

theorem intact : ∀ p ∈ placed (frame checks) (stampOf checks sealing).length hist,
      Intact (frame checks) file.bytes p := by
  intro p hp
  rw [h.bytes_eq]
  exact intact_of_mem_placed hp

/-- A file that begins with the stamp and some of the batches, and has none behind them. -/
theorem replayManifest_eq {data : Bytes} (hdata : data = stampOf checks sealing ++ rest)
    (hpre : pre <+: hist) (hi : ∀ p ∈ placed (frame checks) (stampOf checks sealing).length pre,
      Intact (frame checks) data p)
    (hs : Manifest.batchAt checks data
      (endOf (frame checks) (stampOf checks sealing).length pre) = none) :
    ∃ keyIds, replayManifest checks openTable data keyring = finishReplay openTable
      (stampOf checks sealing).length (sealing.map ManifestSeal.salt)
      ⟨replayed pre, endOf (frame checks) (stampOf checks sealing).length pre,
        keyIds⟩ := by
  have hwr : ∀ p ∈ placed (frame checks) (stampOf checks sealing).length pre,
      p.2.batch.Written sealing p.1 := by
    intro p hp
    obtain ⟨suf, rfl⟩ := hpre
    refine h.written p ?_
    rw [placed_append]
    exact mem_append_left _ hp
  have hlen : pre.length ≤ data.length := by
    have hstm : (stampOf checks sealing).length ≤ data.length := by
      rw [hdata, length_append]
      exact Nat.le_add_right _ _
    have hend := endOf_le_length (frame_ne_nil checks) hstm hi
    have hlayout := length_le_layout (frame_ne_nil checks) (stampOf checks sealing).length pre
    rw [endOf] at hend
    omega
  obtain ⟨keyIds, hloop⟩ := @replayFrom_batches checks data sealing pre data.length
    ⟨ReplayState.new, (stampOf checks sealing).length, []⟩ hwr hi hlen
  refine ⟨keyIds, ?_⟩
  rw [replayManifest, h.stampLen hdata, Except.bind, h.sealing_eq, hloop, replayFrom_stop hs,
    Except.bind]
  rfl

theorem not_split_of_synced (hs : file.synced = file.bytes.length)
    {suf : List LoggedBatch} {b : LoggedBatch} (hh : hist = pre ++ b :: suf) :
    ¬ file.synced ≤ endOf (frame checks) (stampOf checks sealing).length pre := by
  rw [hs, h.length_bytes, not_le, hh]
  exact lt_end_of_mem_placed (frame_ne_nil checks) mem_placed_of_split

theorem must_le_concat {P : Prop} (hm : ∀ early, must' early →
      must early ∨ early = ops ++ [op] ∧ P) : ∀ early, must' early → early <+: ops ++ [op] := by
  intro early he
  rcases hm early he with he | ⟨rfl, -⟩
  · exact (h.must_le early he).trans (prefix_append _ _)
  · exact prefix_rfl

theorem keep (hop : versionAfter (ops ++ [op]) = versionAfter ops) (hm : ∀ early, must' early →
      must early ∨ early = ops ++ [op] ∧ file.synced = file.bytes.length) :
    LogFile checks keyring sealing file hist (ops ++ [op]) must' := by
  refine ⟨h.sealing_eq, h.sealed, h.bytes_eq, h.boundary, h.written, hop ▸ h.mirrors,
    hop ▸ h.kept, h.must_le_concat hm, fun pre b suf hh hs => ?_⟩
  obtain ⟨hb, hmirrors, hk, hpast⟩ := h.past pre b suf hh hs
  refine ⟨hb.trans (prefix_append _ _), hmirrors, hk, fun early he => ?_⟩
  rcases hm early he with he | ⟨-, hall⟩
  · exact hpast early he
  · exact absurd hs (h.not_split_of_synced hall hh)

/-- A batch more. -/
theorem append {b : ManifestBatch} {synced : Nat} (hb : b.Written sealing file.bytes.length)
    (hmirrors : Mirrors (versionAfter (ops ++ [op])) ((replayed hist).replayAll
      (b.records.map .bare)))
    (hkept : (versionAfter (ops ++ [op])).Kept)
    (hs : synced = file.synced ∨ synced = (file.bytes ++ b.frame checks file.bytes.length).length)
    (hmust : ∀ early, must' early → must early ∨ early = ops ++ [op] ∧
      synced = (file.bytes ++ b.frame checks file.bytes.length).length) :
    LogFile checks keyring sealing ⟨file.bytes ++ b.frame checks file.bytes.length, synced⟩
      (hist ++ [⟨b, ops⟩]) (ops ++ [op]) must' := by
  have hpre : ops <+: ops ++ [op] := prefix_append _ _
  have hend := h.length_bytes
  have hpos := length_pos_iff.mpr (b.frame_ne_nil checks file.bytes.length)
  refine ⟨h.sealing_eq, h.sealed, ?_, ?_, ?_, ?_, hkept, h.must_le_concat hmust,
    fun pre c suf hh hcut => ?_⟩
  · rw [h.bytes_eq, layout_append, append_assoc, layout, layout, append_nil, ← hend, ← h.bytes_eq]
    rfl
  · rcases hs with rfl | rfl
    · obtain ⟨first, hf, hs⟩ := h.boundary
      exact ⟨first, hf.trans (prefix_append _ _), hs⟩
    · refine ⟨hist ++ [⟨b, ops⟩], prefix_rfl, ?_⟩
      rw [endOf_concat, ← hend, length_append]
      rfl
  · intro p hp
    rw [placed_concat, mem_append, mem_singleton, ← hend] at hp
    rcases hp with hp | rfl
    · exact h.written p hp
    · exact hb
  · rw [replayed_concat]
    exact hmirrors
  · -- A cut leaves out the new batch alone, or more of the file as it was.
    dsimp only at hcut
    rcases concat_eq_append_cons hh with ⟨rfl, rfl⟩ | ⟨rest, hin⟩
    · have hall : synced ≠ (file.bytes ++ b.frame checks file.bytes.length).length := by
        rw [length_append]
        omega
      refine ⟨hpre, h.mirrors, h.kept, fun early he => ?_⟩
      rcases hmust early he with he | ⟨-, hw⟩
      · exact h.must_le early he
      · exact absurd hw hall
    · have hlt : endOf (frame checks) (stampOf checks sealing).length pre <
          file.bytes.length := by
        rw [hend, hin]
        exact lt_end_of_mem_placed (frame_ne_nil checks) mem_placed_of_split
      have hall : synced ≠ (file.bytes ++ b.frame checks file.bytes.length).length := by
        rw [length_append]
        omega
      have hold : synced = file.synced := hs.resolve_right hall
      obtain ⟨hbef, hm, hk, hpast⟩ := h.past pre c rest hin (hold ▸ hcut)
      refine ⟨hbef.trans hpre, hm, hk, fun early he => ?_⟩
      rcases hmust early he with he | ⟨-, hw⟩
      · exact hpast early he
      · exact absurd hw hall

/-- A history of one batch, the image. -/
theorem image (hm : ∀ early, must' early → early <+: ops) {salt : Except IoError Salt}
    {sealing' : Option ManifestSeal} {checked : Bool} {aeadNonce : AeadNonce} {image : Bytes} (hfr : VersionSet.freshSealing keyring salt = .ok sealing')
    (himage : Manifest.encodeImage checks (versionAfter ops).nextFileId (versionAfter ops).lastSeq
      (versionAfter ops).minWalId checked
      ((versionAfter ops).listedTables.map fun p => (p.1, p.2.metadata)) sealing' aeadNonce =
        .ok (image, sealedUnder)) :
    ∃ b, LogFile checks keyring sealing' ⟨image, image.length⟩ [⟨b, ops⟩] ops must' := by
  have hs : sealingOf keyring (sealing'.map ManifestSeal.salt) = sealing' ∧
      sealing'.isSome = keyring.isSome := by
    cases keyring with
    | none => cases hfr; exact ⟨rfl, rfl⟩
    | some k =>
      cases salt with
      | error e => cases hfr
      | ok salt => cases hfr; exact ⟨rfl, rfl⟩
  rw [Manifest.encodeImage] at himage
  cases hl : ((versionAfter ops).listedTables.map fun p => (p.1, p.2.metadata)).forM
      fun f => validateLevelIndex f.1 with
  | error e => simp [hl, Except.bind] at himage
  | ok _ =>
    cases hb : Manifest.encodeRecords checks (Manifest.imageRecords (versionAfter ops).nextFileId
        (versionAfter ops).lastSeq (versionAfter ops).minWalId checked
        ((versionAfter ops).listedTables.map fun p => (p.1, p.2.metadata)))
        (Manifest.stampBytes checks (sealing'.map ManifestSeal.salt)).length sealing' aeadNonce with
    | error e => simp [hl, hb, Except.bind, Except.map] at himage
    | ok batch =>
      simp only [hl, hb, Except.bind, Except.map, Except.ok.injEq, Prod.mk.injEq] at himage
      obtain ⟨b, hr, hf, hwr⟩ := ManifestBatch.exists_of_encodeRecords
        (by simp [Manifest.imageRecords]) h.kept.sound_imageRecords hb
      refine ⟨b, ⟨hs.1, hs.2, ?_, ⟨[⟨b, ops⟩], prefix_rfl, ?_⟩, ?_, ?_, h.kept, hm,
        fun pre c suf hh hcut => ?_⟩⟩
      · simp only [layout, append_nil]
        rw [← himage.1, ← hf]
        rfl
      · rw [endOf_cons, endOf_nil, ← himage.1, ← hf, length_append]
        rfl
      · intro p hp
        rw [placed, placed, mem_singleton] at hp
        exact hp ▸ hwr
      · have hreplayed : replayed [⟨b, ops⟩] = ReplayState.new.replayAll (b.records.map .bare) := by
          simp [replayed]
        rw [hreplayed, hr]
        exact h.mirrors.image h.kept checked
      · -- The image was synced before it took the manifest's place.
        exfalso
        rcases pre with _ | ⟨d, pre⟩
        · have hpos := length_pos_iff.mpr (b.frame_ne_nil checks
            (Manifest.stampBytes checks (sealing'.map ManifestSeal.salt)).length)
          rw [endOf_nil, ← himage.1, ← hf] at hcut
          simp only [length_append, stampOf] at hcut
          omega
        · have hlen := congrArg List.length hh
          simp at hlen

theorem rotate (id : UInt32) : LogFile checks (keyring.map fun k => k.rotate id)
      (sealing.map fun s => { s with keyring := s.keyring.rotate id }) file hist ops must := by
  have hsalt : (sealing.map fun s => { s with keyring := s.keyring.rotate id }).map
      ManifestSeal.salt = sealing.map ManifestSeal.salt := by
    cases sealing <;> rfl
  have hwr : ∀ offset b, ManifestBatch.Written sealing offset b →
      b.Written (sealing.map fun s => { s with keyring := s.keyring.rotate id }) offset := by
    rintro offset b ⟨hlen, hopens, hf⟩
    cases sealing with
    | none | some s => exact ⟨hlen, hopens, hf⟩
  refine ⟨?_, by simpa using h.sealed, ?_, ?_, ?_, h.mirrors, h.kept, h.must_le, ?_⟩
  · have hs := h.sealing_eq
    cases keyring <;> cases sealing <;> simp_all [sealingOf]
    exact hs ▸ rfl
  · rw [stampOf, hsalt]
    exact h.bytes_eq
  · rw [stampOf, hsalt]
    exact h.boundary
  · intro p hp
    rw [stampOf, hsalt] at hp
    exact hwr p.1 p.2.batch (h.written p hp)
  · rw [stampOf, hsalt]
    exact h.past

end

end LogFile

/-! ### The set -/

structure VersionSet.Logged (checks : ManifestChecks) (vs : VersionSet) (hist : List LoggedBatch)
    (ops : List VersionSetOp) (must : List VersionSetOp → Prop) : Prop where
  file : LogFile checks vs.keyring vs.sealing vs.manifest hist ops must
  writer : vs.writer = true
  replaced : vs.replaced = none
  current : vs.current = versionAfter ops
  manifestBytes : vs.manifestBytes = vs.manifest.bytes.length
  unlogged : ∀ r ∈ vs.unlogged, r = .rangeDeletesChecked
  needs : ∀ pre b suf, hist = pre ++ b :: suf → b.NeedsSync →
    endOf (frame checks) (stampOf checks vs.sealing).length (pre ++ [b]) ≤
      vs.manifest.synced

def VersionSet.Synced (vs : VersionSet) : Prop := vs.manifest.synced = vs.manifest.bytes.length

instance (vs : VersionSet) : Decidable vs.Synced := inferInstanceAs (Decidable (_ = _))

def VersionSetOp.Promised (vs : VersionSet) : VersionSetOp → Prop
  | apply edits _ => vs.current.Promises edits
  | rotate _ => True

theorem VersionEdit.toRecords_ne_nil (e : VersionEdit) : e.toRecords ≠ [] := by
  cases e <;> simp [toRecords, pushTable]

theorem VersionEdit.Promised.sound {e : VersionEdit} (h : e.Promised v) (hrng : e.InRange) :
    ∀ r ∈ e.toRecords, r.Sound := by
  cases e with
  | addFile level f => exact sound_pushTable (hrng level rfl) h.2.1
  | removeFile level fileId => exact fun r hr => mem_singleton.mp hr ▸ hrng level rfl
  | countFile _ _ _ | setLastSeq _ | setNextFileId _ | setMinWalId _ | reset _ _ =>
    exact fun r hr => mem_singleton.mp hr ▸ trivial

theorem Version.Promises.sound {edits : List VersionEdit} (h : v.Promises edits)
    (hrng : ∀ e ∈ edits, e.InRange) : ∀ r ∈ edits.flatMap VersionEdit.toRecords, r.Sound := by
  induction edits generalizing v with
  | nil => simp
  | cons e edits ih =>
    rw [forall_mem_cons] at hrng
    intro r hr
    rw [flatMap_cons, mem_append] at hr
    rcases hr with hr | hr
    · exact h.1.sound hrng.1 r hr
    · exact ih h.2 hrng.2 r hr

theorem Mirrors.replayAll_checked {s : ReplayState} (h : Mirrors v s)
    {records : List ManifestRecord} (hr : ∀ r ∈ records, r = .rangeDeletesChecked) :
    Mirrors v (s.replayAll (records.map .bare)) := by
  induction records generalizing s with
  | nil => exact h
  | cons r records ih =>
    rw [forall_mem_cons] at hr
    obtain rfl := hr.1
    exact ih ⟨h.tables, h.counts, h.listed, h.lastSeq, h.nextFileId, h.minWalId⟩ hr.2

namespace VersionSet

variable {checks : ManifestChecks} {vs : VersionSet} {hist : List LoggedBatch}
  {ops : List VersionSetOp} {must must' : List VersionSetOp → Prop} {edits : List VersionEdit}
  {calls : ApplyCalls}

/-- The batch of promised edits, written at the end of the log: either nothing is to be
written, or a batch is that reads back and keeps the log in step with the version. -/
theorem Logged.encoded (h : vs.Logged checks hist ops must) (hp : vs.current.Promises edits)
    (hvalid : VersionEdit.validate edits = .ok ()) {encoded : Bytes}
    (he : Manifest.encodeRecords checks (vs.batchRecords edits) vs.manifestBytes vs.sealing
      calls.aeadNonce = .ok (encoded, sealedUnder)) :
    (encoded = [] ∧ edits = [] ∧ vs.requiresSync edits = false) ∨
      ∃ b : ManifestBatch, b.records = vs.batchRecords edits ∧
        b.frame checks vs.manifest.bytes.length = encoded ∧
        b.Written vs.sealing vs.manifest.bytes.length ∧
        Mirrors (versionAfter (ops ++ [.apply edits calls]))
          ((replayed hist).replayAll (b.records.map .bare)) ∧
        (versionAfter (ops ++ [.apply edits calls])).Kept := by
  have hrng := VersionEdit.validate_eq_ok hvalid
  rw [h.manifestBytes] at he
  by_cases hnil : vs.batchRecords edits = []
  · refine .inl ⟨?_, ?_, ?_⟩
    · rw [Manifest.encodeRecords, if_pos hnil] at he
      exact (Prod.mk.inj (Except.ok.inj he)).1.symm
    · rw [batchRecords, append_eq_nil_iff, flatMap_eq_nil_iff] at hnil
      cases edits with
      | nil => rfl
      | cons e edits => exact absurd (hnil.2 e mem_cons_self) e.toRecords_ne_nil
    · have hunlogged : vs.unlogged = [] := (append_eq_nil_iff.mp hnil).1
      simp [requiresSync, hnil, recordsCheck, hunlogged]
  · have hs : ∀ r ∈ vs.batchRecords edits, r.Sound := by
      intro r hr
      rcases mem_append.mp hr with hr | hr
      · exact h.unlogged r hr ▸ trivial
      · exact hp.sound hrng r hr
    obtain ⟨b, hrecs, hf, hwr⟩ :=
      ManifestBatch.exists_of_encodeRecords hnil hs he
    rw [h.current] at hp
    have hb := (h.file.mirrors.replayAll_checked h.unlogged).applyEdits h.file.kept hrng hp
    rw [versionAfter_apply]
    refine .inr ⟨b, hrecs, hf, hwr, ?_, hb.2⟩
    rw [hrecs, batchRecords, map_append, ReplayState.replayAll_append]
    exact hb.1

/-- What `must` becomes with one operation more, when it left the file synced as `vs` has it. -/
def MustAfter (must : List VersionSetOp → Prop) (ops : List VersionSetOp) (file : SyncedFile)
    (early : List VersionSetOp) : Prop :=
  must early ∨ early = ops ∧ file.synced = file.bytes.length

section

variable (h : vs.Logged checks hist ops must) {vs' : VersionSet}

include h

theorem Logged.mono (hmust : ∀ early, must' early → must early) :
    vs.Logged checks hist ops must' := by
  refine ⟨⟨h.file.sealing_eq, h.file.sealed, h.file.bytes_eq, h.file.boundary, h.file.written,
    h.file.mirrors, h.file.kept, fun early he => h.file.must_le early (hmust early he),
    fun pre b suf hh hcut => ?_⟩, h.writer, h.replaced, h.current, h.manifestBytes, h.unlogged,
    h.needs⟩
  obtain ⟨hb, hm, hk, hpast⟩ := h.file.past pre b suf hh hcut
  exact ⟨hb, hm, hk, fun early he => hpast early (hmust early he)⟩

/-- A batch that was logged is in the history. -/
theorem Logged.installed (hp : vs.current.Promises edits)
    {installed : VersionSet} (hlog : vs.logged checks edits calls = some installed) :
    ∃ hist', installed.Logged checks hist' (ops ++ [.apply edits calls])
      (MustAfter must (ops ++ [.apply edits calls]) installed.manifest) := by
  obtain ⟨encoded, sealedUnder, hvalid, henc, hw, rfl⟩ := exists_of_logged hlog
  have hcur : vs.current.applyEdits edits = versionAfter (ops ++ [.apply edits calls]) := by
    rw [versionAfter_apply, h.current]
  rcases h.encoded hp hvalid henc with ⟨rfl, rfl, hs⟩ | ⟨b, hr, rfl, hwr, hm, hk⟩
  · have hf : (⟨vs.manifest.bytes ++ [], if vs.requiresSync [] then
        (vs.manifest.bytes ++ []).length else vs.manifest.synced⟩ : SyncedFile) = vs.manifest := by
      rw [hs, append_nil]
      rfl
    refine ⟨hist, ⟨?_, hw, h.replaced, hcur, ?_, by simp, ?_⟩⟩
    · simp only [hf]
      exact h.file.keep (by rw [versionAfter_apply, Version.applyEdits_nil]) fun _ he => he
    · simpa using h.manifestBytes
    · simpa [hs] using h.needs
  · refine ⟨hist ++ [⟨b, ops⟩], ⟨?_, hw, h.replaced, hcur, ?_, by simp, ?_⟩⟩
    · refine h.file.append hwr hm hk ?_ fun _ he => he
      by_cases hs : vs.requiresSync edits = true
      · exact .inr (if_pos hs)
      · exact .inl (if_neg hs)
    · simp only [length_append, h.manifestBytes]
    · intro pre c suf hh hneed
      rcases concat_eq_append_cons hh with ⟨rfl, rfl⟩ | ⟨rest, hin⟩
      · have hs : vs.requiresSync edits = true := by
          rw [LoggedBatch.NeedsSync, hr] at hneed
          simp [requiresSync, hneed]
        simp only [if_pos hs, endOf_concat, ← h.file.length_bytes, length_append]
        exact le_rfl
      · refine (h.needs pre c rest hin hneed).trans ?_
        have hle := h.file.synced_le
        dsimp only
        split_ifs
        · rw [length_append]
          omega
        · exact le_rfl

theorem Logged.image_eq (sealing : Option ManifestSeal) (aeadNonce : AeadNonce) : vs.image checks
    sealing aeadNonce = Manifest.encodeImage checks (versionAfter ops).nextFileId
      (versionAfter ops).lastSeq (versionAfter ops).minWalId vs.rangeDeletesChecked
      ((versionAfter ops).listedTables.map fun p => (p.1, p.2.metadata)) sealing aeadNonce := by
  rw [image, h.current]

theorem Logged.compactManifest (hm : ∀ early, must' early → early <+: ops) {rewrite : RewriteCalls}
    (hok : vs.compactManifest checks rewrite = (.ok (), vs')) :
    ∃ hist', vs'.Logged checks hist' ops must' := by
  obtain ⟨sealing, image, sealedUnder, hfr, himage, rfl⟩ := compactManifest_ok hok
  rw [h.image_eq] at himage
  obtain ⟨b, hf⟩ := h.file.image hm hfr himage
  refine ⟨[⟨b, ops⟩], ⟨hf, rfl, rfl, h.current, rfl, by simp, fun pre c suf hh _ => ?_⟩⟩
  rw [show image.length = _ from hf.length_bytes]
  exact endOf_mono (by simp [hh]) _

/-- Every accepted operation keeps the log in step. -/
theorem Logged.step (hp : op.Promised vs)
    (hs : vs.step checks op = some vs') : ∃ hist', vs'.Logged checks hist' (ops ++ [op])
      (MustAfter must (ops ++ [op]) vs'.manifest) := by
  cases op with
  | rotate id =>
    cases hs
    refine ⟨hist, ⟨(h.file.rotate id).keep (versionAfter_rotate ops id) fun _ herl => herl,
      h.writer, h.replaced, h.current.trans (versionAfter_rotate ops id).symm, h.manifestBytes,
      h.unlogged, ?_⟩⟩
    have hstm : stampOf checks (vs.rotate id).sealing = stampOf checks vs.sealing := by
      rw [rotate, stampOf, stampOf]
      cases vs.sealing <;> rfl
    rw [hstm]
    exact h.needs
  | apply edits calls =>
    have happly : vs.apply checks edits calls = (.ok (), vs') := by
      rw [VersionSet.step] at hs
      rcases ha : vs.apply checks edits calls with ⟨_ | _, after⟩ <;> simp only [ha] at hs
      · cases hs
      · rw [some.inj hs]
    cases hlog : vs.logged checks edits calls with
    | none =>
      obtain ⟨⟨e, he⟩, -⟩ := apply_of_logged_none hlog
      rw [happly] at he
      cases he
    | some installed =>
      obtain ⟨hist', hinstalled⟩ := h.installed hp hlog
      obtain ⟨-, -, heq⟩ := apply_of_logged hlog
      rw [heq] at happly
      split_ifs at happly
      · exact hinstalled.compactManifest (h.file.must_le_concat fun _ => id) happly
      · exact ⟨hist', (Prod.mk.inj happly).2 ▸ hinstalled⟩

end

/-- What a crash of a set created as `vs₀` may not take back: the operations up to a state all
of whose writes were durable. -/
def DurableAfter (checks : ManifestChecks) (vs₀ : VersionSet) (ops early : List VersionSetOp) :
    Prop :=
  early <+: ops ∧ ∃ vs, run (VersionSet.step checks) vs₀ early = some vs ∧ vs.Synced

theorem logged_create (checks : ManifestChecks) (path : String) {dir : TableDir}
    (hdir : dir.highestTable = none) (keyring : Option Keyring) (salt : Salt) :
    (create checks path dir keyring salt).Logged checks [] []
      (DurableAfter checks (create checks path dir keyring salt) []) := by
  have hv : (create checks path dir keyring salt).current = versionAfter [] := by
    simp only [create, created, hdir]
    rfl
  refine ⟨⟨?_, ?_, ?_, ⟨[], prefix_rfl, (endOf_nil _).symm⟩, by simp [placed], ?_, ?_,
    fun early h => h.1, by simp⟩, rfl, rfl, hv, rfl, ?_, by simp⟩
  · cases keyring <;> rfl
  · cases keyring <;> rfl
  · exact (append_nil _).symm
  · refine ⟨fun level => ?_, fun level f hf => (not_mem_nil hf).elim,
      fun id d hc => (some_ne_none d hc.symm).elim, rfl, rfl, rfl⟩
    by_cases hl : level = 0 <;> simp [versionAfter, editsOf, Version.new, replayed,
      ReplayState.replayAll, ReplayState.new, arrange, stableSort, hl]
  · exact ⟨fun _ => nodup_nil, fun hid => (not_mem_nil hid).elim, fun _ _ => rfl,
      fun _ _ hf => (not_mem_nil hf).elim, fun _ _ hf => (not_mem_nil hf).elim⟩
  · simp [create, created, checkOwed]

/-- So does every run of them. -/
theorem logged_run {vs₀ : VersionSet} (h0 : vs₀.Logged checks [] [] (DurableAfter checks vs₀ []))
    (hC : Along (VersionSet.step checks) (fun vs op => op.Promised vs) vs₀ ops)
    (hrun : run (VersionSet.step checks) vs₀ ops = some vs) :
    ∃ hist, vs.Logged checks hist ops (DurableAfter checks vs₀ ops) := by
  induction ops using List.reverseRecOn generalizing vs with
  | nil => exact ⟨[], some.inj hrun ▸ h0⟩
  | append_singleton ops op ih =>
    obtain ⟨before, hb, hl⟩ := run_append.mp hrun
    obtain ⟨after, hs, ha⟩ := run_cons.mp hl
    obtain rfl : after = vs := some.inj ha
    obtain ⟨hC, hop⟩ := along_append.mp hC
    obtain ⟨hist, hlgd⟩ := ih hC hb
    obtain ⟨hist', hlogged'⟩ := hlgd.step (hop before hb).1 hs
    refine ⟨hist', hlogged'.mono fun early he => ?_⟩
    obtain ⟨hp, vs', hrun', hsyn⟩ := he
    rcases prefix_concat_iff.mp hp with rfl | hp
    · rw [hrun] at hrun'
      cases hrun'
      exact .inr ⟨rfl, hsyn⟩
    · exact .inl ⟨hp, vs', hrun', hsyn⟩

/-! ### Replay refines memory -/

theorem Logged.replayManifest (h : vs.Logged checks hist ops must)
    (hovl : vs.current.findOverlap = none) (ho : ∀ level, ∀ f ∈ vs.current.levels level,
      ∃ reader, openTable f.id f.metadata.globalSeq = .ok reader) :
    ∃ replay, replayManifest checks openTable vs.manifest.bytes vs.keyring = .ok replay ∧
      replay.version.Rebuilds vs.current ∧ replay.validLen = vs.manifest.bytes.length := by
  have hf := h.file
  rw [h.current] at hovl ho ⊢
  obtain ⟨keyIds, hr⟩ := hf.replayManifest_eq hf.bytes_eq prefix_rfl hf.intact
    (batchAt_of_length_le hf.length_bytes.le)
  obtain ⟨replay, hfin, hreb, hvalid, -⟩ := finishReplay_of_mirrors
    (r := ⟨replayed hist, _, keyIds⟩) hf.mirrors hf.kept hovl ho
    (stampOf checks vs.sealing).length (vs.sealing.map ManifestSeal.salt)
  exact ⟨replay, hr.trans hfin, hreb, hvalid.trans hf.length_bytes.symm⟩

end VersionSet

/-- The manifest of a set created where no table stands, after any operations it accepted whose
callers kept their promises, replays to the version in memory. -/
theorem replayManifest_of_run {checks : ManifestChecks} {path : String} {dir : TableDir}
    {keyring : Option Keyring} {salt : Salt} {ops : List VersionSetOp} {vs : VersionSet}
    {openTable : UInt64 → Option Seq → Except IoError SsTableReader}
    (hdir : dir.highestTable = none)
    (hpromised : Along (VersionSet.step checks) (fun vs op => op.Promised vs)
      (VersionSet.create checks path dir keyring salt) ops)
    (hrun : run (VersionSet.step checks) (VersionSet.create checks path dir keyring salt) ops =
      some vs)
    (hoverlap : vs.current.findOverlap = none)
    (hopen : ∀ level, ∀ f ∈ vs.current.levels level,
      ∃ reader, openTable f.id f.metadata.globalSeq = .ok reader) :
    ∃ replay, replayManifest checks openTable vs.manifest.bytes vs.keyring = .ok replay ∧
      replay.version.Rebuilds vs.current ∧ replay.validLen = vs.manifest.bytes.length := by
  obtain ⟨hist, hlgd⟩ := VersionSet.logged_run
    (VersionSet.logged_create checks path hdir keyring salt) hpromised hrun
  exact hlgd.replayManifest hoverlap hopen

/-! A table of four entries with its counts, a second count of it, and a sequence stamp. -/

def sampleReader : SsTableReader := ⟨[], ⟨[], RangeTombstoneSet.sorted_nil⟩⟩

def sampleOpenTable : UInt64 → Option Seq → Except IoError SsTableReader :=
  fun _ _ => .ok sampleReader

def sampleTable (id : UInt64) (points dead : UInt64) : LiveSst :=
  ⟨0, ⟨id, [97], [99], 100, 4, none, some ⟨points, dead, 3⟩⟩, sampleReader⟩

def sampleCalls : ApplyCalls :=
  ⟨sampleAeadNonce, none, none, sampleRename⟩

def sampleSet : VersionSet :=
  VersionSet.create sampleManifestChecks "MANIFEST" sampleDir none
    sampleSalt

def sampleEdits : List VersionEdit :=
  [.addFile 1 (sampleTable 1 1 2), .countFile 1 1 ⟨2, 3, 4⟩, .setLastSeq 9]

theorem sampleEdits_promised : sampleSet.current.Promises sampleEdits := by
  refine ⟨⟨fun l => ?_, by decide, ?_⟩, ⟨sampleTable 1 1 2, ?_, rfl, by decide⟩, trivial, trivial⟩
  · exact not_mem_nil
  · rintro d ⟨⟩
    decide
  · exact Version.mem_addFile.mpr (.inr ⟨rfl, rfl⟩)

/-- A table, its counts and a stamp in one batch. -/
theorem replayManifest_of_one_batch :
    ∃ vs replay, run (VersionSet.step sampleManifestChecks) sampleSet
        [.apply sampleEdits sampleCalls] = some vs ∧
      replayManifest sampleManifestChecks sampleOpenTable vs.manifest.bytes
        vs.keyring = .ok replay ∧ replay.version.Rebuilds vs.current := by
  have hsrt : (run (VersionSet.step sampleManifestChecks) sampleSet
      [.apply sampleEdits sampleCalls]).map (fun vs => vs.current.levelsAreSortedRuns) =
        some true := by
    decide +kernel
  obtain ⟨vs, hrun, hovl⟩ := map_eq_some_iff.mp hsrt
  replace hovl : vs.current.findOverlap = none := isNone_iff_eq_none.mp hovl
  have hpromised : Along (VersionSet.step sampleManifestChecks)
      (fun vs op => op.Promised vs) sampleSet [.apply sampleEdits sampleCalls] :=
    ⟨sampleEdits_promised, fun _ _ => trivial⟩
  have hopen : ∀ level, ∀ f ∈ vs.current.levels level, ∃ reader,
      sampleOpenTable f.id f.metadata.globalSeq = .ok reader := fun _ _ _ => ⟨sampleReader, rfl⟩
  obtain ⟨replay, hrpl, hreb, -⟩ := replayManifest_of_run rfl hpromised hrun hovl hopen
  exact ⟨vs, replay, hrun, hrpl, hreb⟩

/-- A table added with counts that cannot be its own keeps them in memory; replay drops
them. -/
theorem replayManifest_drops_counts :
    ∃ vs replay, run (VersionSet.step sampleManifestChecks) sampleSet
        [.apply [.addFile 1 (sampleTable 1 3 2)] sampleCalls] = some vs ∧
      replayManifest sampleManifestChecks sampleOpenTable vs.manifest.bytes
        vs.keyring = .ok replay ∧
      (vs.current.levels 1).map (fun f => f.metadata.deletions) = [some ⟨3, 2, 3⟩] ∧
      (replay.version.levels 1).map (fun f => f.metadata.deletions) = [none] :=
  ⟨_, _, rfl, rfl, rfl, rfl⟩

end RegolithStore
