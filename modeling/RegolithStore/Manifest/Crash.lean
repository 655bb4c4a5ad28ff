import RegolithStore.Manifest.Log

/-! What an open makes of a manifest after a crash, and of one that was altered. A crash keeps
what was synced, so the open has the version of the operations before the first batch it tore. An
altered batch below one that was synced and is followed by more bytes is refused. In both, no
batch is recognised but where the writer put it. -/

namespace RegolithStore

open LoggedBatch Manifest VersionSet

open Lib List

variable {turns at_ o : Nat}

namespace Manifest

variable (checks : ManifestChecks) (data : Bytes) (keyring : Option Keyring)

/-- Where the batches of a manifest begin, and how they are sealed. -/
def headerOf : Nat × Option ManifestSeal :=
  match stampLen checks data keyring with
  | .ok stamp => (stamp.1, sealingOf keyring stamp.2)
  | .error _ => (0, none)

/-- The batches the file holds from `at_` on, each with its offset. -/
def batchesFrom (data : Bytes) : Nat → Nat → List (Nat × Bytes)
  | 0, _ => []
  | turns + 1, at_ =>
    match batchAt checks data at_ with
    | none => []
    | some batch => (at_, slice data at_ (batch.stop - at_)) :: batchesFrom data turns batch.stop

def batchesOf : List (Nat × Bytes) :=
  batchesFrom checks data data.length (headerOf checks data keyring).1

/-- The file holds no batch but those of the manifest `written`, each where that has it. -/
def OnlyWritten (written : Bytes) (keyring : Option Keyring) (data : Bytes) : Prop :=
  ∀ o, (headerOf checks written keyring).1 ≤ o → (batchAt checks data o).isSome →
    ∃ bytes, (o, bytes) ∈ batchesOf checks written keyring ∧ Holds data o bytes

/-- The batch at `o` proves everything below it durable: it needed a sync, and more was
written after it. -/
def ProvesDurable (o : Nat) : Prop :=
  ∃ batch, batchAt checks data o = some batch ∧ batch.stop < data.length ∧
    needsSync (headerOf checks data keyring).2 batch.records o = true

end Manifest

/-! ### The scan for a proof -/

variable {batch : Batch}

section Scan

variable {checks : ManifestChecks} {data : Bytes} {sealing : Option ManifestSeal}

theorem batchProofFrom_eq_none
    (h : ∀ o batch, at_ ≤ o → Manifest.batchAt checks data o = some batch →
      ¬ (batch.stop < data.length ∧ needsSync sealing batch.records o)) :
    batchProofFrom checks data sealing turns at_ = none := by
  induction turns generalizing at_ with
  | zero => rfl
  | succ turns ih =>
    rw [batchProofFrom]
    split_ifs
    · cases hb : Manifest.batchAt checks data at_ with
      | none => exact ih fun o batch ho => h o batch (by omega)
      | some batch =>
        dsimp only
        rw [if_neg (h at_ batch le_rfl hb)]
        have hs := lt_stop_of_batchAt hb
        exact ih fun o batch' ho => h o batch' (by omega)
    · rfl

/-- A batch that proves something is found, unless one found first is stepped over past it. -/
theorem batchProofFrom_ne_none (hle : at_ ≤ o)
    (ht : data.length - at_ < turns) (hb : Manifest.batchAt checks data o = some batch)
    (hp : batch.stop < data.length ∧ needsSync sealing batch.records o)
    (hsteps : ∀ o' batch', at_ ≤ o' → o' < o → Manifest.batchAt checks data o' = some batch' →
      batch'.stop ≤ o) :
    batchProofFrom checks data sealing turns at_ ≠ none := by
  induction turns generalizing at_ with
  | zero => omega
  | succ turns ih =>
    have hstop := lt_stop_of_batchAt hb
    have hf : at_ + framing ≤ data.length := by
      simp only [framing]
      omega
    rw [batchProofFrom, if_pos hf]
    rcases Nat.eq_or_lt_of_le hle with rfl | hlt
    · rw [hb]
      dsimp only
      rw [if_pos hp]
      exact Option.some_ne_none _
    · cases hat : Manifest.batchAt checks data at_ with
      | none => exact ih (by omega) (by omega) fun o' batch' ho' => hsteps o' batch' (by omega)
      | some batch' =>
        dsimp only
        have hstop' := lt_stop_of_batchAt hat
        have hle' := hsteps at_ batch' le_rfl hlt hat
        split_ifs
        · exact Option.some_ne_none _
        · exact ih hle' (by omega) fun o' b' ho' => hsteps o' b' (by omega)

end Scan

variable {openTable : UInt64 → Option Seq → Except IoError SsTableReader}
  {sealing : Option ManifestSeal} {replay : ManifestReplay} {b : LoggedBatch}

theorem finishReplay_fields {stampLen : Nat} {salt : Option Salt} {r : ReplayedBatches}
    (h : finishReplay openTable stampLen salt r = .ok replay) : replay.validLen = r.validLen ∧
    replay.stampLen = stampLen ∧ replay.salt = salt := by
  rw [finishReplay] at h
  cases hprep : Repair.prepare r.state.surviving with
  | error e => simp [hprep, Except.bind] at h
  | ok p =>
    simp only [hprep, Except.bind] at h
    split at h
    · cases h
    · split at h
      · cases h
      · rw [← Except.ok.inj h]
        exact ⟨rfl, rfl, rfl⟩

/-! ### The batches of a log -/

theorem length_stampOf_ne_zero (checks : ManifestChecks) (sealing : Option ManifestSeal) :
    (stampOf checks sealing).length ≠ 0 := by
  rw [stampOf]
  cases sealing <;> simp [manifestStampLen, manifestSealedStampLen]

theorem batchesFrom_placed {checks : ManifestChecks} {data : Bytes} {hist : List LoggedBatch}
    {start : Nat} (hwr : ∀ p ∈ placed (frame checks) start hist, p.2.batch.Written sealing p.1)
    (hi : ∀ p ∈ placed (frame checks) start hist,
      Intact (frame checks) data p) (ht : hist.length ≤ turns) :
    Manifest.batchesFrom checks data turns start =
      (placed (frame checks) start hist).map (fun p => (p.1, p.2.frame checks p.1)) ++
        Manifest.batchesFrom checks data (turns - hist.length)
          (endOf (frame checks) start hist) := by
  induction hist generalizing turns start with
  | nil => simp [placed]
  | cons b hist ih =>
    obtain ⟨turns, rfl⟩ : ∃ t, turns = t + 1 := ⟨turns - 1, by simp at ht; omega⟩
    simp only [placed, forall_mem_cons] at hwr hi
    have hb : Manifest.batchAt checks data start =
        some ⟨b.batch.body, start + (b.frame checks start).length⟩ :=
      batchAt_of_holds hwr.1.body_lt hi.1
    have hslc : slice data start (b.frame checks start).length = b.frame checks start :=
      (prefix_iff_eq_take.mp hi.1).symm
    rw [Manifest.batchesFrom, hb]
    dsimp only
    rw [ih hwr.2 hi.2 (by simpa using ht), length_cons, Nat.add_sub_add_right,
      endOf_cons, placed, map_cons, Nat.add_sub_cancel_left, hslc, cons_append]

theorem needsSync_of_written {offset : Nat} (h : b.batch.Written sealing offset) : needsSync sealing
    b.batch.body offset = true ↔ b.NeedsSync := by
  obtain ⟨id, hopens⟩ := h.opens
  rw [needsSync, hopens]
  dsimp only
  rw [ManifestRecord.needsSyncWithin_encodeAll h.fits (ManifestRecord.length_le_encodeAll _)]
  rfl

/-- Every batch that needs a sync is synced, but for the last one where it is `spared`. -/
def NeedsSynced (checks : ManifestChecks) (sealing : Option ManifestSeal) (file : SyncedFile)
    (hist : List LoggedBatch) (spared : Prop) : Prop :=
  ∀ pre b suf, hist = pre ++ b :: suf → b.NeedsSync →
    endOf (frame checks) (stampOf checks sealing).length (pre ++ [b]) ≤ file.synced ∨
      suf = [] ∧ spared

namespace LogFile

variable {checks : ManifestChecks} {keyring : Option Keyring} {sealing : Option ManifestSeal}
  {file : SyncedFile} {hist : List LoggedBatch} {ops : List VersionSetOp}
  {must : List VersionSetOp → Prop} {pre suf : List LoggedBatch} {data : Bytes} {disk : SyncedFile}

section

variable (h : LogFile checks keyring sealing file hist ops must)

include h

theorem headerOf {data rest : Bytes} (hdata : data = stampOf checks sealing ++ rest) :
    Manifest.headerOf checks data keyring = ((stampOf checks sealing).length, sealing) := by
  rw [Manifest.headerOf, h.stampLen hdata]
  dsimp only
  rw [h.sealing_eq]

theorem length_hist_le : hist.length ≤ file.bytes.length := by
  rw [h.bytes_eq, length_append]
  exact (length_le_layout (frame_ne_nil checks) _ hist).trans (Nat.le_add_left _ _)

theorem batchesOf : Manifest.batchesOf checks file.bytes keyring =
      (placed (frame checks) (stampOf checks sealing).length hist).map
        fun p => (p.1, p.2.frame checks p.1) := by
  rw [Manifest.batchesOf, h.headerOf h.bytes_eq, batchesFrom_placed h.written h.intact
    h.length_hist_le, ← h.length_bytes]
  cases file.bytes.length - hist.length with
  | zero => rw [Manifest.batchesFrom, append_nil]
  | succ turns =>
    rw [Manifest.batchesFrom, batchAt_of_length_le le_rfl, append_nil]

theorem of_onlyWritten (honly : OnlyWritten checks file.bytes keyring data)
    (ho : (stampOf checks sealing).length ≤ o) (hb : Manifest.batchAt checks data o = some batch)
    : ∃ p ∈ placed (frame checks) (stampOf checks sealing).length hist,
      p.1 = o ∧ Intact (frame checks) data p ∧
        batch = ⟨p.2.batch.body, o + (p.2.frame checks o).length⟩ := by
  obtain ⟨bytes, hmem, hh⟩ := honly o (by rw [h.headerOf h.bytes_eq]; exact ho) (hb ▸ rfl)
  rw [h.batchesOf] at hmem
  obtain ⟨p, hp, heq⟩ := mem_map.mp hmem
  cases heq
  refine ⟨p, hp, rfl, hh, ?_⟩
  have := batchAt_of_holds (h.written p hp).body_lt hh
  exact Option.some.inj (hb.symm.trans this)

theorem batchAt_eq_none (ho : OnlyWritten checks file.bytes keyring data) (hh : hist = pre ++ suf)
    (hl : LostAt (frame checks) data (stampOf checks sealing).length pre suf) :
    Manifest.batchAt checks data
      (endOf (frame checks) (stampOf checks sealing).length pre) = none := by
  cases hb : Manifest.batchAt checks data
      (endOf (frame checks) (stampOf checks sealing).length pre) with
  | none => rfl
  | some batch =>
    obtain ⟨p, hp, hoff, hi, -⟩ := h.of_onlyWritten ho (start_le_endOf _ _) hb
    obtain ⟨offset, b⟩ := p
    obtain rfl : offset = _ := hoff
    exact absurd hi (hl.not_intact (frame_ne_nil checks) (hh ▸ hp))

end

/-! ### After a crash -/

section

variable (h : LogFile checks keyring sealing file hist ops must)

include h

theorem stamp_of_take {n : Nat}
    (hn : (stampOf checks sealing).length ≤ n) (htake : data.take n = file.bytes.take n) :
    data = stampOf checks sealing ++ data.drop (stampOf checks sealing).length := by
  have hh : data.take (stampOf checks sealing).length = stampOf checks sealing := by
    have htake' := congrArg (List.take (stampOf checks sealing).length) htake
    rw [take_take, take_take, Nat.min_eq_left hn, h.bytes_eq] at htake'
    rwa [take_left] at htake'
  conv_lhs => rw [← take_append_drop (stampOf checks sealing).length data, hh]

theorem synced_le_of_lost {disk : Bytes} (hc : CrashState file.bytes file.synced disk)
    (hh : hist = pre ++ b :: suf) (hl : ¬ Intact (frame checks) disk
      (endOf (frame checks) (stampOf checks sealing).length pre, b)) :
    file.synced ≤ endOf (frame checks) (stampOf checks sealing).length pre := by
  by_contra hlt
  obtain ⟨first, hf, hs⟩ := h.boundary
  have hle := endOf_concat_le (hh ▸ hf) (hs ▸ not_le.mp hlt)
  rw [endOf_concat, ← hs] at hle
  refine hl (Holds.of_take_eq hc.keeps hle (h.intact _ ?_))
  rw [hh]
  exact mem_placed_of_split

theorem openExisting_ok {path : String}
    {dir : TableDir} (salt : Salt) (calls : RewriteCalls) {tail : Option DroppedTail}
    (hr : replayManifest checks openTable disk.bytes keyring = .ok replay)
    (hs : replay.stampLen = (stampOf checks sealing).length)
    (hsalt : replay.salt = sealing.map ManifestSeal.salt)
    (hjudge : judgeEnd checks path dir disk.bytes keyring replay = .ok tail) :
    ∃ opened, openExisting checks openTable path dir disk keyring salt calls =
        .ok opened ∧
      opened.current = { replay.version with
        nextFileId := nextIdPastTables replay.version.nextFileId dir.highestTable } := by
  have hne : replay.stampLen ≠ 0 := hs ▸ length_stampOf_ne_zero checks sealing
  have hsealed : (keyring.isSome && (sealingOf keyring replay.salt).isNone) = false := by
    rw [hsalt, h.sealing_eq, ← h.sealed]
    cases sealing <;> rfl
  simp only [openExisting, hr, hjudge, Except.bind, if_neg hne, hsealed,
    Bool.false_and, Bool.false_eq_true, if_false]
  exact ⟨_, rfl, rfl⟩

/-- The operations that the batches read back are those of. -/
theorem exists_replayed (hc : CrashState file.bytes file.synced disk.bytes) (hh : hist = pre ++ suf)
    (hl : LostAt (frame checks) disk.bytes (stampOf checks sealing).length pre suf) :
    ∃ done, done <+: ops ∧ (∀ early, must early → early <+: done) ∧
      Mirrors (versionAfter done) (replayed pre) ∧ (versionAfter done).Kept := by
  cases suf with
  | nil =>
    rw [append_nil] at hh
    exact ⟨ops, prefix_rfl, h.must_le, hh ▸ h.mirrors, h.kept⟩
  | cons b rest =>
    obtain ⟨hb, hm, hk, hpast⟩ := h.past pre b rest hh (h.synced_le_of_lost hc hh (hl b rest rfl))
    exact ⟨b.before, hb, hpast, hm, hk⟩

/-- Past the end of what is read, no batch proves anything durable. -/
theorem batchProofPast_eq_none (hc : CrashState file.bytes file.synced disk.bytes)
    (hneed : NeedsSynced checks sealing file hist (disk.bytes.length ≤ file.bytes.length))
    (honly : OnlyWritten checks file.bytes keyring disk.bytes) (hh : hist = pre ++ suf)
    (hl : LostAt (frame checks) disk.bytes (stampOf checks sealing).length pre suf) :
    batchProofPast checks disk.bytes sealing
      (endOf (frame checks) (stampOf checks sealing).length pre) = none := by
  refine batchProofFrom_eq_none fun o batch ho hbat hprv => ?_
  have hstrt : (stampOf checks sealing).length ≤
      endOf (frame checks) (stampOf checks sealing).length pre := start_le_endOf _ _
  obtain ⟨p, hp, rfl, -, rfl⟩ := h.of_onlyWritten honly (by omega) hbat
  obtain ⟨before, after, hspl, hoff⟩ := mem_placed.mp hp
  have hs := (needsSync_of_written (h.written p hp)).mp hprv.2
  have hstop : p.1 + (p.2.frame checks p.1).length =
      endOf (frame checks) (stampOf checks sealing).length (before ++ [p.2]) := by
    rw [endOf_concat, hoff]
  rcases hneed before p.2 after hspl hs with hbel | ⟨rfl, hsht⟩
  · cases suf with
    | nil =>
      rw [append_nil] at hh
      have hlast := lt_end_of_mem_placed (frame_ne_nil checks) hp
      rw [hh] at hlast
      omega
    | cons b rest =>
      have hsyn := h.synced_le_of_lost hc hh (hl b rest rfl)
      omega
  · have hlen := h.length_bytes
    rw [hspl] at hlen
    have := hprv.1
    dsimp only at this
    omega

end

/-- After a crash the open has the version of some of the operations, first to last, and all
that were durable among them. -/
theorem openExisting_of_crash (h : LogFile checks keyring sealing file hist ops must) (path : String)
    (dir : TableDir) (salt : Salt) (calls : RewriteCalls)
    (hc : CrashState file.bytes file.synced disk.bytes)
    (hneed : NeedsSynced checks sealing file hist (disk.bytes.length ≤ file.bytes.length))
    (honly : OnlyWritten checks file.bytes keyring disk.bytes)
    (hv : ∀ done, done <+: ops → (∀ early, must early → early <+: done) →
      (versionAfter done).findOverlap = none ∧ ∀ level, ∀ f ∈ (versionAfter done).levels level,
        ∃ reader, openTable f.id f.metadata.globalSeq = .ok reader) :
    ∃ done opened, done <+: ops ∧ (∀ early, must early → early <+: done) ∧
      openExisting checks openTable path dir disk keyring salt calls = .ok opened ∧
      opened.current.Rebuilds { versionAfter done with
        nextFileId := nextIdPastTables (versionAfter done).nextFileId dir.highestTable } := by
  obtain ⟨pre, suf, hh, hi, hl⟩ := exists_intact_split (frame checks)
    disk.bytes (stampOf checks sealing).length hist
  have hdata := h.stamp_of_take h.stamp_le hc.keeps
  obtain ⟨keyIds, hrpl⟩ := h.replayManifest_eq hdata ⟨_, hh.symm⟩ hi (h.batchAt_eq_none honly hh hl)
  obtain ⟨done, hd, hmust, hmirrors, hkept⟩ := h.exists_replayed hc hh hl
  obtain ⟨replay, hfin, hr, hvalid, hstampLen, hsalt, -⟩ :=
    finishReplay_of_mirrors (r := ⟨replayed pre, _, keyIds⟩) hmirrors hkept (hv done hd hmust).1
      (hv done hd hmust).2 (stampOf checks sealing).length (sealing.map ManifestSeal.salt)
  rw [hfin] at hrpl
  have hproof := h.batchProofPast_eq_none hc hneed honly hh hl
  obtain ⟨tail, hjudge⟩ : ∃ tail, judgeEnd checks path dir disk.bytes keyring replay = .ok tail := by
    rw [judgeEnd, hstampLen, hsalt, hvalid, h.sealing_eq, judge, hproof,
      if_neg (length_stampOf_ne_zero checks sealing)]
    split_ifs
    · exact ⟨none, rfl⟩
    · exact ⟨_, rfl⟩
  obtain ⟨opened, hopn, hcur⟩ := h.openExisting_ok salt calls hrpl hstampLen hsalt hjudge
  refine ⟨done, opened, hd, hmust, hopn, hcur ▸ ⟨hr.levels, hr.lastSeq, ?_, hr.minWalId⟩⟩
  simp only [hr.nextFileId]

/-! ### After an alteration -/

/-- A batch damaged below one that proves it durable is refused. -/
theorem openExisting_of_altered (h : LogFile checks keyring sealing file hist ops must)
    (path : String) (dir : TableDir) {data : SyncedFile} (salt : Salt) (calls : RewriteCalls)
    {o' : Nat} {bytes : Bytes} (hmem : (o, bytes) ∈ Manifest.batchesOf checks file.bytes keyring)
    (hb : data.bytes.take o = file.bytes.take o) (haltered : ¬ Holds data.bytes o bytes)
    (hlater : o < o') (hprv : ProvesDurable checks data.bytes keyring o')
    (ho : OnlyWritten checks file.bytes keyring data.bytes) :
    ∃ e, openExisting checks openTable path dir data keyring salt calls = .error e := by
  rw [h.batchesOf] at hmem
  obtain ⟨⟨offset, b⟩, hp, heq⟩ := mem_map.mp hmem
  cases heq
  obtain ⟨pre, suf, hh, hoff⟩ := mem_placed.mp hp
  dsimp only at hh hoff hb haltered hlater
  have hstampLe : (stampOf checks sealing).length ≤ offset := hoff ▸ start_le_endOf _ _
  have hdata := h.stamp_of_take hstampLe hb
  obtain ⟨batch, hbat, hprv⟩ := hprv
  have hs := lt_stop_of_batchAt hbat
  have hi : ∀ p ∈ placed (frame checks) (stampOf checks sealing).length pre,
      Intact (frame checks) data.bytes p := by
    intro p hp
    refine Holds.of_take_eq hb (hoff ▸ end_le_of_mem_placed hp) (h.intact p ?_)
    rw [hh, placed_append]
    exact mem_append_left _ hp
  have hl : LostAt (frame checks) data.bytes (stampOf checks sealing).length pre (b :: suf) := by
    rintro c rest ⟨⟩
    rw [← hoff]
    exact haltered
  obtain ⟨keyIds, hr⟩ := h.replayManifest_eq hdata ⟨_, hh.symm⟩ hi (h.batchAt_eq_none ho hh hl)
  rw [openExisting, hr]
  cases hfin : finishReplay openTable (stampOf checks sealing).length
      (sealing.map ManifestSeal.salt) ⟨replayed pre,
        endOf (frame checks) (stampOf checks sealing).length pre, keyIds⟩ with
  | error e => exact ⟨e, rfl⟩
  | ok replay =>
    obtain ⟨hvalid, hstampLen, hsalt⟩ := finishReplay_fields hfin
    -- No batch is stepped over past the one that proves the damage durable.
    have hproof : batchProofPast checks data.bytes sealing
        (endOf (frame checks) (stampOf checks sealing).length pre) ≠ none := by
      rw [h.headerOf hdata] at hprv
      refine batchProofFrom_ne_none (by omega) (by omega) hbat hprv
        fun q batch' hq hqo hbatch' => ?_
      obtain ⟨p', hp', rfl, -, -⟩ := h.of_onlyWritten ho (by omega) hbat
      obtain ⟨p, hp, rfl, -, rfl⟩ := h.of_onlyWritten ho (by omega) hbatch'
      exact end_le_of_placed_lt hp hp' hqo
    have hsht : endOf (frame checks) (stampOf checks sealing).length pre ≠
        data.bytes.length := by
      omega
    obtain ⟨proven, hproven⟩ := Option.ne_none_iff_exists'.mp hproof
    rw [Except.bind, judgeEnd, hstampLen, hsalt, hvalid, h.sealing_eq, judge,
      if_neg (length_stampOf_ne_zero checks sealing), if_neg hsht, hproven]
    exact ⟨_, rfl⟩

end LogFile

/-! ### The files of a set -/

namespace VersionSet

variable {checks : ManifestChecks} {vs : VersionSet} {hist : List LoggedBatch}
  {ops : List VersionSetOp} {must : List VersionSetOp → Prop} {edits : List VersionEdit}
  {calls : ApplyCalls}

/-- The file a call of `apply` leaves, however its syncs and its rewrite go, holds the batches
of the operations, the call's among them, unless it is the file as it was. -/
theorem Logged.files_apply (h : vs.Logged checks hist ops must) (hp : vs.current.Promises edits)
    (hlands : vs.Lands checks edits calls) {file : SyncedFile}
    (hf : file = (vs.apply checks edits calls).2.manifest ∨
      (vs.apply checks edits calls).2.replaced = some file) :
    file = vs.manifest ∨ ∃ sealing hist', LogFile checks vs.keyring sealing file hist'
        (ops ++ [.apply edits calls]) (MustAfter must (ops ++ [.apply edits calls]) file) ∧
      NeedsSynced checks sealing file hist' True := by
  cases hlog : vs.logged checks edits calls with
  | none =>
    obtain ⟨-, -, hrepl, hman⟩ := apply_of_logged_none hlog
    rcases hf with rfl | hf
    · rcases hman hlands with heq | ⟨encoded, sealedUnder, hvalid, henc, heq⟩
      · exact .inl heq
      · rcases h.encoded hp hvalid henc with ⟨rfl, -⟩ | ⟨b, -, rfl, hwr, hm, hk⟩
        · exact .inl (by rw [heq, append_nil])
        · refine .inr ⟨vs.sealing, hist ++ [⟨b, ops⟩], ?_, fun pre c suf hh hneed => ?_⟩
          · rw [heq]
            exact h.file.append hwr hm hk (.inl rfl) fun _ he => he
          · rw [heq]
            rcases concat_eq_append_cons hh with ⟨rfl, rfl⟩ | ⟨rest, hin⟩
            · exact .inr ⟨by simpa using hh, trivial⟩
            · exact .inl (h.needs pre c rest hin hneed)
    · rw [hrepl, h.replaced] at hf
      cases hf
  | some installed =>
    obtain ⟨hist', hinstalled⟩ := h.installed hp hlog
    obtain ⟨encoded, sealedUnder, -, -, -, hinst⟩ := exists_of_logged hlog
    have hkr : installed.keyring = vs.keyring := by rw [hinst]
    obtain ⟨-, -, heq⟩ := apply_of_logged hlog
    rw [heq] at hf
    by_cases hs : file = installed.manifest
    · exact .inr ⟨installed.sealing, hist', hkr ▸ hs ▸ hinstalled.file,
        fun pre b suf hh hneed => .inl (hs ▸ hinstalled.needs pre b suf hh hneed)⟩
    -- Every other file is an image.
    split_ifs at hf
    · rcases files_compactManifest installed calls.rewrite with
        ⟨hman, hrepl⟩ | ⟨sealing, image, under, hfr, himage, hman, hrepl⟩
      · rcases hf with hf | hf
        · exact absurd (hf.trans hman) hs
        · rw [hrepl, hinstalled.replaced] at hf
          cases hf
      · rcases hf with rfl | hf
        · rw [hinstalled.image_eq] at himage
          obtain ⟨b, hlogfile⟩ := hinstalled.file.image
            (h.file.must_le_concat fun _ => id) hfr himage
          rw [hman]
          refine .inr ⟨sealing, _, hkr ▸ hlogfile, fun pre c suf hh _ => .inl ?_⟩
          rw [show image.length = _ from hlogfile.length_bytes]
          exact endOf_mono (by simp [hh]) _
        · rcases hrepl with hrepl | hrepl
          · exact absurd (Option.mem_unique hf hrepl) hs
          · rw [hrepl] at hf
            cases hf
    · rcases hf with hf | hf
      · exact absurd hf hs
      · rw [hinstalled.replaced] at hf
        cases hf

end VersionSet

/-- What a crash may not take back while `last` is made on top of `ops`: the operations up to any
point where every write was synced, and `last` where the file with its batch is synced whole. -/
def KeepsDurable (checks : ManifestChecks) (vs₀ vs : VersionSet) (ops : List VersionSetOp)
    (last : VersionSetOp) (file : SyncedFile) (done : List VersionSetOp) : Prop :=
  (∀ early, DurableAfter checks vs₀ ops early → early <+: done) ∧
    (file.synced = file.bytes.length → file ≠ vs.manifest → done = ops ++ [last])

/-- The manifest of a set created where no table stands, after operations it accepted and while
one more call of `apply` is made, whose callers all kept their promises. A crash leaves a file
that opens to the version of some of the operations, first to last, with all that were durable,
where every such version is laid out well and its tables are there; an alteration of a batch
that a later one proves durable is refused. -/
theorem openExisting_of_run {checks : ManifestChecks} {path : String} {dir : TableDir}
    {keyring : Option Keyring} {salt : Salt} {ops : List VersionSetOp} {vs : VersionSet}
    {edits : List VersionEdit} {calls : ApplyCalls} {file : SyncedFile}
    {openTable : UInt64 → Option Seq → Except IoError SsTableReader}
    (hdir : dir.highestTable = none)
    (hpromised : Along (VersionSet.step checks) (fun vs op => op.Promised vs)
      (create checks path dir keyring salt) ops)
    (hrun : run (VersionSet.step checks) (create checks path dir keyring salt) ops = some vs)
    (hedits : vs.current.Promises edits) (hlands : vs.Lands checks edits calls)
    (hfile : file = vs.manifest ∨ file = (vs.apply checks edits calls).2.manifest ∨
      (vs.apply checks edits calls).2.replaced = some file) :
    (∀ path' dir' disk salt' rewrite, CrashState file.bytes file.synced disk.bytes →
      (file = vs.manifest ∨ disk.bytes.length ≤ file.bytes.length) →
      OnlyWritten checks file.bytes vs.keyring disk.bytes →
      (∀ done, done <+: ops ++ [.apply edits calls] →
        KeepsDurable checks (create checks path dir keyring salt) vs ops (.apply edits calls) file
          done → (versionAfter done).findOverlap = none ∧
        ∀ level, ∀ f ∈ (versionAfter done).levels level,
          ∃ reader, openTable f.id f.metadata.globalSeq = .ok reader) →
      ∃ done opened, done <+: ops ++ [.apply edits calls] ∧
        KeepsDurable checks (create checks path dir keyring salt) vs ops (.apply edits calls) file
          done ∧
        openExisting checks openTable path' dir' disk vs.keyring salt' rewrite = .ok opened ∧
        opened.current.Rebuilds { versionAfter done with
          nextFileId := nextIdPastTables (versionAfter done).nextFileId dir'.highestTable }) ∧
    (∀ path' dir' data salt' rewrite o o' bytes,
      (o, bytes) ∈ Manifest.batchesOf checks file.bytes vs.keyring →
      data.bytes.take o = file.bytes.take o → ¬ Holds data.bytes o bytes → o < o' →
      ProvesDurable checks data.bytes vs.keyring o' →
      OnlyWritten checks file.bytes vs.keyring data.bytes →
      ∃ e, openExisting checks openTable path' dir' data vs.keyring salt' rewrite =
        .error e) := by
  obtain ⟨hist, hlgd⟩ := logged_run (logged_create checks path hdir keyring salt) hpromised hrun
  obtain ⟨sealing, hist', ops', must, hlog, hops, hmust, hneed, hwhl⟩ : ∃ sealing hist' ops' must,
      LogFile checks vs.keyring sealing file hist' ops' must ∧ ops' <+: ops ++ [.apply edits calls] ∧
      (∀ early, DurableAfter checks
        (create checks path dir keyring salt) ops early → must early) ∧
      NeedsSynced checks sealing file hist' (file ≠ vs.manifest) ∧
      (file.synced = file.bytes.length → file ≠ vs.manifest →
        must (ops ++ [.apply edits calls])) := by
    by_cases hsame : file = vs.manifest
    · exact ⟨vs.sealing, hist, ops, _, hsame ▸ hlgd.file, prefix_append _ _,
        fun _ herl => herl, fun pre b suf hhist hb =>
          .inl (hsame ▸ hlgd.needs pre b suf hhist hb), fun _ hne => absurd hsame hne⟩
    · obtain ⟨sealing, hist', hlog, hneed⟩ :=
        (hlgd.files_apply hedits hlands (hfile.resolve_left hsame)).resolve_left hsame
      exact ⟨sealing, hist', _, _, hlog, prefix_rfl, fun _ herl => .inl herl,
        fun pre b suf hhist hb => (hneed pre b suf hhist hb).imp_right fun hsuf => ⟨hsuf.1, hsame⟩,
        fun hsyn _ => .inr ⟨rfl, hsyn⟩⟩
  have hkeeps : ∀ done, done <+: ops' → (∀ early, must early → early <+: done) →
      KeepsDurable checks (create checks path dir keyring salt) vs ops (.apply edits calls) file
        done := fun done hdone hpast =>
    ⟨fun early herl => hpast early (hmust early herl), fun hsyn hne =>
      (hdone.trans hops).eq_of_length_le (hpast _ (hwhl hsyn hne)).length_le⟩
  refine ⟨?_, ?_⟩
  · intro path' dir' disk salt' rewrite hcrs hlen honly hvers
    have hlast : NeedsSynced checks sealing file hist'
        (disk.bytes.length ≤ file.bytes.length) := fun pre b suf hhist hb =>
      (hneed pre b suf hhist hb).imp_right fun ⟨hsuf, hne⟩ => ⟨hsuf, hlen.resolve_left hne⟩
    obtain ⟨done, opened, hdone, hpast, hopn, hreb⟩ := hlog.openExisting_of_crash path' dir'
      salt' rewrite hcrs hlast honly fun done hdone hpast =>
        hvers done (hdone.trans hops) (hkeeps done hdone hpast)
    exact ⟨done, opened, hdone.trans hops, hkeeps done hdone hpast, hopn, hreb⟩
  · intro path' dir' data salt' rewrite o o' bytes hmem hbel haltered hlater hprv honly
    exact hlog.openExisting_of_altered path' dir' salt' rewrite hmem hbel haltered hlater hprv honly

/-! A table is flushed, and merged into another: two synced batches, after which the first table
is unlinked. Behind them stands a batch that needs no sync. -/

def sampleSumChecks : ManifestChecks :=
  ⟨fun len bytes => UInt32.ofNat (bytes.foldl (fun sum b => 31 * sum + b.toNat) (len + 77))⟩

def sampleStamps : VersionSet :=
  create sampleSumChecks "MANIFEST" sampleDir none sampleSalt

def sampleFlushed : VersionSetOp :=
  .apply [.addFile 0 (sampleTable 1 1 2), .setLastSeq 5] sampleCalls

def sampleMerged : VersionSetOp :=
  .apply [.removeFile 0 1, .addFile 1 (sampleTable 2 1 2)] sampleCalls

def sampleCompacted : VersionSet :=
  (run (VersionSet.step sampleSumChecks) sampleStamps [sampleFlushed, sampleMerged]).getD
    sampleStamps

def sampleFile : SyncedFile :=
  (sampleCompacted.apply sampleSumChecks [.setNextFileId 9] sampleCalls).2.manifest

def sampleTorn : SyncedFile := ⟨sampleFile.bytes.take (sampleFile.synced + 5) ++ [7], 0⟩

def sampleAltered : SyncedFile := ⟨sampleFile.bytes.set 17 200, 0⟩

def sampleUnlinked : UInt64 → Option Seq → Except IoError SsTableReader :=
  fun id _ => if id = 2 then .ok sampleReader else .error ⟨.other, "no such file"⟩

theorem onlyWritten_of_lt {checks : ManifestChecks} {written data : Bytes}
    {keyring : Option Keyring} (h : ∀ o < data.length, (Manifest.batchAt checks data o).isSome →
      ∃ p ∈ Manifest.batchesOf checks written keyring, p.1 = o ∧ Holds data o p.2) :
    OnlyWritten checks written keyring data := by
  intro o _ hs
  obtain ⟨batch, hb⟩ := Option.isSome_iff_exists.mp hs
  have hstop := lt_stop_of_batchAt hb
  obtain ⟨p, hp, rfl, hh⟩ := h o (by omega) hs
  exact ⟨p.2, hp, hh⟩

theorem levels_compacted (l : Nat) : (versionAfter [sampleFlushed, sampleMerged]).levels l =
    if l = 1 then [sampleTable 2 1 2] else [] := by
  rcases l with _ | _ | l <;> rfl

theorem promised_compacted : Along (VersionSet.step sampleSumChecks) (fun vs op => op.Promised vs)
    sampleStamps [sampleFlushed, sampleMerged] := by
  have hf : ∀ d : Deletions, some ⟨1, 2, 3⟩ = some d → d.fits 4 = true := by
    rintro d ⟨⟩
    decide
  refine ⟨⟨⟨fun l => not_mem_nil, by decide, hf⟩, trivial, trivial⟩, fun vs hs =>
    ⟨?_, fun _ _ => trivial⟩⟩
  obtain ⟨added, hadded, hlvs⟩ : ∃ added, VersionSet.step sampleSumChecks sampleStamps
      sampleFlushed = some added ∧ ∀ l, added.current.ids l = if l = 0 then [1] else [] :=
    ⟨_, rfl, fun l => by cases l <;> rfl⟩
  obtain rfl : added = vs := Option.some_injective _ (hadded.symm.trans hs)
  refine ⟨fun l hl => ?_, ⟨fun l hl => ?_, by decide, hf⟩, trivial⟩
  · rw [hlvs, if_neg hl]
    exact not_mem_nil
  · have hmem : 2 ∈ added.current.ids l := (Version.mem_ids_removeFile.mp hl).1
    rw [hlvs] at hmem
    split_ifs at hmem <;> simp at hmem

/-- The open does without the table that was merged away and unlinked. -/
theorem openExisting_of_compacted :
    (∃ opened, openExisting sampleSumChecks sampleUnlinked "MANIFEST"
        sampleDir sampleTorn none sampleSalt sampleRename = .ok opened ∧
      opened.current.lastSeq = 5 ∧ opened.current.ids 1 = [2]) ∧
      ∃ e, openExisting sampleSumChecks sampleUnlinked "MANIFEST"
        sampleDir sampleAltered none sampleSalt sampleRename = .error e := by
  have hrun : run (VersionSet.step sampleSumChecks) sampleStamps [sampleFlushed, sampleMerged] =
    some sampleCompacted := rfl
  obtain ⟨hcrs, haltered⟩ := @openExisting_of_run sampleSumChecks "MANIFEST" sampleDir
    none sampleSalt [sampleFlushed, sampleMerged] sampleCompacted [.setNextFileId 9] sampleCalls
    sampleFile sampleUnlinked rfl promised_compacted hrun ⟨trivial, trivial⟩ nofun (.inr (.inl rfl))
  have hdur : DurableAfter sampleSumChecks sampleStamps [sampleFlushed, sampleMerged]
      [sampleFlushed, sampleMerged] := ⟨prefix_rfl, sampleCompacted, hrun, by decide +kernel⟩
  -- what a crash may leave is the merge, with or without the batch behind it
  have hleft : ∀ done, done <+: [sampleFlushed, sampleMerged] ++
      [.apply [.setNextFileId 9] sampleCalls] → [sampleFlushed, sampleMerged] <+: done →
      (versionAfter done).findOverlap = none ∧ (versionAfter done).lastSeq = 5 ∧
        (versionAfter done).levels = (versionAfter [sampleFlushed, sampleMerged]).levels := by
    rintro done hdone ⟨rest, rfl⟩
    rw [prefix_append_right_inj] at hdone
    rcases prefix_cons_iff.mp hdone with rfl | ⟨more, rfl, hmore⟩
    · exact ⟨rfl, rfl, rfl⟩
    · obtain rfl := prefix_nil.mp hmore
      exact ⟨rfl, rfl, rfl⟩
  constructor
  · obtain ⟨done, opened, hdone, hkeeps, hopn, hreb⟩ := hcrs "MANIFEST" sampleDir sampleTorn
      sampleSalt sampleRename (by decide +kernel) (.inr (by decide +kernel))
      (onlyWritten_of_lt (by decide +kernel)) fun done hdone hkeeps => by
        obtain ⟨hovl, -, hlvs⟩ := hleft done hdone (hkeeps.1 _ hdur)
        refine ⟨hovl, fun level f hf => ?_⟩
        rw [hlvs, levels_compacted] at hf
        split_ifs at hf
        · obtain rfl := mem_singleton.mp hf
          exact ⟨sampleReader, rfl⟩
        · cases hf
    obtain ⟨-, hseq, hlvs⟩ := hleft done hdone (hkeeps.1 _ hdur)
    refine ⟨opened, hopn, hreb.lastSeq.trans hseq, ?_⟩
    have hids := congrArg (List.map SsTableMeta.fileId) (hreb.levels 1)
    rw [hlvs, List.map_map] at hids
    exact hids
  · exact haltered "MANIFEST" sampleDir sampleAltered sampleSalt
      sampleRename 12 102 (slice sampleFile.bytes 12 90) (by decide +kernel) (by decide +kernel)
      (by decide +kernel) (by decide) ⟨⟨slice sampleFile.bytes 106 85, 195⟩, by decide +kernel⟩
      (onlyWritten_of_lt (by decide +kernel))

/-! A batch that needs no sync, and behind it one that does and whose sync did not complete. -/

def sampleUnsynced : VersionSet :=
  (run (VersionSet.step sampleSumChecks) sampleStamps
    [.apply [.setNextFileId 9] sampleCalls]).getD sampleStamps

def sampleFailedSync : ApplyCalls := { sampleCalls with sync := some ⟨.other, "sync"⟩ }

def sampleFailedFile : SyncedFile :=
  (sampleUnsynced.apply sampleSumChecks [.setLastSeq 5] sampleFailedSync).2.manifest

/-- The crash tears the first batch, keeps the second and leaves a byte behind it. -/
def sampleLonger : SyncedFile := ⟨sampleFailedFile.bytes.set 17 200 ++ [0], 0⟩

/-- Bytes past the end of what was written let a batch that was never synced pass for one that
was, and the open refuses what a crash left. -/
theorem openExisting_of_longer :
    run (VersionSet.step sampleSumChecks) sampleStamps [.apply [.setNextFileId 9] sampleCalls] =
      some sampleUnsynced ∧
    CrashState sampleFailedFile.bytes sampleFailedFile.synced sampleLonger.bytes ∧
    OnlyWritten sampleSumChecks sampleFailedFile.bytes none sampleLonger.bytes ∧
    ∃ e, openExisting sampleSumChecks sampleOpenTable "MANIFEST" sampleDir
      sampleLonger none sampleSalt sampleRename = .error e := by
  refine ⟨rfl, by decide +kernel, onlyWritten_of_lt (by decide +kernel), ?_⟩
  have herror : (openExisting sampleSumChecks sampleOpenTable "MANIFEST"
      sampleDir sampleLonger none sampleSalt
      sampleRename).toOption.isNone = true := by
    decide +kernel
  rcases hopen : openExisting sampleSumChecks sampleOpenTable "MANIFEST"
    sampleDir sampleLonger none sampleSalt sampleRename with e | vs
  · exact ⟨e, rfl⟩
  · rw [hopen] at herror
    cases herror

end RegolithStore
