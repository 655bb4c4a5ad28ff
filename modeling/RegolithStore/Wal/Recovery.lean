import RegolithStore.Wal.Replay
import RegolithStore.Wal.Writer

/-! What replay makes of a log the appending writer wrote. After a crash that keeps the
synced bytes and leaves anything after them, replay yields the operations of the first
groups, every synced one among them: the first record the file lost is unsynced, and what
the records after it claim is no more than was synced. Of a log damaged below a synced
offset that a later record still states, or damaged at all once a newer log follows, replay
ends in an error. -/

namespace RegolithStore

open Lib List LogRecord Wal WalReplayIter Option

variable {checks : WalChecks} {nonce : UInt64} {sealing : Option Sealer} {disk stamp : Bytes}
  {w : Wal}

variable {rs : List LogRecord} {keyring : Option Keyring} {aeadNonce : AeadNonce} {ops : List WalOp}
  {path : String}

namespace WalReplayIter

variable (it : WalReplayIter)

theorem drain_end (n : Nat) (closed : Bool) (hfrm : it.framing = .v2 nonce) :
    (it.atOffset it.fileLen closed).drain checks (n + 1) = .ok ([], it.tail) := by
  have ht : (it.atOffset it.fileLen closed).turn checks =
      .done (it.atOffset it.fileLen closed) := by
    rw [turn_v2 (by exact hfrm), turnV2, if_neg (by simp [atOffset]), if_pos (by rfl)]
  rw [drain, ht]
  rfl

/-- The replay ends at the first record that does not verify. -/
theorem drain_unusable {offset : Nat} (closed : Bool) (n : Nat) (hfrm : it.framing = .v2 nonce)
    (hlen : it.fileLen = it.file.length) (hmore : offset ≠ it.file.length)
    (hunus : closed = true ∨ ∀ header ops,
      verifiedAt checks it.sealing nonce it.file offset = some (header, ops) →
        entriesAreWhole ops = false) :
    (it.atOffset offset closed).drain checks (n + 1) =
      ((it.atOffset offset closed).unusableV2Record checks nonce offset).map
        fun it' => ([], it'.tail) := by
  have hr : (if closed then none else (it.atOffset offset closed).readV2Record checks nonce) =
      none := by
    rcases hunus with rfl | hunus
    · rfl
    · split_ifs
      · rfl
      · rw [readV2Record_eq checks nonce (by exact hlen)]
        simp only [atOffset]
        cases hv : verifiedAt checks it.sealing nonce it.file offset with
        | none => rfl
        | some p => simp [hunus p.1 p.2 hv]
  have hoff : ¬ (it.atOffset offset closed).consumed = (it.atOffset offset closed).fileLen := by
    simp only [atOffset]
    omega
  rw [drain, turn_v2 (by exact hfrm), turnV2, if_neg (by simp [atOffset]), if_neg hoff]
  simp only [show (it.atOffset offset closed).closed = closed from rfl, hr]
  rw [show (it.atOffset offset closed).consumed = offset from rfl]
  cases (it.atOffset offset closed).unusableV2Record checks nonce offset <;> rfl

end WalReplayIter

def stampedIter (path : String) (position : WalPosition) (sealing : Option Sealer)
    (nonce : UInt64) (disk : Bytes) (stampEnd : Nat) : WalReplayIter :=
  ⟨disk, path, disk.length, stampEnd, [], sealing, [], none, position, .v2 nonce, false, stampEnd⟩

theorem replayWal_of_holds
    (h : createIn checks path nonce aeadNonce keyring = .ok w) (hstm : Holds disk 0 w.file)
    (position : WalPosition) : replayWal checks path position keyring disk =
      (stampedIter path position w.sealing nonce disk w.file.length).drain checks
        (disk.length + 1) := by
  obtain ⟨rest, hr⟩ := hstm
  rw [drop_zero] at hr
  have ho : readStamp checks path keyring disk = .ok (.v2 nonce, w.file.length, w.sealing) := by
    rw [← hr]
    rcases createIn_cases h with ⟨rfl, rfl⟩ | ⟨k, sealer, stamp, rfl, hk, hs, rfl⟩
    · rw [readStamp_plain]
      simp [encodeStamp, stampLen]
    · exact readStamp_sealed path hk hs rest
  simp only [replayWal, WalReplayIter.open, ho, bind, Except.bind, pure, Except.pure]
  rfl

/-- What replay takes a stamp that was not synced for: the whole stamp, one the file ends
inside, or bytes that are no stamp and show that none was written. -/
def StampSettled (checks : WalChecks) (stamp disk : Bytes) : Prop :=
  Holds disk 0 stamp ∨ disk <+: stamp ∨ disk.length < walStampLen ∨
    slice disk 0 4 ≠ walMagic ∧ stampWasWritten checks (slice disk 0 (stampLen + headerLen)) = false

theorem StampedAs.of_prefix {flags : Nat} {file disk : Bytes} (h : StampedAs checks flags file)
    (hp : disk <+: file) (hlen : walStampLen ≤ disk.length) : StampedAs checks flags disk := by
  have hslc : ∀ i n, i + n ≤ walStampLen → slice disk i n = slice file i n := by
    intro i n hin
    obtain ⟨rest, rfl⟩ := hp
    rw [slice, slice, drop_append_of_le_length (by omega),
      take_append_of_le_length (by rw [length_drop]; omega)]
  refine ⟨?_, ?_, ?_, ?_, hlen⟩
  · rw [hslc 0 4 (by decide), h.magic_eq]
  · rw [leAt, hslc 4 2 (by decide), ← leAt, h.format_eq]
  · rw [leAt, hslc 6 2 (by decide), ← leAt, h.flags_eq]
  · rw [leAt, hslc 8 4 (by decide), ← leAt, h.check_eq]

/-- A log whose stamp is lost replays as one with none. -/
theorem readStamp_unstamped (h : StampSettled checks (encodeStamp checks nonce) disk)
    (hlost : ¬ Holds disk 0 (encodeStamp checks nonce)) (path : String) (keyring : Option Keyring) :
    readStamp checks path keyring disk = .ok (.unstamped, 0, none) ∧
      stampWasWritten checks (slice disk 0 (stampLen + headerLen)) = false := by
  have h12 : walStampLen = 12 := rfl
  have hlen : (slice disk 0 walStampLen).length = min 12 disk.length := by
    rw [slice, length_take, drop_zero, h12]
  have hnamed : ¬ walStampLen ≤ disk.length ∨ slice disk 0 4 ≠ walMagic →
      readStamp checks path keyring disk = .ok (.unstamped, 0, none) := by
    intro hno
    have hvalid : validateWalStamp checks (slice disk 0 walStampLen) = .ok none := by
      rw [validateWalStamp, if_pos]
      rcases hno with hno | hno
      · exact .inl (by omega)
      · exact .inr (by rwa [slice_slice (by decide), Nat.zero_add])
    simp only [readStamp, hvalid, bind, Except.bind, Except.mapError]
    rfl
  have hh : (slice disk 0 (stampLen + headerLen)).length ≤ disk.length := by
    rw [slice, length_take, drop_zero]
    exact Nat.min_le_right _ _
  rcases h with h | h | h | ⟨hmagic, hwr⟩
  · exact absurd h hlost
  · by_cases hsht : walStampLen ≤ disk.length
    · have hst := stampedAs_stampHead checks (show 0 < 2 ^ 16 by decide) nonce
        (encodeU32 (checks.walStampV2 (stampHead checks 0 nonce)))
      have hdisk := hst.of_prefix h hsht
      have hs : disk.length < stampLen := by
        refine lt_of_le_of_ne (by simpa [encodeStamp, stampLen] using h.length_le) fun heq => ?_
        have hall : disk = encodeStamp checks nonce :=
          h.eq_of_length (by simpa [encodeStamp, stampLen] using heq)
        exact hlost (by rw [hall]; exact prefix_refl _)
      constructor
      · simp only [readStamp, hdisk.validate, hdisk.flags_eq, hs, bind, Except.bind,
          Except.mapError]
        rfl
      · rw [stampWasWritten, if_pos]
        exact .inr (by rw [slice_slice (by decide), Nat.zero_add, hdisk.magic_eq])
    · refine ⟨hnamed (.inl hsht), ?_⟩
      rw [stampWasWritten, if_pos (.inl (by omega))]
  · refine ⟨hnamed (.inl (by omega)), ?_⟩
    rw [stampWasWritten, if_pos (.inl (by omega))]
  · exact ⟨hnamed (.inr hmagic), hwr⟩

/-- A log that lost its unsynced stamp replays as one that holds nothing. -/
theorem replayWal_unstamped (h : StampSettled checks (encodeStamp checks nonce) disk)
    (hlost : ¬ Holds disk 0 (encodeStamp checks nonce)) (path : String) (keyring : Option Keyring) :
    ∃ tail, replayWal checks path .newest keyring disk = .ok ([], tail) := by
  obtain ⟨hr, hwr⟩ := readStamp_unstamped h hlost path keyring
  by_cases he : disk.length = 0
  · refine ⟨none, ?_⟩
    simp [replayWal, WalReplayIter.open, hr, bind, Except.bind, unstamped, he,
      WalReplayIter.drain, WalReplayIter.turn]
  · refine ⟨some ⟨0, disk.length⟩, ?_⟩
    simp [replayWal, WalReplayIter.open, hr, bind, Except.bind, unstamped, he,
      hwr, WalReplayIter.drain, WalReplayIter.turn]

/-- The records of a run: what the log holds, where it was written, and how much of it the
first calls wrote. -/
theorem exists_records {w₀ w : Wal}
    (hcreate : createIn checks path nonce aeadNonce keyring = .ok w₀)
    (hrun : run (Wal.step checks) w₀ ops = some w) (hs : w.offset < 2 ^ 64) :
    ∃ rs, w.Wrote checks nonce w₀.sealing w₀.file rs ∧
      w₀.syncedThrough ≤ w.syncedThrough ∧
      w₀.writes checks ops = (placed (frame checks nonce) w₀.file.length rs).map
        (fun p => (p.1, p.2.frame checks nonce p.1)) ∧
      ∀ before after wb, ops = before ++ after → run (Wal.step checks) w₀ before = some wb →
        ∃ first, first <+: rs ∧ wb.Wrote checks nonce w₀.sealing w₀.file first ∧
          ((∀ op ∈ before, op.IsWrite) →
            first.map LogRecord.ops = (appended before).map Group.ops) := by
  have hw0 := (wrote_createIn hcreate).1
  obtain ⟨rs, hrs, hsyn, hws, hf⟩ := hw0.run hrun hs
  rw [← hw0.file_length] at hws
  exact ⟨rs, hrs, hsyn, hws, hf⟩

section Held

variable {start : Nat}
  (hwr : ∀ p ∈ placed (frame checks nonce) start rs, p.2.Written checks sealing nonce p.1)
  (hintact : ∀ p ∈ placed (frame checks nonce) start rs, Intact (frame checks nonce) disk p)
  (hgroups : ∀ r ∈ rs, r.header.kind = .group) (hstrt : start ≤ disk.length)

include hwr hintact hgroups hstrt

/-- Replay reads the groups the file holds after its stamp, and has a turn left for every
byte after them. -/
theorem drain_held (path : String) (position : WalPosition) :
    ∃ n, disk.length ≤ n + endOf (frame checks nonce) start rs ∧
      (stampedIter path position sealing nonce disk start).drain checks (disk.length + 1) =
      WalReplayIter.after (rs.flatMap entries)
        (((stampedIter path position sealing nonce disk start).atOffset
          (endOf (frame checks nonce) start rs) false).drain checks (n + 1)) := by
  set it := stampedIter path position sealing nonce disk start
  have hend := endOf_le_length (fun o r => r.frame_ne_nil checks nonce o) hstrt hintact
  have ht := turnsOf_le hwr
  obtain ⟨n, hn⟩ : ∃ n, disk.length + 1 = (n + 1) + turnsOf rs :=
    ⟨disk.length - turnsOf rs, by omega⟩
  refine ⟨n, by omega, ?_⟩
  rw [hn, show it = it.atOffset start false from rfl]
  exact it.drain_records (n + 1) rfl rfl hgroups hwr hintact

/-- Replay of the newest log reads the groups the file holds after its stamp, and ends well
where nothing verifies and nothing past it proves a sync of it. -/
theorem drain_until (hn : verifiedAt checks sealing nonce disk
      (endOf (frame checks nonce) start rs) = none)
    (hproof : proofPast checks sealing nonce disk disk.length
      (endOf (frame checks nonce) start rs)
      (endOf (frame checks nonce) start rs + 1) = none) (path : String) :
    ∃ tail, (stampedIter path .newest sealing nonce disk start).drain checks (disk.length + 1) =
      .ok (rs.flatMap entries, tail) := by
  obtain ⟨n, -, hr⟩ := drain_held hwr hintact hgroups hstrt path .newest
  rw [hr]
  set it := stampedIter path .newest sealing nonce disk start
  set o := endOf (frame checks nonce) start rs
  rcases eq_or_ne o disk.length with heq | hne
  · refine ⟨none, ?_⟩
    rw [heq, show disk.length = it.fileLen from rfl, it.drain_end n false rfl]
    simp [WalReplayIter.after, Except.map, it, stampedIter]
  · have hproof' : proofPast checks (it.atOffset o false).sealing nonce (it.atOffset o false).file
        (it.atOffset o false).fileLen o (o + 1) = none := hproof
    have hok : (it.atOffset o false).unusableV2Record checks nonce o =
        .ok { it.atOffset o false with
          group := [], tail := some ⟨o, it.fileLen - o⟩, consumed := it.fileLen } := by
      simp only [unusableV2Record, show (it.atOffset o false).position = .newest
        from rfl, show (it.atOffset o false).closed = false from rfl, Bool.false_eq_true, if_false,
        hproof']
      rfl
    refine ⟨some ⟨o, it.fileLen - o⟩, ?_⟩
    rw [it.drain_unusable false n rfl rfl hne
      (.inr fun header ops hv => by cases hn.symm.trans hv), hok]
    simp [WalReplayIter.after, Except.map]

end Held

theorem Wal.Wrote.written_left {pre suf : List LogRecord}
    (h : w.Wrote checks nonce sealing stamp (pre ++ suf)) :
    ∀ p ∈ placed (frame checks nonce) stamp.length pre,
      p.2.Written checks sealing nonce p.1 := fun p hp =>
  h.written p (by rw [placed_append]; exact mem_append_left _ hp)

section Crash

variable {pre suf : List LogRecord}

theorem Wal.Wrote.intact (h : w.Wrote checks nonce sealing stamp rs)
    (hcrash : CrashState w.file w.syncedThrough disk) {p : Nat × LogRecord}
    (hp : p ∈ placed (frame checks nonce) stamp.length rs)
    (hend : p.1 + (p.2.frame checks nonce p.1).length ≤ w.syncedThrough) :
    Intact (frame checks nonce) disk p := by
  have hf := intact_of_mem_placed hp
  rw [← h.file_eq] at hf
  exact hf.of_take_eq hcrash.keeps hend

theorem Wal.Wrote.synced_le_of_lost (h : w.Wrote checks nonce sealing stamp (pre ++ suf))
    (hcrash : CrashState w.file w.syncedThrough disk)
    (hlost : LostAt (frame checks nonce) disk stamp.length pre suf) {synced : Nat}
    (hc : Covers checks nonce stamp.length (pre ++ suf) synced)
    (hle : synced ≤ w.syncedThrough) : synced ≤ endOf (frame checks nonce) stamp.length pre := by
  rcases hc with rfl | ⟨upTo, hup, rfl⟩
  · exact Nat.zero_le _
  · by_contra hlt
    cases suf with
    | nil => exact hlt (endOf_mono (by simpa using hup) _)
    | cons r rest =>
      have hend := endOf_concat_le hup (not_le.mp hlt)
      rw [endOf_concat] at hend
      exact hlost r rest rfl (h.intact hcrash mem_placed_of_split (hend.trans hle))

variable (checks nonce sealing stamp) in
/-- Nothing verifies in the file but the records, where they were written. -/
def OnlyRecords (rs : List LogRecord) (disk : Bytes) : Prop :=
  ∀ o, (verifiedAt checks sealing nonce disk o).isSome →
    ∃ r, (o, r) ∈ placed (frame checks nonce) stamp.length rs ∧
      Intact (frame checks nonce) disk (o, r)

theorem verifiedAt_lost (honly : OnlyRecords checks nonce sealing stamp (pre ++ suf) disk)
    (hlost : LostAt (frame checks nonce) disk stamp.length pre suf) :
    verifiedAt checks sealing nonce disk
      (endOf (frame checks nonce) stamp.length pre) = none := by
  by_contra hs
  obtain ⟨r, hr, hintact⟩ := honly _ (isSome_iff_ne_none.mpr hs)
  exact hlost.not_intact (fun o r => r.frame_ne_nil checks nonce o) hr hintact

variable (h : w.Wrote checks nonce sealing stamp (pre ++ suf))
  (hgroups : ∀ r ∈ pre ++ suf, r.header.kind = .group)
  (hcrash : CrashState w.file w.syncedThrough disk)
  (honly : OnlyRecords checks nonce sealing stamp (pre ++ suf) disk)
  (hlost : LostAt (frame checks nonce) disk stamp.length pre suf)

include h hgroups hcrash honly hlost

/-- No record after the first lost one claims a byte past it. -/
theorem proofPast_lost (start : Nat) : proofPast checks sealing nonce disk disk.length
      (endOf (frame checks nonce) stamp.length pre) start = none := by
  by_contra hs
  obtain ⟨p, hp⟩ := ne_none_iff_exists'.mp hs
  obtain ⟨o, -, htest⟩ := exists_of_proofPast hp
  obtain ⟨header, ops, hver, hprv, hlt⟩ := verifiedAt_of_testAt htest
  obtain ⟨r, hr, hintact⟩ := honly o (hver ▸ rfl)
  rw [verifiedAt_of_holds (h.written _ hr) hintact] at hver
  obtain ⟨pre', suf', hspl, -⟩ := mem_placed.mp hr
  have hmem : r ∈ pre ++ suf := hspl ▸ by simp
  obtain ⟨hle, hc⟩ := h.claims r hmem
  have hclaim := Header.proves_group (hgroups r hmem) disk.length
  have hh : r.header = header := congrArg Prod.fst (some.inj hver)
  have hsyn := h.synced_le_of_lost hcrash hlost hc hle
  rw [← hh, hclaim] at hprv
  omega

theorem drain_crash (hintact : ∀ p ∈ placed (frame checks nonce) stamp.length pre,
      Intact (frame checks nonce) disk p)
    (hs : stamp.length ≤ disk.length) (path : String) :
    ∃ tail, (stampedIter path .newest sealing nonce disk stamp.length).drain checks
      (disk.length + 1) = .ok (pre.flatMap entries, tail) :=
  drain_until h.written_left hintact (fun r hr => hgroups r (mem_append_left _ hr)) hs
    (verifiedAt_lost honly hlost) (proofPast_lost h hgroups hcrash honly hlost _) path

end Crash

theorem Wal.Wrote.holds_stamp {stamp disk : Bytes} (h : w.Wrote checks nonce sealing stamp rs)
    (hcrash : CrashState w.file w.syncedThrough disk) (hs : stamp.length ≤ w.syncedThrough) :
    Holds disk 0 stamp := by
  have hf : Holds w.file 0 stamp := by
    rw [h.file_eq]
    exact prefix_append _ _
  exact hf.of_take_eq hcrash.keeps (by omega)

theorem entries_of_groups {rs pre suf : List LogRecord} {groups : List Group}
    (hops : rs.map LogRecord.ops = groups.map Group.ops) (hrs : rs = pre ++ suf) :
    pre.flatMap entries = (groups.take pre.length).flatMap Group.entries := by
  have ht : pre.map LogRecord.ops = (groups.take pre.length).map Group.ops := by
    rw [map_take, ← hops, hrs, map_append, ← length_map LogRecord.ops, take_left]
  calc pre.flatMap entries = (pre.map LogRecord.ops).flatMap (List.map fun p => p.1.entry p.2) := by
        rw [flatMap_map]
        rfl
    _ = (groups.take pre.length).flatMap Group.entries := by
        rw [ht, flatMap_map]
        rfl

theorem Wal.Wrote.offset_le_synced {wb w : Wal} {faults : SyncFaults} (h : wb.Wrote checks nonce sealing stamp rs)
    (hs : (wb.syncData faults).1 = .ok ())
    (hrun : Lib.run (Wal.step checks) wb (.syncData faults :: ops) = some w)
    (hsize : w.offset < 2 ^ 64) : wb.offset ≤ w.syncedThrough := by
  obtain ⟨t, ht, hrun⟩ := run_cons.mp hrun
  obtain rfl : (wb.syncData faults).2 = t := some.inj ht
  obtain ⟨-, -, hle, -⟩ := (h.syncData faults).run hrun hsize
  rcases syncData_cases wb faults with ⟨-, e, he⟩ | heq
  · cases he.symm.trans hs
  · rwa [heq] at hle

/-- A log created and then appended to and synced, left by a crash with its synced bytes
and anything after them: where nothing verifies but the records, and where its stamp is
settled if no sync covered it, replay succeeds and yields the operations of the first `n`
groups, those synced among them. -/
theorem replayWal_of_crash {checks : WalChecks} {path : String} {nonce : UInt64}
    {aeadNonce : AeadNonce} {keyring : Option Keyring} {w₀ w : Wal} {ops : List WalOp}
    {disk : Bytes} (hcreate : createIn checks path nonce aeadNonce keyring = .ok w₀)
    (hops : ∀ op ∈ ops, op.IsWrite) (hrun : run (Wal.step checks) w₀ ops = some w)
    (hsize : w.offset < 2 ^ 64) (hcrash : CrashState w.file w.syncedThrough disk)
    (hstamp : w.syncedThrough = 0 → StampSettled checks w₀.file disk)
    (honly : ∀ o, (verifiedAt checks w.sealing nonce disk o).isSome →
      ∃ bytes, (o, bytes) ∈ w₀.writes checks ops ∧ Holds disk o bytes) :
    ∃ n tail, replayWal checks path .newest keyring disk =
        .ok (((appended ops).take n).flatMap Group.entries, tail) ∧
      ∀ before faults after wb, ops = before ++ .syncData faults :: after → run (Wal.step checks) w₀
        before = some wb → (wb.syncData faults).1 = .ok () → (appended before).length ≤ n := by
  obtain ⟨rs, hrs, hsyn, hws, hfst⟩ := exists_records hcreate hrun hsize
  have hpos : ∀ o r, frame checks nonce o r ≠ [] :=
    fun o r => r.frame_ne_nil checks nonce o
  have hsync : ∀ before faults after wb, ops = before ++ .syncData faults :: after →
      run (Wal.step checks) w₀ before = some wb → (wb.syncData faults).1 = .ok () →
      ∃ first, first <+: rs ∧ first.length = (appended before).length ∧
        endOf (frame checks nonce) w₀.file.length first ≤ w.syncedThrough := by
    intro before faults after wb hspl hb hok
    obtain ⟨first, hpre, hwb, hgroups⟩ := hfst before _ wb hspl hb
    subst hspl
    obtain ⟨t, ht, hrest⟩ := run_append.mp hrun
    obtain rfl : wb = t := mem_unique hb ht
    refine ⟨first, hpre, ?_, hwb.offset_eq ▸ hwb.offset_le_synced hok hrest hsize⟩
    simpa using congrArg List.length (hgroups fun op hop => hops op (mem_append_left _ hop))
  by_cases hheld : Holds disk 0 w₀.file
  · obtain ⟨pre, suf, hspl, hintact, hlost⟩ :=
      exists_intact_split (frame checks nonce) disk w₀.file.length rs
    have hgroups : ∀ r ∈ pre ++ suf, r.header.kind = .group := hspl ▸
      hrs.all_groups ((run_frame (fun op hop _ _ hstep => step_closed (hops op hop) hstep)
        hrun).trans (wrote_createIn hcreate).2)
    have hrecs : OnlyRecords checks nonce w₀.sealing w₀.file (pre ++ suf) disk := by
      intro o ho
      obtain ⟨bytes, hmem, hhld⟩ := honly o (by rwa [hrs.sealing_eq])
      rw [hws, hspl] at hmem
      obtain ⟨p, hp, heq⟩ := mem_map.mp hmem
      cases heq
      exact ⟨p.2, hp, hhld⟩
    rw [hspl] at hrs
    obtain ⟨tail, htail⟩ := drain_crash hrs hgroups hcrash hrecs hlost hintact
      (by simpa using hheld.length_le) path
    have hall : rs.map LogRecord.ops = (appended ops).map Group.ops := by
      obtain ⟨first, hpre, hwb, hmap⟩ := hfst ops [] w (by simp) hrun
      have hlen := length_le_of_endOf_le hpos (prefix_refl rs) hpre
        (by rw [← hwb.offset_eq, hspl, ← hrs.offset_eq])
      rw [← hpre.eq_of_length_le hlen, hmap hops]
    refine ⟨pre.length, tail, ?_, fun before faults after wb hbef hb hok => ?_⟩
    · rw [replayWal_of_holds hcreate hheld, htail, entries_of_groups hall hspl]
    · obtain ⟨first, hpre, hlen, hend⟩ := hsync before faults after wb hbef hb hok
      have hle := hrs.synced_le_of_lost hcrash hlost (.inr ⟨first, hspl ▸ hpre, rfl⟩) hend
      rw [← hlen]
      exact length_le_of_endOf_le hpos hpre (hspl ▸ prefix_append pre suf) hle
  · have hzero : w.syncedThrough < w₀.file.length :=
      not_le.mp fun hle => hheld (hrs.holds_stamp hcrash hle)
    have hnone : w.syncedThrough = 0 := by
      rcases hrs.synced with h0 | ⟨upTo, -, hup⟩
      · exact h0
      · exact absurd hzero (not_lt.mpr (hup ▸ start_le_endOf _ _))
    have hpln : w₀.file = encodeStamp checks nonce := by
      rcases createIn_cases hcreate with ⟨-, rfl⟩ | ⟨k, sealer, stamp, -, -, -, rfl⟩
      · rfl
      · exact absurd hzero hsyn.not_gt
    have hsett := hstamp hnone
    rw [hpln] at hsett hheld
    obtain ⟨tail, htail⟩ := replayWal_unstamped hsett hheld path keyring
    refine ⟨0, tail, by rw [htail]; rfl, fun before faults after wb hbef hb hok => ?_⟩
    obtain ⟨first, -, -, hend⟩ := hsync before faults after wb hbef hb hok
    exact absurd hzero (not_lt.mpr ((start_le_endOf _ _).trans hend))

/-- Checks that take every header and payload for whole. -/
def sampleChecks : WalChecks := ⟨fun _ _ _ => 7, fun _ => 7, fun _ => 7, fun _ => 7, fun _ _ _ => 7⟩

theorem samplePut_fits (value : UInt8) (seq : Seq) :
    (encodeGroup [(.put [1] [value], seq)]).length ≤ maxRecordLen := by
  simp [encodeGroup, encodeOpRecord, encodePutPayload, encodePairPayload, encodeField, maxRecordLen]

def samplePut (value : UInt8) (seq : Seq) : WalOp :=
  .appendGroup ⟨[(.put [1] [value], seq)], samplePut_fits value seq⟩ sampleAeadNonce none

def sampleOps : List WalOp := [samplePut 2 1, .syncData ⟨none, none⟩, samplePut 3 2]

def sampleNew : Wal :=
  ⟨encodeStamp sampleChecks 5, 24, "wal_000001.log", false, 5, 0, false, none, 24⟩

def sampleLog : Wal := (run (Wal.step sampleChecks) sampleNew sampleOps).getD sampleNew

def sampleDisk : Bytes := sampleLog.file.take (sampleLog.syncedThrough + 9) ++ [0xC1, 0]

/-- A log of two groups, the second torn. -/
theorem replayWal_of_crash_torn : ∃ n tail,
      replayWal sampleChecks "wal_000001.log" .newest none sampleDisk =
        .ok (((appended sampleOps).take n).flatMap Group.entries, tail) ∧ 1 ≤ n := by
  have hcreate : createIn sampleChecks "wal_000001.log" 5 sampleAeadNonce none =
    .ok sampleNew := rfl
  have hrun : run (Wal.step sampleChecks) sampleNew sampleOps = some sampleLog := rfl
  have honly : ∀ o < sampleDisk.length,
      (verifiedAt sampleChecks sampleLog.sealing 5 sampleDisk o).isSome →
        ∃ p ∈ sampleNew.writes sampleChecks sampleOps, p.1 = o ∧ Holds sampleDisk o p.2 := by
    decide +kernel
  have hcrash : CrashState sampleLog.file sampleLog.syncedThrough sampleDisk := by decide
  obtain ⟨n, tail, hrpl, hsyn⟩ := replayWal_of_crash hcreate (by decide) hrun (by decide)
    hcrash (fun h => absurd h (by decide)) fun o ho =>
      have ⟨p, hp, heq, hhld⟩ := honly o (lt_of_verifiedAt ho) ho
      ⟨p.2, heq ▸ hp, hhld⟩
  exact ⟨n, tail, hrpl, hsyn [samplePut 2 1] ⟨none, none⟩ [samplePut 3 2] _ rfl rfl rfl⟩

/-- A stamp no sync covered, of which a crash left the magic and zeros after it. -/
def unsettledDisk : Bytes := walMagic ++ List.replicate 8 0

/-- A crash of a log that was never synced may leave a file replay refuses, though nothing
in it verifies. -/
theorem replayWal_unsettled :
    createIn sampleChecks "wal_000001.log" 5 sampleAeadNonce none = .ok sampleNew ∧
    (∃ w, run (Wal.step sampleChecks) sampleNew [samplePut 2 1] = some w ∧
      CrashState w.file w.syncedThrough unsettledDisk) ∧
    (∀ o, (verifiedAt sampleChecks none 5 unsettledDisk o).isSome = false) ∧
    replayWal sampleChecks "wal_000001.log" .newest none unsettledDisk =
      .error ⟨.invalidData, "wal_000001.log: the write-ahead log header is damaged"⟩ := by
  refine ⟨rfl, ⟨_, rfl, by decide⟩, fun o => ?_, by decide +kernel⟩
  have hsht : (unsettledDisk.drop o).length < headerLen := by
    rw [length_drop]
    exact lt_of_le_of_lt (Nat.sub_le ..) (by decide)
  rw [verifiedAt, decodeHeader_of_short sampleChecks hsht]
  rfl

end RegolithStore
