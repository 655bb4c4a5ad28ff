import RegolithStore.Wal.Recovery

/-! Damage inside a log. A record below the synced offset that a later record states, or
below a CLOSE, is never taken for a torn tail: the scan behind it reaches the record that
proves the sync, at whatever offset. A log with a newer one after it was synced as a whole,
so any record it does not hold ends its replay in an error, and so does any byte after its
CLOSE. -/

namespace RegolithStore

open Lib List LogRecord

/-- The file holds the stamp and the records `pre`, and nothing verifies after them. -/
structure LostAfter (checks : WalChecks) (nonce : UInt64) (sealing : Option Sealer)
    (stamp disk : Bytes) (pre : List LogRecord) : Prop where
  stamped : Holds disk 0 stamp
  intact : ∀ p ∈ placed (frame checks nonce) stamp.length pre,
    Intact (frame checks nonce) disk p
  unverified : verifiedAt checks sealing nonce disk
    (endOf (frame checks nonce) stamp.length pre) = none

section Damage

variable {checks : WalChecks} {path : String} {nonce : UInt64} {aeadNonce : AeadNonce}
  {keyring : Option Keyring} {w₀ w : Wal} {pre suf : List LogRecord} {r : LogRecord} {disk : Bytes}
  {sealing : Option Sealer} {stamp : Bytes} {rs : List LogRecord} {p : Nat × LogRecord}

theorem exists_lostAfter (hs : Holds disk 0 stamp)
    (hc : ∀ p ∈ placed (frame checks nonce) stamp.length rs,
      (verifiedAt checks sealing nonce disk p.1).isSome → Intact (frame checks nonce) disk p)
    (hp : p ∈ placed (frame checks nonce) stamp.length rs)
    (hnot : ¬ Intact (frame checks nonce) disk p) :
    ∃ pre r suf, rs = pre ++ r :: suf ∧ LostAfter checks nonce sealing stamp disk pre ∧
      endOf (frame checks nonce) stamp.length pre ≤ p.1 := by
  obtain ⟨pre, suf, rfl, hi, hlost⟩ :=
    exists_intact_split (frame checks nonce) disk stamp.length rs
  cases suf with
  | nil => exact absurd (hi p (by simpa using hp)) hnot
  | cons r suf =>
    have hn := mt (hc _ mem_placed_of_split) (hlost r suf rfl)
    exact ⟨pre, r, suf, rfl, ⟨hs, hi, Option.not_isSome_iff_eq_none.mp hn⟩,
      endOf_le_of_not_intact hi hp hnot⟩

theorem Wal.Wrote.groups_before (h : w.Wrote checks nonce sealing stamp (pre ++ r :: suf)) :
    ∀ r' ∈ pre, r'.header.kind = .group := by
  intro r' hr'
  refine h.closeLast r' ?_
  rw [dropLast_append_of_ne_nil (cons_ne_nil r suf)]
  exact mem_append_left _ hr'

theorem Wal.Wrote.close_last (h : w.Wrote checks nonce sealing stamp rs) {o : Nat}
    (hr : (o, r) ∈ placed (frame checks nonce) stamp.length rs) (hclose : r.header.kind = .close) :
    ∃ pre, rs = pre ++ [r] ∧ o = endOf (frame checks nonce) stamp.length pre := by
  obtain ⟨pre, suf, rfl, ho⟩ := mem_placed.mp hr
  cases suf with
  | nil => exact ⟨pre, rfl, ho⟩
  | cons r' suf =>
    have hgroup := h.closeLast r (by
      simp)
    cases hgroup.symm.trans hclose

theorem WalReplayIter.unusableV2Record_error {it : WalReplayIter} {offset : Nat}
    (ho : it.closed = false)
    (hproof : (proofPast checks it.sealing nonce it.file it.fileLen offset (offset + 1)).isSome) :
    ∃ e, it.unusableV2Record checks nonce offset = .error e := by
  obtain ⟨synced, hs⟩ := Option.isSome_iff_exists.mp hproof
  rw [unusableV2Record]
  cases it.position with
  | earlier => exact ⟨_, rfl⟩
  | newest =>
    rw [ho, if_neg Bool.false_ne_true, hs]
    exact ⟨_, rfl⟩

section Lost

variable (hcreate : Wal.createIn checks path nonce aeadNonce keyring = .ok w₀)
  (h : w.Wrote checks nonce w₀.sealing w₀.file (pre ++ r :: suf))
  (hlost : LostAfter checks nonce w₀.sealing w₀.file disk pre)

include hcreate h hlost

/-- Replay comes to the first record that does not verify and judges it there. -/
theorem replayWal_lost (hmore : endOf (frame checks nonce) w₀.file.length pre ≠ disk.length)
    {position : WalPosition}
    (hunus : ∃ e, ((stampedIter path position w₀.sealing nonce disk w₀.file.length).atOffset
        (endOf (frame checks nonce) w₀.file.length pre) false).unusableV2Record checks
          nonce (endOf (frame checks nonce) w₀.file.length pre) = .error e) :
    ∃ e, replayWal checks path position keyring disk = .error e := by
  obtain ⟨e, hunus⟩ := hunus
  obtain ⟨n, -, hr⟩ := drain_held h.written_left hlost.intact h.groups_before
    (by simpa using hlost.stamped.length_le) path position
  refine ⟨e, ?_⟩
  rw [replayWal_of_holds hcreate hlost.stamped, hr,
    WalReplayIter.drain_unusable _ false n rfl rfl hmore
      (.inr fun header ops hv => absurd (hlost.unverified.symm.trans hv) (by simp)), hunus]
  rfl

/-- In the newest log, it is damage when a record the file holds proves a byte past it. -/
theorem replayWal_lost_newest
    (hp : p ∈ placed (frame checks nonce) w₀.file.length (pre ++ r :: suf))
    (hh : Intact (frame checks nonce) disk p)
    (hlater : endOf (frame checks nonce) w₀.file.length pre < p.1)
    (hprv : endOf (frame checks nonce) w₀.file.length pre <
      p.2.header.proves disk.length) :
    ∃ e, replayWal checks path .newest keyring disk = .error e := by
  have hwr := h.written p hp
  have hend := Holds.end_le hh (p.2.frame_ne_nil checks nonce p.1)
  have htest := testAt_of_verifiedAt (verifiedAt_of_holds hwr hh)
    (entriesAreWhole_encodeGroup hwr.fits) hprv
  exact replayWal_lost hcreate h hlost (by omega)
    (WalReplayIter.unusableV2Record_error rfl (proofPast_isSome (Nat.succ_le_of_lt hlater) htest))

end Lost

/-- Bytes after a CLOSE end the replay of a log with a newer one after it in an error. -/
theorem replayWal_after_close (hcreate : Wal.createIn checks path nonce aeadNonce keyring = .ok w₀)
    (h : w.Wrote checks nonce w₀.sealing w₀.file (pre ++ [r])) (hs : Holds disk 0 w₀.file)
    (hi : ∀ p ∈ placed (frame checks nonce) w₀.file.length (pre ++ [r]),
      Intact (frame checks nonce) disk p) (hclose : r.header.kind = .close)
    (hmore : endOf (frame checks nonce) w₀.file.length (pre ++ [r]) < disk.length) :
    ∃ e, replayWal checks path .earlier keyring disk = .error e := by
  have hlen : w₀.file.length ≤ disk.length := by simpa using hs.length_le
  rw [placed_concat] at hi
  obtain ⟨n, hn, hread⟩ := drain_held h.written_left (fun p hp => hi p (mem_append_left _ hp))
    h.groups_before hlen path .earlier
  set it := stampedIter path .earlier w₀.sealing nonce disk w₀.file.length
  rw [endOf_concat] at hmore
  set o := endOf (frame checks nonce) w₀.file.length pre
  have hr := h.written (o, r) mem_placed_of_split
  have hf : (r.frame checks nonce o).length = headerLen + r.body.length := by
    simp [frame]
  obtain ⟨m, hm⟩ : ∃ m, n + 1 = (m + 1) + (r.ops.length + 1) := by
    have hops : r.ops.length ≤ r.body.length := hr.ops_le
    exact ⟨n - (r.ops.length + 1), by omega⟩
  refine ⟨it.damageInAClosedFile (o + (r.frame checks nonce o).length), ?_⟩
  rw [replayWal_of_holds hcreate hs, hread, hm,
    it.drain_record (m + 1) rfl rfl hr (hi (o, r) (by simp)), decide_eq_true hclose,
    it.drain_unusable true m rfl rfl (ne_of_lt hmore) (.inl rfl)]
  rfl

end Damage

/-- A log as its writer left it, whose stamp is whole and in which no altered record
verifies. As the newest log it is refused when it lost a record below the synced offset a
later record states, or below a CLOSE; as an earlier one when it ends inside a record, has
an altered one, or has a byte after its CLOSE. -/
theorem replayWal_of_damage {checks : WalChecks} {path : String} {nonce : UInt64}
    {aeadNonce : AeadNonce} {keyring : Option Keyring} {w₀ w : Wal} {ops : List WalOp}
    {disk : Bytes} (hcreate : Wal.createIn checks path nonce aeadNonce keyring = .ok w₀)
    (hrun : run (Wal.step checks) w₀ ops = some w) (hsize : w.offset < 2 ^ 64)
    (hstamp : Holds disk 0 w₀.file) (hcheck : ∀ o bytes, (o, bytes) ∈ w₀.writes checks ops →
      (verifiedAt checks w.sealing nonce disk o).isSome → Holds disk o bytes) :
    (∀ o bytes o' bytes' header, (o, bytes) ∈ w₀.writes checks ops → ¬ Holds disk o bytes →
      (o', bytes') ∈ w₀.writes checks ops → Holds disk o' bytes' → o < o' →
      decodeHeader checks bytes' nonce o' w.sealing.isSome = some header →
      header.kind = .close ∨ o + bytes.length ≤ header.syncedThrough →
      ∃ e, replayWal checks path .newest keyring disk = .error e) ∧
    (∀ o bytes, (o, bytes) ∈ w₀.writes checks ops → ¬ Holds disk o bytes → o < disk.length →
      ∃ e, replayWal checks path .earlier keyring disk = .error e) ∧
    ∀ o bytes header, (o, bytes) ∈ w₀.writes checks ops → Holds disk o bytes → decodeHeader checks
      bytes nonce o w.sealing.isSome = some header → header.kind = .close → o + bytes.length <
      disk.length → ∃ e, replayWal checks path .earlier keyring disk = .error e := by
  obtain ⟨rs, hrs, -, hws, -⟩ := exists_records hcreate hrun hsize
  have hmem : ∀ o bytes, (o, bytes) ∈ w₀.writes checks ops ↔
      ∃ r, (o, r) ∈ placed (frame checks nonce) w₀.file.length rs ∧
        r.frame checks nonce o = bytes := by
    intro o bytes
    rw [hws]
    simp
  have hrec : ∀ p ∈ placed (frame checks nonce) w₀.file.length rs,
      (verifiedAt checks w₀.sealing nonce disk p.1).isSome →
        Intact (frame checks nonce) disk p := fun p hp hv =>
    hcheck p.1 _ ((hmem ..).mpr ⟨p.2, hp, rfl⟩) (by rwa [hrs.sealing_eq])
  have hdecode : ∀ o r header, (o, r) ∈ placed (frame checks nonce) w₀.file.length rs →
      decodeHeader checks (r.frame checks nonce o) nonce o w.sealing.isSome = some header →
      header = r.header := by
    intro o r header hr hhdr
    rw [hrs.sealing_eq, frame, decodeHeader_encode checks (hrs.written (o, r) hr).valid] at hhdr
    exact (Option.some.inj hhdr).symm
  have hearlier : ∀ o bytes, (o, bytes) ∈ w₀.writes checks ops → ¬ Holds disk o bytes →
      o < disk.length → ∃ e, replayWal checks path .earlier keyring disk = .error e := by
    intro o bytes ho hnot hlt
    obtain ⟨r, hr, rfl⟩ := (hmem ..).mp ho
    obtain ⟨pre, r₁, suf, hspl, hlost, hle⟩ := exists_lostAfter hstamp hrec hr hnot
    exact replayWal_lost hcreate (hspl ▸ hrs) hlost (ne_of_lt (hle.trans_lt hlt)) ⟨_, rfl⟩
  refine ⟨?_, hearlier, ?_⟩
  · intro o bytes o' bytes' header ho hnot ho' hheld hlt hhdr hclaim
    obtain ⟨r, hr, rfl⟩ := (hmem ..).mp ho
    obtain ⟨r', hr', rfl⟩ := (hmem ..).mp ho'
    obtain ⟨pre, r₁, suf, hspl, hlost, hle⟩ := exists_lostAfter hstamp hrec hr hnot
    cases hdecode o' r' header hr' hhdr
    rw [hspl] at hrs hr'
    have hpos := length_pos_iff.mpr (r.frame_ne_nil checks nonce o)
    have hend := hheld.end_le (r'.frame_ne_nil checks nonce o')
    refine replayWal_lost_newest hcreate hrs hlost hr' hheld (hle.trans_lt hlt) ?_
    cases hkind : r'.header.kind with
    | close =>
      rw [Header.proves, hkind]
      dsimp only
      omega
    | group =>
      have hsyn := hclaim.resolve_left (by simp [hkind])
      rw [Header.proves_group hkind]
      omega
  · intro o bytes header ho hheld hhdr hclose hmore
    obtain ⟨r, hr, rfl⟩ := (hmem ..).mp ho
    cases hdecode o r header hr hhdr
    obtain ⟨pre, rfl, rfl⟩ := hrs.close_last hr hclose
    by_cases hall : ∀ p ∈ placed (frame checks nonce) w₀.file.length (pre ++ [r]),
        Intact (frame checks nonce) disk p
    · exact replayWal_after_close hcreate hrs hstamp hall hclose (by rwa [endOf_concat])
    · push Not at hall
      obtain ⟨p, hp, hnot⟩ := hall
      have hend := end_le_of_mem_placed hp
      rw [endOf_concat] at hend
      exact hearlier p.1 _ ((hmem ..).mpr ⟨p.2, hp, rfl⟩) hnot (by omega)

def closedOps : List WalOp :=
  sampleOps ++ [.close sampleAeadNonce ⟨none, none⟩ none ⟨none, none⟩]

def closedLog : Wal := (run (Wal.step sampleChecks) sampleNew closedOps).getD sampleNew

/-- The kind byte of the first group is altered. -/
def damagedDisk : Bytes := closedLog.file.set 28 0

def extendedDisk : Bytes := closedLog.file ++ [0]

/-- A closed log, its first group altered. -/
theorem replayWal_of_damage_closed :
    (∃ e, replayWal sampleChecks "wal_000001.log" .newest none damagedDisk = .error e) ∧
    (∃ e, replayWal sampleChecks "wal_000001.log" .earlier none damagedDisk = .error e) ∧
    ∃ e, replayWal sampleChecks "wal_000001.log" .earlier none extendedDisk = .error e := by
  have hcreate : Wal.createIn sampleChecks "wal_000001.log" 5 sampleAeadNonce none =
    .ok sampleNew := rfl
  have hrun : run (Wal.step sampleChecks) sampleNew closedOps = some closedLog := rfl
  have hclose : decodeHeader sampleChecks (slice closedLog.file 104 21) 5 104 false =
      some ⟨0, .close, 104, 7⟩ := by decide +kernel
  have hdamaged : ∀ p ∈ sampleNew.writes sampleChecks closedOps,
      (verifiedAt sampleChecks none 5 damagedDisk p.1).isSome → Holds damagedDisk p.1 p.2 := by
    decide +kernel
  have hextended : ∀ p ∈ sampleNew.writes sampleChecks closedOps,
      (verifiedAt sampleChecks none 5 extendedDisk p.1).isSome → Holds extendedDisk p.1 p.2 := by
    decide +kernel
  obtain ⟨hnewest, hearlier, -⟩ := replayWal_of_damage hcreate hrun (by decide)
    (show Holds damagedDisk 0 _ by decide) fun o bytes => hdamaged (o, bytes)
  obtain ⟨-, -, haft⟩ := replayWal_of_damage hcreate hrun (by decide)
    (show Holds extendedDisk 0 _ by decide) fun o bytes => hextended (o, bytes)
  have hfst := mem_cons_self (a := (24, slice closedLog.file 24 40))
    (l := [(64, slice closedLog.file 64 40), (104, slice closedLog.file 104 21)])
  have hlast := mem_append_right [(24, slice closedLog.file 24 40),
    (64, slice closedLog.file 64 40)] (mem_singleton_self (104, slice closedLog.file 104 21))
  exact ⟨hnewest 24 _ 104 _ _ hfst (by decide +kernel) hlast (by decide +kernel) (by omega)
      hclose (.inl rfl),
    hearlier 24 _ hfst (by decide +kernel) (by decide +kernel),
    haft 104 _ _ hlast (by decide +kernel) hclose rfl (by decide +kernel)⟩

end RegolithStore
