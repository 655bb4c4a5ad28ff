import RegolithStore.Wal.Log
import RegolithStore.Wal.Recovery

/-! What replay makes of a positional log whose history has rollbacks (`rollback_to`). A cut
is a change of the file's length that no sync covers, and a record is bound to the log and
to its own offset, not to the record before it. So after a crash a record of before a cut
can still stand at its offset, and where a record written after the cut ends just there,
replay reads the two one after the other. Where none does, no discarded record is replayed
behind a record that was placed after the rollback. -/

namespace RegolithStore

open Lib List LogHistory LogRecord

namespace LogHistory

variable (checks : WalChecks)

/-- What a crash may leave of the log: the synced bytes, and past them any byte that was
ever written at its offset, or the end of the file. -/
structure CrashesTo (h : LogHistory) (disk : Bytes) : Prop where
  keeps : CrashState h.log.file h.log.durable disk
  stale : ∀ i, i < disk.length → h.log.durable ≤ i →
    ∃ w ∈ h.writes, w.1 ≤ i ∧ w.2[i - w.1]? = disk[i]?

instance (h : LogHistory) (disk : Bytes) : Decidable (h.CrashesTo disk) :=
  decidable_of_iff (CrashState h.log.file h.log.durable disk ∧
    ∀ i, i < disk.length → h.log.durable ≤ i →
      ∃ w ∈ h.writes, w.1 ≤ i ∧ w.2[i - w.1]? = disk[i]?)
    ⟨fun h => ⟨h.1, h.2⟩, fun h => ⟨h.keeps, h.stale⟩⟩

def HeldBy (h : LogHistory) (disk : Bytes) (p : PlacedRecord) : Prop :=
  ∃ record, h.log.finishRecord checks .group p.place p.group.encode = .ok record ∧
    Holds disk p.place.offset record

instance (h : LogHistory) (disk : Bytes) (p : PlacedRecord) :
    Decidable (h.HeldBy checks disk p) :=
  match hrecord : h.log.finishRecord checks .group p.place p.group.encode with
  | .error _ => isFalse fun ⟨record, heq, _⟩ => by cases hrecord.symm.trans heq
  | .ok record => decidable_of_iff (Holds disk p.place.offset record)
      ⟨fun hholds => ⟨record, hrecord, hholds⟩, fun ⟨record', heq, hholds⟩ => by
        cases hrecord.symm.trans heq
        exact hholds⟩

/-- Nothing verifies in the file but records that reached it, where they were placed. -/
def OnlyWritten (h : LogHistory) (disk : Bytes) : Prop :=
  ∀ o, (verifiedAt checks h.log.sealing h.log.nonce disk o).isSome →
    ∃ p ∈ h.places, p.written = true ∧ p.place.offset = o ∧ h.HeldBy checks disk p

/-- No record is placed to end where a discarded record begins that had all reached the file. -/
def EndsApart (h : LogHistory) : LogAction → Prop
  | .place group nonce => ∀ d ∈ h.places, d.discardedBy.isSome → d.written = true →
      (h.nextPlace group nonce).stop ≠ d.place.offset
  | _ => True

instance (h : LogHistory) (a : LogAction) : Decidable (h.EndsApart a) := by
  cases a <;> unfold EndsApart <;> infer_instance

variable {checks} {log₀ : Log} {h h' : LogHistory} {disk : Bytes} {fault : Option WriteFault}
  {ps : List PlacedRecord} {p : PlacedRecord} {record : Bytes} {index : Nat} {o e : Nat}

/-- No record ends where one begins that was discarded before it was placed. -/
def Apart (h : LogHistory) : Prop :=
  ∀ n ∈ h.places, ∀ d ∈ h.places, d.written = true → d.DiscardedBefore n →
    n.place.stop ≠ d.place.offset

theorem Apart.placeNext {group : Group} {nonce : AeadNonce} (ha : h.Apart)
    (he : h.EndsApart (.place group nonce)) : (h.placeNext group nonce).Apart := by
  intro n hn d hd hwr hdis
  simp only [LogHistory.placeNext, mem_append, mem_singleton] at hn hd
  rcases hd with hd | rfl
  · rcases hn with hn | rfl
    · exact ha n hn d hd hwr hdis
    · obtain ⟨epoch, hby, -⟩ := hdis
      exact he d hd (hby ▸ rfl) hwr
  · cases hwr

theorem mem_hand {p q : PlacedRecord}
    (hq : q ∈ (h.hand index p record fault).places) :
    q ∈ h.places ∨ q = { p with written := true } ∧ p.place.epoch = h.log.epoch := by
  rw [hand] at hq
  by_cases hep : p.place.epoch ≠ h.log.epoch
  · rw [if_pos hep] at hq
    exact .inl hq
  rw [if_neg hep] at hq
  have hcases : q ∈ (if Lib.landedOf record fault = record then
      h.places.set index { p with written := true } else h.places) := by
    cases fault <;> exact hq
  split_ifs at hcases
  · exact (mem_or_eq_of_mem_set hcases).imp_right fun heq => ⟨heq, not_not.mp hep⟩
  · exact .inl hcases

variable (hs : Sound checks log₀ h)

include hs

theorem Apart.hand (ha : h.Apart) (hp : p ∈ h.places) : (h.hand index p record fault).Apart := by
  intro n hn d hd hwr hdis
  have hold : ∃ n' ∈ h.places, n'.place = n.place := by
    rcases mem_hand hn with hn | ⟨rfl, -⟩
    · exact ⟨n, hn, rfl⟩
    · exact ⟨p, hp, rfl⟩
  obtain ⟨n', hn', hpl⟩ := hold
  rw [PlacedRecord.DiscardedBefore, ← hpl] at hdis
  rw [← hpl]
  rcases mem_hand hd with hd | ⟨rfl, hep⟩
  · exact ha n' hn' d hd hwr hdis
  · obtain ⟨epoch, hby, -⟩ := hdis
    have hl := (mem_live.mp (hs.live_of_epoch hp hep)).2
    cases hl.symm.trans hby

theorem Apart.discard (ha : h.Apart) (cut : Nat) : (h.discard cut).Apart := by
  intro n hn d hd hwr hdis
  obtain ⟨n, hn', rfl⟩ := mem_map.mp hn
  obtain ⟨d, hd', rfl⟩ := mem_map.mp hd
  rw [PlacedRecord.DiscardedBefore, place_discardAt] at hdis
  rw [place_discardAt, place_discardAt]
  rcases discardAt_eq cut (h.log.epoch + 1) d with heq | ⟨heq, -⟩ <;> rw [heq] at hwr hdis
  · exact ha n hn' d hd' hwr hdis
  · obtain ⟨epoch, hby, hle⟩ := hdis
    cases hby
    have hep := (hs.gave n hn').epoch_le
    omega

/-- Records that end apart stay apart. -/
theorem Apart.step {a : LogAction} (ha : h.Apart)
    (hends : h.EndsApart a) (hstep : h.step checks a = some h') : h'.Apart := by
  cases a with
  | place group nonce =>
    obtain ⟨-, rfl⟩ := guarded_eq_some.mp hstep
    exact ha.placeNext hends
  | write index fault =>
    obtain ⟨p, hp, rfl⟩ := Option.map_eq_some_iff.mp hstep
    cases h.log.finishRecord checks .group p.place p.group.encode with
    | error e => exact ha
    | ok record => exact ha.hand hs (mem_of_getElem? hp)
  | sync through faults =>
    rw [LogHistory.step, Option.ite_none_right_eq_some] at hstep
    rcases Log.syncThrough_cases h.log through faults with ⟨e, he⟩ | hok
    · rw [he, Option.some.injEq] at hstep
      exact hstep.2 ▸ ha
    · rw [hok, Option.some.injEq] at hstep
      exact hstep.2 ▸ ha
  | rollback cut =>
    obtain ⟨-, rfl⟩ := guarded_eq_some.mp hstep
    exact ha.discard hs cut

omit hs

/-- The records lie one after the other from `o`, and the file holds each. -/
structure ReadFrom (checks : WalChecks) (h : LogHistory) (disk : Bytes) (o : Nat)
    (ps : List PlacedRecord) (e : Nat) : Prop where
  tiles : Tiles Place.offset Place.stop o (ps.map (·.place.toPlace)) e
  mem : ∀ p ∈ ps, p ∈ h.places
  written : ∀ p ∈ ps, p.written = true
  held : ∀ p ∈ ps, h.HeldBy checks disk p

include hs

/-- No record read was discarded before one read earlier was placed. -/
theorem ReadFrom.pairwise (ha : h.Apart) (hread : ReadFrom checks h disk o ps e) :
    ps.Pairwise fun n d => ¬ d.DiscardedBefore n := by
  obtain ⟨ht, hmem, hwr, -⟩ := hread
  induction ps generalizing o with
  | nil => exact .nil
  | cons n ps ih =>
    rw [forall_mem_cons] at hmem hwr
    have hr := ih ht.2 hmem.2 hwr.2
    refine .cons (fun d hd => ?_) hr
    cases ps with
    | nil => cases hd
    | cons p ps =>
      have hp := hmem.2 p (mem_cons_self ..)
      have hn : ¬ p.DiscardedBefore n := fun hdis =>
        ha n hmem.1 p hp (hwr.2 p (mem_cons_self ..)) hdis ht.2.1.symm
      rcases mem_cons.mp hd with rfl | hd
      · exact hn
      · -- the record after `n` is no older than it, so what was discarded before `n` was
        -- discarded before that one
        have hlt : n.place.offset < p.place.offset := by
          have hpos := (hs.gave n hmem.1).lt_stop
          have hf : p.place.offset = n.place.stop := ht.2.1
          omega
        have hep := (hs.later n hmem.1 p hp hlt).resolve_left hn
        rintro ⟨epoch, hby, hle⟩
        exact (pairwise_cons.mp hr).1 d hd ⟨epoch, hby, hle.trans hep⟩

omit hs in
theorem ReadFrom.append {o m e : Nat} {ps qs : List PlacedRecord}
    (hps : ReadFrom checks h disk o ps m) (hqs : ReadFrom checks h disk m qs e) :
    ReadFrom checks h disk o (ps ++ qs) e where
  tiles := by
    rw [map_append]
    exact tiles_append.mpr ⟨m, hps.tiles, hqs.tiles⟩
  mem p hp := (mem_append.mp hp).elim (hps.mem p) (hqs.mem p)
  written p hp := (mem_append.mp hp).elim (hps.written p) (hqs.written p)
  held p hp := (mem_append.mp hp).elim (hps.held p) (hqs.held p)

theorem exists_readFrom_synced (hc : CrashState h.log.file h.log.durable disk) :
    ∃ ps e, ReadFrom checks h disk log₀.file.length ps e ∧ h.log.durable ≤ e := by
  rcases hs.synced with hz | ⟨hf, hto, hall⟩
  · exact ⟨[], _, ⟨rfl, by simp, by simp, by simp⟩, hz ▸ Nat.zero_le _⟩
  · refine ⟨h.live.filter fun p => p.place.offset < h.log.durable, h.log.durable,
      ⟨?_, ?_, ?_, ?_⟩, le_rfl⟩
    · have hb := hs.tiles.below hs.lt_stop (fun q hq => ?_) (hs.stampLen_eq ▸ hf) hto
      · rwa [filter_map] at hb
      · obtain ⟨p, hp, rfl⟩ := mem_map.mp hq
        exact fun hlt => (hall p hp hlt).2
    all_goals
      intro p hp
      obtain ⟨hp, hlt⟩ := mem_filter.mp hp
      obtain ⟨hwr, hstop⟩ := hall p hp (by simpa using hlt)
      have hmem := (mem_live.mp hp).1
    · exact hmem
    · exact hwr
    · obtain ⟨record, hr⟩ := hs.finished p hmem hwr
      have hfin := (hs.finishRecord_eq p.place p.group.encode).trans hr
      refine ⟨record, hfin, (hs.held p hp hwr record hr).of_take_eq hc.keeps ?_⟩
      rw [length_finishRecord (hs.gave p hmem) hfin]
      exact hstop

/-- From any offset on, the file has records up to an offset where nothing verifies. -/
theorem exists_readFrom (ho : h.OnlyWritten checks disk) (o : Nat) : ∃
    ps e, ReadFrom checks h disk o ps e ∧ o ≤ e ∧
      verifiedAt checks h.log.sealing h.log.nonce disk e = none := by
  induction hr : disk.length - o using Nat.strong_induction_on generalizing o with
  | _ n ih =>
    cases hver : verifiedAt checks h.log.sealing h.log.nonce disk o with
    | none => exact ⟨[], o, ⟨rfl, by simp, by simp, by simp⟩, le_rfl, hver⟩
    | some found =>
      have hsome : (verifiedAt checks h.log.sealing h.log.nonce disk o).isSome := by
        rw [hver]
        rfl
      have hlt := lt_of_verifiedAt hsome
      obtain ⟨p, hp, hwr, rfl, hh⟩ := ho o hsome
      have hstop := (hs.gave p hp).lt_stop
      obtain ⟨ps, e, hps, hle, hn⟩ := ih (disk.length - p.place.stop) (by omega) _ rfl
      have hone : ReadFrom checks h disk p.place.offset [p] p.place.stop :=
        ⟨⟨rfl, rfl⟩, by simpa using hp, by simpa using hwr, by simpa using hh⟩
      exact ⟨[p] ++ ps, e, hone.append hps, by omega, hn⟩

omit hs in
theorem HeldBy.exists_record (hp : GaveTo h.log p) (hh : h.HeldBy checks disk p) : ∃ r :
    LogRecord, Holds disk p.place.offset (r.frame checks h.log.nonce p.place.offset) ∧
      (r.frame checks h.log.nonce p.place.offset).length = p.place.len ∧ r.ops = p.group.ops ∧
      r.header.kind = .group ∧ r.header.syncedThrough = p.place.syncedThrough ∧
      r.Written checks h.log.sealing h.log.nonce p.place.offset := by
  obtain ⟨record, hr, hhld⟩ := hh
  have hlen := length_finishRecord hp hr
  obtain ⟨r, rfl, hops, hk, hsyn, hwr⟩ := recordBytes_eq_ok
    (show RecordKind.group.Carries p.group.encode from mt encodeGroup_eq_nil.mp hp.ops_ne)
    hp.synced_le hp.offset_lt hr
  exact ⟨r, hhld, hlen, hops, hk, hsyn, hwr⟩

theorem ReadFrom.exists_records (hread : ReadFrom checks h disk o ps e) :
    ∃ rs : List LogRecord, endOf (frame checks h.log.nonce) o rs = e ∧
      (∀ q ∈ placed (frame checks h.log.nonce) o rs,
        q.2.Written checks h.log.sealing h.log.nonce q.1) ∧
      (∀ q ∈ placed (frame checks h.log.nonce) o rs, Intact (frame checks h.log.nonce) disk q) ∧
      (∀ r ∈ rs, r.header.kind = .group) ∧
      rs.flatMap entries = ps.flatMap (·.group.entries) := by
  obtain ⟨ht, hmem, -, hh⟩ := hread
  induction ps generalizing o with
  | nil => exact ⟨[], (endOf_nil o).trans ht, by simp [placed], by simp [placed], by simp, rfl⟩
  | cons p ps ih =>
    rw [forall_mem_cons] at hmem hh
    obtain ⟨rs, hend, hwr, hi, hg, he⟩ := ih ht.2 hmem.2 hh.2
    obtain ⟨r, hhld, hlen, hops, hk, -, hr⟩ := hh.1.exists_record (hs.gave p hmem.1)
    obtain rfl : p.place.offset = o := ht.1
    have hn : p.place.offset + (r.frame checks h.log.nonce p.place.offset).length =
        p.place.stop := by rw [hlen, Place.stop]
    refine ⟨r :: rs, ?_, ?_, ?_, ?_, ?_⟩
    · rw [endOf_cons, hn, hend]
    · rw [placed, hn, forall_mem_cons]
      exact ⟨hr, hwr⟩
    · rw [placed, hn, forall_mem_cons]
      exact ⟨hhld, hi⟩
    · rw [forall_mem_cons]
      exact ⟨hk, hg⟩
    · rw [flatMap_cons, flatMap_cons, he, entries, hops]
      rfl

theorem proofPast_of_onlyWritten {o : Nat}
    (ho : h.OnlyWritten checks disk) (hsyn : h.log.durable ≤ o) (start : Nat) :
    proofPast checks h.log.sealing h.log.nonce disk disk.length o start = none := by
  by_contra hsome
  obtain ⟨proves, hproof⟩ := Option.ne_none_iff_exists'.mp hsome
  obtain ⟨at_, -, htest⟩ := exists_of_proofPast hproof
  obtain ⟨header, ops, hver, hprv, hlt⟩ := verifiedAt_of_testAt htest
  obtain ⟨p, hp, -, rfl, hh⟩ := ho at_ (hver ▸ rfl)
  obtain ⟨r, hhld, -, -, hk, hclaim, hr⟩ := hh.exists_record (hs.gave p hp)
  rw [verifiedAt_of_holds hr hhld] at hver
  have hhdr : r.header = header := congrArg Prod.fst (Option.some.inj hver)
  have hle := (hs.gave p hp).claims_le
  rw [← hhdr, Header.proves_group hk, hclaim] at hprv
  omega

theorem stamp_or_prefix (hc : h.CrashesTo disk) : Holds disk 0 log₀.file ∨
      ¬ Holds disk 0 log₀.file ∧ h.log.durable = 0 ∧ disk <+: log₀.file := by
  refine or_iff_not_imp_left.mpr fun hnot => ⟨hnot, ?_⟩
  rcases hs.synced with hz | ⟨hf, -, -⟩
  · have hbyte : ∀ i, i < disk.length → i < log₀.file.length → log₀.file[i]? = disk[i]? := by
      intro i hdisk hstm
      obtain ⟨w, hw, hle, hat⟩ := hc.stale i hdisk (hz ▸ Nat.zero_le i)
      rcases hs.writes w hw with rfl | hpast
      · exact hat
      · omega
    rcases le_total log₀.file.length disk.length with hle | hle
    · refine absurd (holds_iff_getElem?.mpr fun i hi => ?_) hnot
      rw [Nat.zero_add, hbyte i (by omega) hi]
    · refine ⟨hz, prefix_iff_getElem?.mpr fun i hi => ?_⟩
      rw [hbyte i hi (by omega), getElem?_eq_getElem hi]
  · refine absurd (hs.stamp.of_take_eq hc.keeps.keeps ?_) hnot
    have hlen := hs.stampLen_eq
    omega

omit hs

/-- Every history from a fresh log is sound. -/
theorem sound_run {path : String} {nonce : UInt64} {aeadNonce : AeadNonce}
    {keyring : Option Keyring} {actions : List LogAction}
    (hcreate : Log.createIn checks path nonce aeadNonce keyring = .ok log₀)
    (hrun : run (step checks) (new log₀) actions = some h)
    (he : Along (step checks) EndsApart (new log₀) actions) : Sound checks log₀ h ∧ h.Apart := by
  obtain ⟨w, hw, hf, -, hsyn, -, hstm⟩ := Log.exists_wal_of_createIn hcreate
  have hdur : log₀.durable = 0 ∨ log₀.durable = log₀.file.length := by
    rw [← hsyn, ← hf]
    rcases Wal.createIn_cases hw with ⟨-, rfl⟩ | ⟨k, sealer, stamp, -, -, -, rfl⟩
    · exact .inl rfl
    · exact .inr rfl
  refine run_invariant (I := fun h => Sound checks log₀ h ∧ h.Apart)
    (fun s a s' hs ha hstep => ⟨hs.1.step hstep, hs.2.step hs.1 ha hstep⟩)
    ⟨sound_new hstm hdur, ?_⟩ he hrun
  exact nofun

end LogHistory

/-- A log created and then written, synced and rolled back, left by a crash with its synced
bytes and any bytes ever written past them. Where no record was placed to end at an offset
where a discarded one begins that had all reached the file, and nothing verifies but records
that reached it, replay succeeds and yields whole records, none of them discarded by a rollback
and read after a record that was written after that rollback. -/
theorem replayWal_of_rollbacks {checks : WalChecks} {path : String} {nonce : UInt64}
    {aeadNonce : AeadNonce} {keyring : Option Keyring} {log₀ : Log} {h : LogHistory}
    {actions : List LogAction} {disk : Bytes}
    (hcreate : Log.createIn checks path nonce aeadNonce keyring = .ok log₀)
    (hrun : run (LogHistory.step checks) (.new log₀) actions = some h)
    (hends : Along (LogHistory.step checks) LogHistory.EndsApart (.new log₀) actions)
    (hcrash : h.CrashesTo disk) (honly : h.OnlyWritten checks disk) :
    ∃ (ps : List PlacedRecord) (tail : Option TailVerdict),
      (∀ p ∈ ps, p ∈ h.places ∧ p.written = true) ∧
      replayWal checks path .newest keyring disk = .ok (ps.flatMap (·.group.entries), tail) ∧
      ps.Pairwise fun n d => ¬ d.DiscardedBefore n := by
  obtain ⟨hs, hapart⟩ := sound_run hcreate hrun hends
  obtain ⟨w, hw, hfile, hseal, hsyn, hnonce, -⟩ := Log.exists_wal_of_createIn hcreate
  rcases stamp_or_prefix hs hcrash with hstm | ⟨hheld, hzero, hpre⟩
  · obtain ⟨ps, m, hps, hm⟩ := exists_readFrom_synced hs hcrash.keeps
    obtain ⟨qs, e, hqs, hle, hnone⟩ := exists_readFrom hs honly m
    have hread := hps.append hqs
    obtain ⟨rs, rfl, hwr, hintact, hgrps, hents⟩ := hread.exists_records hs
    obtain ⟨tail, htail⟩ := drain_until hwr hintact hgrps (by simpa using hstm.length_le)
      hnone (proofPast_of_onlyWritten hs honly (hm.trans hle) _) path
    refine ⟨ps ++ qs, tail, fun p hp => ⟨hread.mem p hp, hread.written p hp⟩, ?_,
      hread.pairwise hs hapart⟩
    rw [replayWal_of_holds hw (hfile ▸ hstm), hfile, hseal, ← hs.sealing_eq, ← hnonce,
      ← hs.nonce_eq, htail, hents]
  · -- only a log that is not sealed begins with a stamp no sync covered
    have hpln : log₀.file = encodeStamp checks nonce := by
      rcases Wal.createIn_cases hw with ⟨-, rfl⟩ | ⟨k, sealer, stamp, -, -, hst, rfl⟩
      · exact hfile.symm
      · have hle := hs.durable_le
        rw [← hsyn, hzero, Nat.le_zero, length_eq_zero_iff] at hle
        exact absurd (hfile ▸ hle ▸ nil_prefix) hheld
    rw [hpln] at hpre hheld
    obtain ⟨tail, htail⟩ := replayWal_unstamped (.inr (.inl hpre)) hheld path keyring
    exact ⟨[], tail, by simp, htail, .nil⟩

def putGroup (value : UInt8) (seq : Seq) : Group :=
  ⟨[(.put [1] [value], seq)], samplePut_fits value seq⟩

def plainLog : Log :=
  ⟨encodeStamp sampleChecks 5, "wal_000001.log", 5, none, 24, 0, false, 0, false, none⟩

/-- Two records are written and their sync fails; the rollback discards both, and a record as
long as the first is written where it was. -/
def staleActions : List LogAction :=
  [.place (putGroup 2 1) sampleAeadNonce, .place (putGroup 3 2) sampleAeadNonce, .write 0 none,
    .write 1 none, .sync 104 ⟨some ⟨.other, "fsync"⟩, none⟩, .rollback 24,
    .place (putGroup 4 1) sampleAeadNonce, .write 2 none]

def staleHistory : LogHistory :=
  (run (LogHistory.step sampleChecks) (.new plainLog) staleActions).getD (.new plainLog)

/-- The new record, and behind it the second of the two that were discarded. -/
def staleDisk : Bytes := staleHistory.log.file ++ (staleHistory.writes.getD 2 (0, [])).2

theorem onlyWritten_of_forall_lt {checks : WalChecks} {h : LogHistory} {disk : Bytes}
    (hall : ∀ o < disk.length, (verifiedAt checks h.log.sealing h.log.nonce disk o).isSome →
      ∃ p ∈ h.places, p.written = true ∧ p.place.offset = o ∧ h.HeldBy checks disk p) :
    h.OnlyWritten checks disk :=
  fun o ho => hall o (lt_of_verifiedAt ho) ho

/-- Replay yields the new record and behind it the discarded one, whatever records the
entries are read as. -/
theorem replayWal_stale :
    Log.createIn sampleChecks "wal_000001.log" 5 sampleAeadNonce none = .ok plainLog ∧
    run (LogHistory.step sampleChecks) (.new plainLog) staleActions = some staleHistory ∧
    staleHistory.CrashesTo staleDisk ∧ staleHistory.OnlyWritten sampleChecks staleDisk ∧
    replayWal sampleChecks "wal_000001.log" .newest none staleDisk =
      .ok ([.put [1] [4] 1, .put [1] [3] 2], none) ∧
    ¬ ∃ (ps : List PlacedRecord) (tail : Option TailVerdict),
      (∀ p ∈ ps, p ∈ staleHistory.places ∧ p.written = true) ∧
      replayWal sampleChecks "wal_000001.log" .newest none staleDisk =
        .ok (ps.flatMap (·.group.entries), tail) ∧
      ps.Pairwise fun n d => ¬ d.DiscardedBefore n := by
  have hrpl : replayWal sampleChecks "wal_000001.log" .newest none staleDisk =
    .ok ([.put [1] [4] 1, .put [1] [3] 2], none) := by decide +kernel
  refine ⟨rfl, rfl, by decide +kernel, onlyWritten_of_forall_lt (by decide +kernel), hrpl, ?_⟩
  rintro ⟨ps, tail, hmem, hps, hpairs⟩
  have hone : ∀ p ∈ staleHistory.places, p.group.entries.length = 1 := by decide +kernel
  have hnew : ∀ p ∈ staleHistory.places, p.group.entries = [.put [1] [4] 1] → p.place.epoch = 1 := by
    decide +kernel
  have hold : ∀ p ∈ staleHistory.places, p.group.entries = [.put [1] [3] 2] →
      p.discardedBy = some 1 := by decide +kernel
  rw [hrpl, Except.ok.injEq, Prod.mk.injEq] at hps
  match ps, hmem, hps, hpairs with
  | [], _, hps, _ => cases hps.1
  | [p], hmem, hps, _ =>
    have hlen := congrArg List.length hps.1
    simp [hone p (hmem p (by simp)).1] at hlen
  | n :: d :: rest, hmem, hps, hpairs =>
    have hn := (hmem n (by simp)).1
    have hd := (hmem d (by simp)).1
    obtain ⟨first, hfst⟩ := length_eq_one_iff.mp (hone n hn)
    obtain ⟨second, hsecond⟩ := length_eq_one_iff.mp (hone d hd)
    have hents := hps.1
    rw [flatMap_cons, flatMap_cons, hfst, hsecond] at hents
    obtain ⟨rfl, hrest⟩ := List.cons.inj hents
    obtain ⟨rfl, -⟩ := List.cons.inj hrest
    refine (pairwise_cons.mp hpairs).1 d (by simp) ⟨1, hold d hd hsecond, ?_⟩
    rw [hnew n hn hfst]

/-- The same, with a record of another length after the rollback. -/
def apartActions : List LogAction :=
  staleActions.take 6 ++ [.place ⟨[(.delete [1], 1)], by decide⟩ sampleAeadNonce, .write 2 none]

def apartHistory : LogHistory :=
  (run (LogHistory.step sampleChecks) (.new plainLog) apartActions).getD (.new plainLog)

/-- The new record, and behind it what it left of the discarded ones. -/
def apartDisk : Bytes :=
  apartHistory.log.file ++ ((apartHistory.writes.getD 1 (0, [])).2.drop 35 ++
    (apartHistory.writes.getD 2 (0, [])).2)

/-- The record of another length. -/
theorem replayWal_of_rollbacks_apart : apartHistory.CrashesTo apartDisk ∧ ∃ (ps : List PlacedRecord)
    (tail : Option TailVerdict),
      (∀ p ∈ ps, p ∈ apartHistory.places ∧ p.written = true) ∧
      replayWal sampleChecks "wal_000001.log" .newest none apartDisk =
        .ok (ps.flatMap (·.group.entries), tail) ∧
      ps.Pairwise fun n d => ¬ d.DiscardedBefore n := by
  have hcreate : Log.createIn sampleChecks "wal_000001.log" 5 sampleAeadNonce none = .ok plainLog :=
    rfl
  have hcrs : apartHistory.CrashesTo apartDisk := by decide +kernel
  have hends : Along (LogHistory.step sampleChecks) LogHistory.EndsApart (.new plainLog)
    apartActions := by decide +kernel
  exact ⟨hcrs, replayWal_of_rollbacks hcreate rfl hends hcrs
    (onlyWritten_of_forall_lt (by decide +kernel))⟩

end RegolithStore
