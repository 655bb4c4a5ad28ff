import Mathlib.Data.List.Nodup
import RegolithStore.Lib.Tiling
import RegolithStore.Wal.Writer

/-! The positional log (`wal_log.rs`, `Log`). A commit's record is given its place when the
commit is decided, and any thread may write it there, more than once. A sync covers a
prefix of written records; a rollback turns away the writes of the epoch before it and cuts
the file at an offset no sync covered, and later records are placed from there. Records of
one log that are not discarded lie one after the other, and the file holds every one of
them that was written. -/

namespace RegolithStore

open Lib List

/-- Where a record goes, and what frames it besides. -/
structure RecordPlace extends Place where
  syncedThrough : Nat
  nonce : AeadNonce

structure Log where
  /-- The bytes handed to the host. -/
  file : Bytes
  path : String
  nonce : UInt64
  sealing : Option Sealer
  stampLen : Nat
  durable : Nat
  parentSynced : Bool
  /-- The write epoch the gate lets in. -/
  epoch : Nat
  poisoned : Bool
  failure : Option IoError

variable {log : Log}

namespace Log

variable (checks : WalChecks)

/-- `create_in`, where every host call succeeds. A sealed log's stamp is durable at once. -/
def createIn (path : String) (nonce : UInt64) (aeadNonce : AeadNonce) :
    Option Keyring → Except IoError Log
  | some keyring => do
    let sealer ← keyring.current
    let stamp ← encodeSealedStamp checks nonce sealer aeadNonce
    pure ⟨stamp, path, nonce, some sealer, stamp.length, stamp.length, true, 0, false, none⟩
  | none =>
    let stamp := encodeStamp checks nonce
    .ok ⟨stamp, path, nonce, none, stamp.length, 0, false, 0, false, none⟩

def framedLen (log : Log) (payloadLen : Nat) : Nat :=
  headerLen + payloadLen + if log.sealing.isSome then overhead else 0

def place (log : Log) (offset payloadLen epoch : Nat) (nonce : AeadNonce) : RecordPlace :=
  ⟨⟨offset, log.framedLen payloadLen, epoch⟩, min log.durable offset, nonce⟩

/-- `finish_record`: the bytes of the record at its place. -/
def finishRecord (log : Log) (kind : RecordKind) (place : RecordPlace) (payload : Bytes) :
    Except IoError Bytes :=
  recordBytes checks log.sealing kind payload place.syncedThrough log.nonce place.offset place.nonce

/-- `write_record`: nothing is written once a rollback moved the epoch. -/
def writeRecord (log : Log) (place : RecordPlace) (record : Bytes) (fault : Option WriteFault) :
    Except IoError Bool × Log :=
  if place.epoch ≠ log.epoch then (.ok false, log)
  else
    let log := { log with file := writeAt log.file place.offset (Lib.landedOf record fault) }
    match fault with
    | none => (.ok true, log)
    | some fault => (.error fault.error, log)

/-- Only a sync that completes moves the durable offset. -/
def syncThrough (log : Log) (through : Nat) (faults : SyncFaults) : Except IoError Unit × Log :=
  if log.poisoned then
    (.error ⟨.other, "the write-ahead log failed and its unfinished commits are being " ++
      "discarded"⟩, log)
  else
    match hostCall faults.file with
    | .error e => (.error e, log)
    | .ok () =>
      match if log.parentSynced then .ok () else hostCall faults.parent with
      | .error e => (.error e, log)
      | .ok () => (.ok (), { log with parentSynced := true, durable := max log.durable through })

/-- The first failure is the one kept. -/
def poison (log : Log) (e : IoError) : Log :=
  if log.poisoned then log else { log with poisoned := true, failure := some e }

/-- Cut the log back to `offset` and move it on to `epoch`: what poisoned it, and how the
cut went. -/
def rollbackTo (log : Log) (offset epoch : Nat) (fault : Option IoError) :
    (Option IoError × Except IoError Unit) × Log :=
  let moved := { log with epoch, failure := none }
  match hostCall fault with
  | .error e => ((log.failure, .error e), moved)
  | .ok () => ((log.failure, .ok ()), { moved with
      file := log.file.take offset, poisoned := false })

theorem syncThrough_cases (log : Log) (through : Nat) (faults : SyncFaults) :
    (∃ e, log.syncThrough through faults = (.error e, log)) ∨
      log.syncThrough through faults =
        (.ok (), { log with parentSynced := true, durable := max log.durable through }) := by
  rw [syncThrough]
  by_cases hpoisoned : log.poisoned
  · exact .inl ⟨_, if_pos hpoisoned⟩
  rw [if_neg hpoisoned]
  cases hostCall faults.file with
  | error e => exact .inl ⟨e, rfl⟩
  | ok _ =>
    cases hparent : (if log.parentSynced then .ok () else hostCall faults.parent) with
    | error e => exact .inl ⟨e, by simp⟩
    | ok _ => exact .inr (by simp)

theorem exists_wal_of_createIn {checks : WalChecks} {path : String} {nonce : UInt64}
    {aeadNonce : AeadNonce} {keyring : Option Keyring}
    (h : createIn checks path nonce aeadNonce keyring = .ok log) :
    ∃ w, Wal.createIn checks path nonce aeadNonce keyring = .ok w ∧ w.file = log.file ∧
      w.sealing = log.sealing ∧ w.syncedThrough = log.durable ∧ log.nonce = nonce ∧
      log.stampLen = log.file.length := by
  cases keyring with
  | none =>
    cases h
    exact ⟨_, rfl, rfl, rfl, rfl, rfl, rfl⟩
  | some keyring =>
    simp only [createIn, Wal.createIn, bind, Except.bind, pure, Except.pure] at h ⊢
    cases hcur : keyring.current with
    | error e => simp [hcur] at h
    | ok sealer =>
      cases hstm : encodeSealedStamp checks nonce sealer aeadNonce with
      | error e => simp [hcur, hstm] at h
      | ok stamp =>
        simp only [hcur, hstm, Except.ok.injEq] at h ⊢
        subst h
        exact ⟨_, rfl, rfl, rfl, rfl, rfl, rfl⟩

end Log

/-! ### Histories of one log -/

/-- A record that was given a place, and what became of it: whether all of it reached the file,
and the epoch the rollback that discarded it moved to. -/
structure PlacedRecord where
  place : RecordPlace
  group : Group
  written : Bool
  discardedBy : Option Nat

variable (cut epoch : Nat)

namespace PlacedRecord

/-- The record was discarded by a rollback, and `n` is of an epoch no earlier than the one
that rollback moved to: it was placed and written after it. -/
def DiscardedBefore (d n : PlacedRecord) : Prop :=
  ∃ epoch, d.discardedBy = some epoch ∧ epoch ≤ n.place.epoch

def discardAt (p : PlacedRecord) : PlacedRecord :=
  if p.discardedBy = none ∧ cut ≤ p.place.offset then { p with discardedBy := some epoch } else p

instance (d n : PlacedRecord) : Decidable (d.DiscardedBefore n) :=
  decidable_of_iff (∃ epoch ∈ d.discardedBy, epoch ≤ n.place.epoch) Iff.rfl

end PlacedRecord

/-- A log, the offset its next record is placed at, every record placed in it and every
write the host took, oldest first. -/
structure LogHistory where
  log : Log
  nextOff : Nat
  places : List PlacedRecord
  writes : List (Nat × Bytes)

inductive LogAction
  | place (group : Group) (nonce : AeadNonce)
  | write (index : Nat) (fault : Option WriteFault)
  | sync (through : Nat) (faults : SyncFaults)
  | rollback (cut : Nat)

namespace LogHistory

variable (checks : WalChecks) {p : PlacedRecord}

def new (log : Log) : LogHistory := ⟨log, log.stampLen, [], [(0, log.file)]⟩

def live (h : LogHistory) : List PlacedRecord := h.places.filter (·.discardedBy.isNone)

/-- `through` ends a prefix of records that are all written. -/
def WrittenThrough (h : LogHistory) (through : Nat) : Prop :=
  h.log.stampLen ≤ through ∧ through ≤ h.nextOff ∧
    ∀ p ∈ h.live, p.place.offset < through → p.written = true ∧ p.place.stop ≤ through

/-- `cut` is where the discarded records begin: past the stamp and what was synced, and
inside none. -/
def CutsAt (h : LogHistory) (cut : Nat) : Prop :=
  h.log.stampLen ≤ cut ∧ h.log.durable ≤ cut ∧ cut ≤ h.nextOff ∧
    ∀ p ∈ h.live, p.place.offset < cut → p.place.stop ≤ cut

instance (h : LogHistory) (through : Nat) : Decidable (h.WrittenThrough through) :=
  inferInstanceAs (Decidable (_ ∧ _ ∧ _))

instance (h : LogHistory) (cut : Nat) : Decidable (h.CutsAt cut) :=
  inferInstanceAs (Decidable (_ ∧ _ ∧ _ ∧ _))

def nextPlace (h : LogHistory) (group : Group) (nonce : AeadNonce) : RecordPlace :=
  h.log.place h.nextOff group.encode.length h.log.epoch nonce

def placeNext (h : LogHistory) (group : Group) (nonce : AeadNonce) : LogHistory :=
  let place := h.nextPlace group nonce
  { h with nextOff := place.stop, places := h.places ++ [⟨place, group, false, none⟩] }

/-- The record `p`, the `index`th, is handed to the host, and a failure poisons the log, also
where all of the record had landed. -/
def hand (h : LogHistory) (index : Nat) (p : PlacedRecord) (record : Bytes)
    (fault : Option WriteFault) : LogHistory :=
  if p.place.epoch ≠ h.log.epoch then h
  else
    let writes := h.writes ++ [(p.place.offset, Lib.landedOf record fault)]
    let log := (h.log.writeRecord p.place record fault).2
    let places := if Lib.landedOf record fault = record then
      h.places.set index { p with written := true } else h.places
    match fault with
    | none => { h with log, writes, places }
    | some fault => { h with log := log.poison fault.error, writes, places }

def discard (h : LogHistory) (cut : Nat) : LogHistory :=
  let epoch := h.log.epoch + 1
  { h with
    log := (h.log.rollbackTo cut epoch none).2
    nextOff := cut
    places := h.places.map (PlacedRecord.discardAt cut epoch) }

/-- One step of a history. Offsets are `u64`: none is placed that ends past them. -/
def step (h : LogHistory) : LogAction → Option LogHistory
  | .place group nonce =>
    if group.ops ≠ [] ∧ (h.nextPlace group nonce).stop < 2 ^ 64 then some (h.placeNext group nonce)
    else none
  | .write index fault =>
    h.places[index]?.map fun p =>
      match h.log.finishRecord checks .group p.place p.group.encode with
      | .error e => { h with log := h.log.poison e }
      | .ok record => h.hand index p record fault
  | .sync through faults =>
    if h.WrittenThrough through then
      match h.log.syncThrough through faults with
      | (.ok (), log) => some { h with log }
      | (.error e, log) => some { h with log := log.poison e }
    else none
  | .rollback cut => if h.CutsAt cut then some (h.discard cut) else none

/-! ### What a history keeps -/

/-- A record's place is one the log gave it, and its epochs are ones the log has seen. -/
structure GaveTo (log : Log) (p : PlacedRecord) : Prop where
  start_le : log.stampLen ≤ p.place.offset
  len_eq : p.place.len = log.framedLen p.group.encode.length
  offset_lt : p.place.offset < 2 ^ 64
  claims_le : p.place.syncedThrough ≤ log.durable
  synced_le : p.place.syncedThrough ≤ p.place.offset
  ops_ne : p.group.ops ≠ []
  epoch_le : p.place.epoch ≤ log.epoch
  discarded : ∀ epoch, p.discardedBy = some epoch → p.place.epoch < epoch ∧ epoch ≤ log.epoch

theorem GaveTo.lt_stop (h : GaveTo log p) : p.place.offset < p.place.stop := by
  have hlen := h.len_eq
  rw [Log.framedLen, headerLen] at hlen
  rw [Place.stop]
  omega

/-- The records that are not discarded lie one after the other from the stamp on, the file
holds the stamp and every one of them that was written, and a sync covered a prefix of
written ones. -/
structure Sound (log₀ : Log) (h : LogHistory) : Prop where
  sealing_eq : h.log.sealing = log₀.sealing
  nonce_eq : h.log.nonce = log₀.nonce
  stampLen_eq : h.log.stampLen = log₀.file.length
  stamp : Holds h.log.file 0 log₀.file
  writes : ∀ w ∈ h.writes, w = (0, log₀.file) ∨ log₀.file.length ≤ w.1
  tiles : Tiles Place.offset Place.stop log₀.file.length (h.live.map (·.place.toPlace)) h.nextOff
  gave : ∀ p ∈ h.places, GaveTo h.log p
  finished : ∀ p ∈ h.places, p.written = true →
    ∃ record, log₀.finishRecord checks .group p.place p.group.encode = .ok record
  held : ∀ p ∈ h.live, p.written = true → ∀ record,
    log₀.finishRecord checks .group p.place p.group.encode = .ok record →
      Holds h.log.file p.place.offset record
  synced : h.log.durable = 0 ∨ h.WrittenThrough h.log.durable
  durable_le : log₀.durable ≤ h.log.durable
  /-- What lies past a record was discarded before it was placed, or is no older. -/
  later : ∀ n ∈ h.places, ∀ p ∈ h.places, n.place.offset < p.place.offset →
    p.DiscardedBefore n ∨ n.place.epoch ≤ p.place.epoch

variable {checks} {log₀ : Log} {h h' : LogHistory} {record : Bytes}

theorem mem_live : p ∈ h.live ↔ p ∈ h.places ∧ p.discardedBy = none := by
  rw [live, mem_filter, Option.isNone_iff_eq_none]

theorem places_live (h : LogHistory) : h.live.map (·.place.toPlace) =
      ((h.places.map fun p => (p.place.toPlace, p.discardedBy)).filter (·.2.isNone)).map (·.1) := by
  rw [filter_map, map_map, live]
  rfl

theorem discardAt_eq (p : PlacedRecord) : p.discardAt cut epoch = p ∨
      p.discardAt cut epoch = { p with discardedBy := some epoch } ∧ p.discardedBy = none := by
  rw [PlacedRecord.discardAt]
  split_ifs with hcut
  · exact .inr ⟨rfl, hcut.1⟩
  · exact .inl rfl

@[simp] theorem place_discardAt (p : PlacedRecord) : (p.discardAt cut epoch).place = p.place := by
  rcases discardAt_eq cut epoch p with heq | ⟨heq, -⟩ <;> rw [heq]

theorem isNone_discardAt (p : PlacedRecord) : (p.discardAt cut epoch).discardedBy.isNone =
      (p.discardedBy.isNone && decide (p.place.offset < cut)) := by
  rw [PlacedRecord.discardAt]
  split_ifs with hcut
  · simp [hcut.2]
  · cases hd : p.discardedBy with
    | none => simpa [hd] using hcut
    | some epoch => simp

theorem live_discard (h : LogHistory) (cut : Nat) :
    (h.discard cut).live = h.live.filter fun p => p.place.offset < cut := by
  have hf : (h.discard cut).live = (h.live.filter fun p => p.place.offset < cut).map
        (PlacedRecord.discardAt cut (h.log.epoch + 1)) := by
    rw [live, live, filter_filter, discard, filter_map]
    refine congrArg _ (filter_congr fun p _ => ?_)
    rw [Function.comp_apply, isNone_discardAt, Bool.and_comm]
  rw [hf]
  refine (map_congr_left fun p hp => ?_).trans (map_id _)
  exact if_neg fun h => not_lt.mpr h.2 (by simpa using (mem_filter.mp hp).2)

theorem length_finishRecord (hp : GaveTo log p)
    (hr : log.finishRecord checks .group p.place p.group.encode = .ok record) :
    record.length = p.place.len := by
  rw [hp.len_eq, Log.framedLen]
  rw [Log.finishRecord] at hr
  cases hsealing : log.sealing with
  | none =>
    rw [hsealing, recordBytes, Except.ok.injEq] at hr
    rw [← hr, encodeHeader]
    simp
  | some sealer =>
    rw [hsealing, recordBytes, frameRecord] at hr
    split_ifs at hr with hlarge
    cases hseal : sealer.sealFrame p.place.nonce (recordAad log.nonce p.place.offset
        (sealedHeader .group p.group.encode p.place.syncedThrough).fields) p.group.encode with
    | error e => simp [hseal, Except.map] at hr
    | ok body =>
      simp only [hseal, Except.map, Except.ok.injEq] at hr
      rw [← hr, length_append, Header.length_encode, Sealer.length_sealFrame hseal]
      simp [Nat.add_assoc]

theorem GaveTo.mono {log log' : Log} (hp : GaveTo log p) (hstm : log'.stampLen = log.stampLen)
    (hseal : log'.sealing = log.sealing) (hdur : log.durable ≤ log'.durable)
    (hep : log.epoch ≤ log'.epoch) : GaveTo log' p where
  start_le := hstm ▸ hp.start_le
  len_eq := by rw [hp.len_eq, Log.framedLen, Log.framedLen, hseal]
  offset_lt := hp.offset_lt
  claims_le := hp.claims_le.trans hdur
  synced_le := hp.synced_le
  ops_ne := hp.ops_ne
  epoch_le := hp.epoch_le.trans hep
  discarded epoch he := ⟨(hp.discarded epoch he).1, (hp.discarded epoch he).2.trans hep⟩

theorem sound_new (hstm : log₀.stampLen = log₀.file.length)
    (hdur : log₀.durable = 0 ∨ log₀.durable = log₀.file.length) : Sound checks log₀ (new log₀) where
  sealing_eq := rfl
  nonce_eq := rfl
  stampLen_eq := hstm
  stamp := prefix_refl _
  writes w hw := .inl (mem_singleton.mp hw)
  tiles := hstm.symm
  gave p hp := by cases hp
  finished p hp := by cases hp
  held p hp := by cases hp
  synced := hdur.imp_right fun hd =>
    ⟨(hstm.trans hd.symm).le, (hd.trans hstm.symm).le, nofun⟩
  durable_le := le_rfl
  later n hn := by cases hn

namespace Sound

variable {p : PlacedRecord}

section

variable (hs : Sound checks log₀ h) {index : Nat}

include hs

theorem lt_stop : ∀ q ∈ h.live.map (·.place.toPlace), Place.offset q < Place.stop q := by
  intro q hq
  obtain ⟨r, hr, rfl⟩ := mem_map.mp hq
  exact (hs.gave r (mem_live.mp hr).1).lt_stop

theorem apart {p q : PlacedRecord} (hp : p ∈ h.live) (hq : q ∈ h.live) :
    p = q ∨ p.place.stop ≤ q.place.offset ∨ q.place.stop ≤ p.place.offset := by
  by_cases heq : p.place.toPlace = q.place.toPlace
  · exact .inl (inj_on_of_nodup_map (hs.tiles.nodup hs.lt_stop) hp hq heq)
  · exact .inr (hs.tiles.apart hs.lt_stop (mem_map_of_mem hp) (mem_map_of_mem hq) heq)

theorem finishRecord_eq (place : RecordPlace) (payload : Bytes) :
    h.log.finishRecord checks .group place payload =
      log₀.finishRecord checks .group place payload := by
  rw [Log.finishRecord, Log.finishRecord, hs.sealing_eq, hs.nonce_eq]

theorem poison (e : IoError) :
    Sound checks log₀ { h with log := h.log.poison e } := by
  rw [Log.poison]
  split_ifs with hpoisoned
  · exact hs
  · exact { hs with gave := fun p hp => (hs.gave p hp).mono rfl rfl le_rfl le_rfl }

/-- A record is placed after the others. -/
theorem placeNext {group : Group} {nonce : AeadNonce} (hops : group.ops ≠ []) (hsize : (h.nextPlace group nonce).stop < 2 ^ 64) :
    Sound checks log₀ (h.placeNext group nonce) := by
  set new : PlacedRecord := ⟨h.nextPlace group nonce, group, false, none⟩ with hnew
  have hmem : ∀ p, p ∈ (h.placeNext group nonce).places ↔ p ∈ h.places ∨ p = new := by
    intro p
    simp [LogHistory.placeNext, hnew]
  have hl : (h.placeNext group nonce).live = h.live ++ [new] := by
    simp [live, LogHistory.placeNext, hnew]
  have hnext : log₀.file.length ≤ h.nextOff := hs.tiles.le hs.lt_stop
  refine { hs with tiles := ?_, gave := ?_, finished := ?_, held := ?_, synced := ?_, later := ?_ }
  · rw [hl, map_append]
    exact tiles_concat.mpr ⟨hs.tiles, rfl⟩
  · intro p hp
    rcases (hmem p).mp hp with hp | rfl
    · exact hs.gave p hp
    · refine ⟨hs.stampLen_eq ▸ hnext, rfl, ?_, min_le_left .., min_le_right .., hops, le_rfl, ?_⟩
      · exact lt_of_le_of_lt (Nat.le_add_right ..) hsize
      · rintro epoch ⟨⟩
  · intro p hp hwr
    rcases (hmem p).mp hp with hp | rfl
    · exact hs.finished p hp hwr
    · cases hwr
  · intro p hp hwr
    rw [hl, mem_append, mem_singleton] at hp
    rcases hp with hp | rfl
    · exact hs.held p hp hwr
    · cases hwr
  · refine hs.synced.imp_right fun ⟨hf, hto, hall⟩ => ⟨hf, hto.trans ?_, ?_⟩
    · exact Nat.le_add_right ..
    · intro p hp hlt
      rw [hl, mem_append, mem_singleton] at hp
      rcases hp with hp | rfl
      · exact hall p hp hlt
      · exact absurd hlt hto.not_gt
  · intro n hn p hp hlt
    rcases (hmem n).mp hn with hn | rfl <;> rcases (hmem p).mp hp with hp | rfl
    · exact hs.later n hn p hp hlt
    · exact .inr (hs.gave n hn).epoch_le
    · -- a record past the place given now is one a rollback discarded
      cases hd : p.discardedBy with
      | none =>
        have hstop := (hs.tiles.bounds hs.lt_stop (mem_map_of_mem (mem_live.mpr ⟨hp, hd⟩))).2
        have hpos := (hs.gave p hp).lt_stop
        have hoff : new.place.offset = h.nextOff := rfl
        omega
      | some epoch => exact .inl ⟨epoch, hd, ((hs.gave p hp).discarded epoch hd).2⟩
    · exact absurd hlt (lt_irrefl _)

/-- A whole or a torn write of a record in the epoch it was placed in: the file after it
holds what it held of the stamp and the live records. -/
theorem holds_hand {record data : Bytes} (hp : p ∈ h.live)
    (hr : log₀.finishRecord checks .group p.place p.group.encode = .ok record)
    (hdata : data <+: record) : Holds (writeAt h.log.file p.place.offset data) 0 log₀.file ∧
      ∀ q ∈ h.live, q.written = true → ∀ bytes,
        log₀.finishRecord checks .group q.place q.group.encode = .ok bytes →
          Holds (writeAt h.log.file p.place.offset data) q.place.offset bytes := by
  have hgave := hs.gave p (mem_live.mp hp).1
  have hlen := length_finishRecord hgave (hs.finishRecord_eq .. ▸ hr)
  have hdataLen := hdata.length_le
  refine ⟨hs.stamp.writeAt (.inl ?_), fun q hq hwr bytes hb => ?_⟩
  · have hstrt := hgave.start_le
    have hstm := hs.stampLen_eq
    omega
  · have hh := hs.held q hq hwr bytes hb
    have hqlen := length_finishRecord (hs.gave q (mem_live.mp hq).1) (hs.finishRecord_eq .. ▸ hb)
    rcases hs.apart hp hq with rfl | hapart
    · obtain rfl : record = bytes := Except.ok.inj (hr.symm.trans hb)
      exact hh.rewrite hdata
    · refine hh.writeAt ?_
      simp only [Place.stop] at hapart
      omega

theorem live_of_epoch (hp : p ∈ h.places) (hep : p.place.epoch = h.log.epoch) : p ∈ h.live := by
  refine mem_live.mpr ⟨hp, Option.eq_none_iff_forall_ne_some.mpr fun epoch hd => ?_⟩
  have hlt := (hs.gave p hp).discarded epoch hd
  omega

theorem mark (hp : h.places[index]? = some p) (hl : p ∈ h.live)
    (hr : log₀.finishRecord checks .group p.place p.group.encode = .ok record)
    (hhld : Holds h.log.file p.place.offset record) :
    Sound checks log₀ { h with places := h.places.set index { p with written := true } } := by
  set h' : LogHistory := { h with places := h.places.set index { p with written := true } } with hh'
  have hmem : ∀ q ∈ h'.places, q ∈ h.places ∨ q = { p with written := true } := fun q hq =>
    mem_or_eq_of_mem_set hq
  have hold : ∀ q ∈ h'.places, ∃ r ∈ h.places,
      r.place = q.place ∧ r.group = q.group ∧ r.discardedBy = q.discardedBy := by
    intro q hq
    rcases hmem q hq with hq | rfl
    · exact ⟨q, hq, rfl, rfl, rfl⟩
    · exact ⟨p, mem_of_getElem? hp, rfl, rfl, rfl⟩
  have hplaces : h'.live.map (·.place.toPlace) = h.live.map (·.place.toPlace) := by
    obtain ⟨hlt, hget⟩ := List.getElem?_eq_some_iff.mp hp
    have hset : (h.places.map fun p => (p.place.toPlace, p.discardedBy)).set index
        (p.place.toPlace, p.discardedBy) = h.places.map fun p => (p.place.toPlace, p.discardedBy) := by
      rw [← hget, ← getElem_map (fun p : PlacedRecord => (p.place.toPlace, p.discardedBy)) (h := by simpa)]
      exact set_getElem_self _
    rw [places_live, places_live, hh', map_set, hset]
  have hliveOf : ∀ q ∈ h'.live, q ∈ h.live ∨ q = { p with written := true } := by
    intro q hq
    obtain ⟨hq, hd⟩ := mem_live.mp hq
    exact (hmem q hq).imp_left fun hq => mem_live.mpr ⟨hq, hd⟩
  refine { hs with
    tiles := hplaces ▸ hs.tiles, gave := ?_, finished := ?_, held := ?_, synced := ?_, later := ?_ }
  · intro q hq
    rcases hmem q hq with hq | rfl
    · exact hs.gave q hq
    · have hgave := hs.gave p (mem_live.mp hl).1
      exact ⟨hgave.start_le, hgave.len_eq, hgave.offset_lt, hgave.claims_le, hgave.synced_le,
        hgave.ops_ne, hgave.epoch_le, hgave.discarded⟩
  · intro q hq hwr
    rcases hmem q hq with hq | rfl
    · exact hs.finished q hq hwr
    · exact ⟨record, hr⟩
  · intro q hq hwr bytes hb
    rcases hliveOf q hq with hq | rfl
    · exact hs.held q hq hwr bytes hb
    · obtain rfl : record = bytes := Except.ok.inj (hr.symm.trans hb)
      exact hhld
  · refine hs.synced.imp_right fun ⟨hf, hto, hall⟩ => ⟨hf, hto, fun q hq hlt => ?_⟩
    rcases hliveOf q hq with hq | rfl
    · exact hall q hq hlt
    · exact ⟨rfl, (hall p hl hlt).2⟩
  · intro n hn q hq hlt
    obtain ⟨n', hn', hnplace, -, -⟩ := hold n hn
    obtain ⟨q', hq', hqplace, -, hqd⟩ := hold q hq
    rw [PlacedRecord.DiscardedBefore, ← hqd, ← hnplace, ← hqplace]
    rw [← hnplace, ← hqplace] at hlt
    exact hs.later n' hn' q' hq' hlt

/-- The host takes the record, or part of it. -/
theorem hand {fault : Option WriteFault} (hp : h.places[index]? = some p)
    (hr : log₀.finishRecord checks .group p.place p.group.encode = .ok record) :
    Sound checks log₀ (h.hand index p record fault) := by
  rw [LogHistory.hand]
  by_cases hep : p.place.epoch ≠ h.log.epoch
  · rw [if_pos hep]
    exact hs
  rw [if_neg hep]
  rw [not_not] at hep
  have hmem := mem_of_getElem? hp
  obtain ⟨hstm, hh⟩ := hs.holds_hand (hs.live_of_epoch hmem hep) hr ( landedOf_prefix record fault)
  have hlog : (h.log.writeRecord p.place record fault).2 =
      { h.log with file := writeAt h.log.file p.place.offset (Lib.landedOf record fault) } := by
    rw [Log.writeRecord, if_neg (not_not.mpr hep)]
    cases fault <;> rfl
  have hws : ∀ w ∈ h.writes ++ [(p.place.offset, Lib.landedOf record fault)],
      w = (0, log₀.file) ∨ log₀.file.length ≤ w.1 := by
    intro w hw
    rw [mem_append, mem_singleton] at hw
    rcases hw with hw | rfl
    · exact hs.writes w hw
    · exact .inr (hs.stampLen_eq ▸ (hs.gave p hmem).start_le)
  have htorn : Sound checks log₀ { h with
      log := { h.log with file := writeAt h.log.file p.place.offset (Lib.landedOf record fault) }
      writes := h.writes ++ [(p.place.offset, Lib.landedOf record fault)] } :=
    { hs with
      stamp := hstm
      writes := hws
      gave := fun q hq => (hs.gave q hq).mono rfl rfl le_rfl le_rfl
      held := hh }
  have hmarked : Sound checks log₀ { h with
      log := { h.log with file := writeAt h.log.file p.place.offset (Lib.landedOf record fault) }
      writes := h.writes ++ [(p.place.offset, Lib.landedOf record fault)]
      places := if Lib.landedOf record fault = record then
        h.places.set index { p with written := true } else h.places } := by
    split_ifs with hwhl
    · refine htorn.mark hp (hs.live_of_epoch hmem hep) hr ?_
      rw [hwhl]
      exact holds_writeAt
    · exact htorn
  cases fault with
  | some fault =>
    simp only [hlog]
    exact hmarked.poison fault.error
  | none =>
    simp only [hlog]
    exact hmarked

theorem sync {through : Nat} (hwr : h.WrittenThrough through) (parentSynced : Bool) :
    Sound checks log₀ { h with log := { h.log with
      parentSynced, durable := max h.log.durable through } } := by
  refine { hs with
    gave := fun p hp => (hs.gave p hp).mono rfl rfl (le_max_left ..) le_rfl
    durable_le := hs.durable_le.trans (le_max_left ..)
    synced := ?_ }
  rcases le_total through h.log.durable with hle | hle
  · simp only [max_eq_left hle]
    exact hs.synced
  · simp only [max_eq_right hle]
    exact .inr hwr

/-- The records past the cut are gone. -/
theorem discard {cut : Nat} (hcut : h.CutsAt cut) : Sound checks log₀ (h.discard cut) := by
  obtain ⟨hstm, hdur, hnext, hb⟩ := hcut
  have hold : ∀ q ∈ (h.discard cut).places, ∃ p ∈ h.places,
      q = p.discardAt cut (h.log.epoch + 1) := fun q hq => by
    obtain ⟨p, hp, rfl⟩ := mem_map.mp hq
    exact ⟨p, hp, rfl⟩
  have hl : ∀ p ∈ (h.discard cut).live, p ∈ h.live ∧ p.place.offset < cut := by
    intro p hp
    rw [live_discard, mem_filter] at hp
    exact ⟨hp.1, by simpa using hp.2⟩
  have ht : ∀ {o : Nat} {bytes : Bytes}, Holds h.log.file o bytes → o + bytes.length ≤ cut →
      Holds (h.discard cut).log.file o bytes := fun hh hend => hh.take hend
  refine ⟨hs.sealing_eq, hs.nonce_eq, hs.stampLen_eq, ?_, hs.writes, ?_, ?_, ?_, ?_, ?_,
    hs.durable_le, ?_⟩
  · exact ht hs.stamp (by have := hs.stampLen_eq; omega)
  · have hplaces : (h.discard cut).live.map (·.place.toPlace) =
        (h.live.map (·.place.toPlace)).filter fun q => Place.offset q < cut := by
      rw [live_discard, filter_map]
      rfl
    rw [hplaces]
    refine hs.tiles.below hs.lt_stop (fun q hq => ?_) (hs.stampLen_eq ▸ hstm) hnext
    obtain ⟨p, hp, rfl⟩ := mem_map.mp hq
    exact hb p hp
  · intro q hq
    obtain ⟨p, hp, rfl⟩ := hold q hq
    have hgave : GaveTo (h.discard cut).log p :=
      (hs.gave p hp).mono rfl rfl le_rfl (Nat.le_succ h.log.epoch)
    rcases discardAt_eq cut (h.log.epoch + 1) p with heq | ⟨heq, -⟩ <;> rw [heq]
    · exact hgave
    · refine { hgave with discarded := ?_ }
      rintro epoch ⟨⟩
      exact ⟨Nat.lt_succ_of_le (hs.gave p hp).epoch_le, le_rfl⟩
  · intro q hq hwr
    obtain ⟨p, hp, rfl⟩ := hold q hq
    have hr := hs.finished p hp
    rcases discardAt_eq cut (h.log.epoch + 1) p with heq | ⟨heq, -⟩ <;> rw [heq] at hwr ⊢ <;>
      exact hr hwr
  · intro p hp hwr record hr
    obtain ⟨hp, hlt⟩ := hl p hp
    have hlen := length_finishRecord (hs.gave p (mem_live.mp hp).1) (hs.finishRecord_eq .. ▸ hr)
    refine ht (hs.held p hp hwr record hr) ?_
    rw [hlen]
    exact hb p hp hlt
  · refine hs.synced.imp_right fun ⟨hf, _, hall⟩ => ⟨hf, hdur, fun p hp hlt => ?_⟩
    exact hall p (hl p hp).1 hlt
  · intro n hn q hq hlt
    obtain ⟨n, hn', rfl⟩ := hold n hn
    obtain ⟨p, hp, rfl⟩ := hold q hq
    simp only [place_discardAt] at hlt ⊢
    refine (hs.later n hn' p hp hlt).imp_left fun ⟨epoch, hd, hle⟩ => ⟨epoch, ?_, ?_⟩
    · rw [PlacedRecord.discardAt, if_neg (by simp [hd]), hd]
    · rwa [place_discardAt]

/-- Every step of a history keeps it sound. -/
theorem step {a : LogAction} (hstep : h.step checks a = some h') :
    Sound checks log₀ h' := by
  cases a with
  | place group nonce =>
    obtain ⟨⟨hops, hsize⟩, rfl⟩ := guarded_eq_some.mp hstep
    exact hs.placeNext hops hsize
  | write index fault =>
    obtain ⟨p, hp, rfl⟩ := Option.map_eq_some_iff.mp hstep
    cases hr : h.log.finishRecord checks .group p.place p.group.encode with
    | error e => exact hs.poison e
    | ok record => exact hs.hand hp (hs.finishRecord_eq .. ▸ hr)
  | sync through faults =>
    obtain ⟨hwr, hstep⟩ := Option.ite_none_right_eq_some.mp hstep
    rcases Log.syncThrough_cases h.log through faults with ⟨e, he⟩ | hok
    · rw [he, Option.some.injEq] at hstep
      exact hstep ▸ hs.poison e
    · rw [hok, Option.some.injEq] at hstep
      exact hstep ▸ hs.sync hwr true
  | rollback cut =>
    obtain ⟨hcut, rfl⟩ := guarded_eq_some.mp hstep
    exact hs.discard hcut

end

end Sound

end LogHistory

end RegolithStore
