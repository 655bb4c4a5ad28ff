import RegolithStore.Lib.Runs
import RegolithStore.Wal.Frame

/-! The appending writer of a format 2 log (`wal.rs`, `Wal`): every append is one record
stamped with the offset the last completed sync covered. A host call may fail: a failed
sync leaves the writer as it was, and a failed append ends its use, since recovery returns
the error and drops it. The log of every run is the stamp and the records one after the
other, and no record claims more than the syncs before it covered. -/

namespace RegolithStore

open Lib List LogRecord Option

variable {nonce : UInt64} {aeadNonce : AeadNonce} {sealing : Option Sealer} {stamp : Bytes}
  {rs : List LogRecord}

structure Wal where
  /-- The bytes handed to the host. -/
  file : Bytes
  offset : Nat
  path : String
  parentSynced : Bool
  nonce : UInt64
  syncedThrough : Nat
  closed : Bool
  sealing : Option Sealer
  stampLen : Nat

/-- Which of a sync's two host calls fail: on the file, and on its directory. -/
structure SyncFaults where
  file : Option IoError
  parent : Option IoError

namespace Wal

variable (checks : WalChecks)

/-- `create_in`, where every host call succeeds. A sealed log's stamp is durable at once. -/
def createIn (path : String) (nonce : UInt64) (aeadNonce : AeadNonce) :
    Option Keyring → Except IoError Wal
  | some keyring => do
    let sealer ← keyring.current
    let stamp ← encodeSealedStamp checks nonce sealer aeadNonce
    pure ⟨stamp, stamp.length, path, true, nonce, stamp.length, false, some sealer, stamp.length⟩
  | none =>
    let stamp := encodeStamp checks nonce
    .ok ⟨stamp, stamp.length, path, false, nonce, 0, false, none, stamp.length⟩

/-- On failure the offset stays, and whatever part of the record reached the file is there. -/
def writeRecord (w : Wal) (kind : RecordKind) (payload : Bytes) (aeadNonce : AeadNonce)
    (fault : Option WriteFault) : Except IoError Unit × Wal :=
  match recordBytes checks w.sealing kind payload w.syncedThrough w.nonce w.offset aeadNonce with
  | .error e => (.error e, w)
  | .ok bytes =>
    match writeAll w.file bytes fault with
    | (.ok (), file) => (.ok (), { w with file, offset := w.offset + bytes.length })
    | (.error e, file) => (.error e, { w with file })

def appendGroup (w : Wal) (entries : Bytes) (aeadNonce : AeadNonce) (fault : Option WriteFault) :
    Except IoError Unit × Wal :=
  if entries = [] then (.ok (), w)
  else if w.closed then (.error ⟨.other, "the write-ahead log is already closed"⟩, w)
  else w.writeRecord checks .group entries aeadNonce fault

/-- `sync_with_parent_sync`: only a sync that completes moves `syncedThrough`. -/
def syncData (w : Wal) (faults : SyncFaults) : Except IoError Unit × Wal :=
  match hostCall faults.file with
  | .error e => (.error e, w)
  | .ok () =>
    match if w.parentSynced then .ok () else hostCall faults.parent with
    | .error e => (.error e, w)
    | .ok () => (.ok (), { w with parentSynced := true, syncedThrough := w.offset })

/-- Sync every record, append CLOSE, and sync again. -/
def close (w : Wal) (aeadNonce : AeadNonce) (before : SyncFaults) (fault : Option WriteFault)
    (after : SyncFaults) : Except IoError Unit × Wal :=
  if w.closed then (.ok (), w)
  else
    match w.syncData before with
    | (.error e, w) => (.error e, w)
    | (.ok (), w) =>
      match { w with closed := true }.writeRecord checks .close [] aeadNonce fault with
      | (.error e, w) => (.error e, w)
      | (.ok (), w) => w.syncData after

end Wal

inductive WalOp
  | appendGroup (group : Group) (aeadNonce : AeadNonce) (fault : Option WriteFault)
  | syncData (faults : SyncFaults)
  | close (aeadNonce : AeadNonce) (before : SyncFaults) (fault : Option WriteFault)
      (after : SyncFaults)

variable {w w' : Wal} {ops : List WalOp}

namespace WalOp

def IsWrite : WalOp → Prop
  | appendGroup .. | syncData .. => True
  | close .. => False

instance : DecidablePred IsWrite
  | appendGroup .. | syncData .. => .isTrue trivial
  | close .. => .isFalse id

def group? : WalOp → Option Group
  | appendGroup group _ _ => if group.ops = [] then none else some group
  | _ => none

end WalOp

namespace Wal

variable (checks : WalChecks)

/-- A call on the writer. An append or a close whose record fails to be written is the
writer's last call: its caller returns the error. -/
def step (w : Wal) : WalOp → Option Wal
  | .appendGroup group aeadNonce fault =>
    match w.appendGroup checks group.encode aeadNonce fault with
    | (.ok (), w) => some w
    | (.error _, _) => none
  | .syncData faults => some (w.syncData faults).2
  | .close aeadNonce before fault after =>
    if fault.isSome then none else some (w.close checks aeadNonce before fault after).2

/-- The records a run hands to the host, each with the offset it is written at. -/
def writes (w : Wal) : List WalOp → List (Nat × Bytes)
  | [] => []
  | op :: ops =>
    match w.step checks op with
    | none => []
    | some w' =>
      let record := w'.file.drop w.file.length
      (if record = [] then [] else [(w.offset, record)]) ++ w'.writes ops

def appended (ops : List WalOp) : List Group := ops.filterMap WalOp.group?

end Wal

/-- The offset is zero, or one at which a record of the log ends or the first begins. -/
def Covers (checks : WalChecks) (nonce : UInt64) (start : Nat) (rs : List LogRecord)
    (synced : Nat) : Prop :=
  synced = 0 ∨ ∃ upTo, upTo <+: rs ∧ synced = endOf (frame checks nonce) start upTo

theorem Covers.mono {checks : WalChecks} {start synced : Nat}
    {rs rs' : List LogRecord} (h : Covers checks nonce start rs synced) (hrs : rs <+: rs') :
    Covers checks nonce start rs' synced :=
  h.imp_right fun ⟨upTo, hup, hs⟩ => ⟨upTo, hup.trans hrs, hs⟩

namespace Wal

variable {checks : WalChecks} {keyring : Option Keyring} {op : WalOp} {path : String}

/-- The log is `stamp` and the records `rs`, each verifying where it stands and claiming no
more than was synced, and nothing follows a CLOSE. -/
structure Wrote (checks : WalChecks) (nonce : UInt64) (sealing : Option Sealer) (stamp : Bytes)
    (w : Wal) (rs : List LogRecord) : Prop where
  nonce_eq : w.nonce = nonce
  sealing_eq : w.sealing = sealing
  file_eq : w.file = stamp ++ layout (frame checks nonce) stamp.length rs
  offset_eq : w.offset = endOf (frame checks nonce) stamp.length rs
  written : ∀ p ∈ placed (frame checks nonce) stamp.length rs,
    p.2.Written checks sealing nonce p.1
  synced : Covers checks nonce stamp.length rs w.syncedThrough
  claims : ∀ r ∈ rs, r.header.syncedThrough ≤ w.syncedThrough ∧
    Covers checks nonce stamp.length rs r.header.syncedThrough
  closes : ∀ r ∈ rs, r.header.kind = .close → w.closed = true
  closeLast : ∀ r ∈ rs.dropLast, r.header.kind = .group

section Wrote

variable {checks : WalChecks} {kind : RecordKind} {fault : Option WriteFault} {payload : Bytes}
  {g : Group}

section

variable (h : w.Wrote checks nonce sealing stamp rs)

include h

theorem Wrote.file_length : w.file.length = w.offset := by
  rw [h.file_eq, h.offset_eq, length_append, endOf]

theorem Wrote.synced_le : w.syncedThrough ≤ w.offset := by
  rcases h.synced with h0 | ⟨upTo, hup, hs⟩
  · exact h0 ▸ Nat.zero_le _
  · rw [hs, h.offset_eq]
    exact endOf_mono hup _

theorem Wrote.of_eq (hnonce : w'.nonce = w.nonce)
    (hseal : w'.sealing = w.sealing) (hf : w'.file = w.file) (hoff : w'.offset = w.offset)
    (hsyn : w'.syncedThrough = w.syncedThrough ∨ w'.syncedThrough = w.offset)
    (hc : w.closed = true → w'.closed = true) : w'.Wrote checks nonce sealing stamp rs where
  nonce_eq := hnonce.trans h.nonce_eq
  sealing_eq := hseal.trans h.sealing_eq
  file_eq := hf.trans h.file_eq
  offset_eq := hoff.trans h.offset_eq
  written := h.written
  synced := by
    rcases hsyn with hs | hs
    · exact hs ▸ h.synced
    · exact hs ▸ .inr ⟨rs, prefix_refl rs, h.offset_eq⟩
  claims r hr := by
    refine ⟨(h.claims r hr).1.trans ?_, (h.claims r hr).2⟩
    rcases hsyn with hs | hs
    · exact hs.ge
    · exact hs ▸ h.synced_le
  closes r hr hk := hc (h.closes r hr hk)
  closeLast := h.closeLast

end

theorem syncData_cases (w : Wal) (faults : SyncFaults) :
    ((w.syncData faults).2 = w ∧ ∃ e, (w.syncData faults).1 = .error e) ∨
      (w.syncData faults).2 = { w with parentSynced := true, syncedThrough := w.offset } := by
  rw [syncData]
  cases hostCall faults.file with
  | error e => exact .inl ⟨rfl, e, rfl⟩
  | ok _ =>
    cases hparent : (if w.parentSynced then .ok () else hostCall faults.parent) with
    | error e => exact .inl ⟨by simp, e, by simp⟩
    | ok _ => exact .inr (by simp)

theorem Wrote.syncData (h : w.Wrote checks nonce sealing stamp rs) (faults : SyncFaults) :
    (w.syncData faults).2.Wrote checks nonce sealing stamp rs := by
  rcases syncData_cases w faults with ⟨heq, -⟩ | heq
  · rwa [heq]
  · rw [heq]
    exact h.of_eq rfl rfl rfl rfl (.inr rfl) id

theorem writeRecord_keeps (checks : WalChecks) (w : Wal) (kind : RecordKind) (payload : Bytes)
    (aeadNonce : AeadNonce) (fault : Option WriteFault) : ∃ file offset, w.offset ≤ offset ∧
      (w.writeRecord checks kind payload aeadNonce fault).2 = { w with file, offset } := by
  rw [Wal.writeRecord]
  cases recordBytes checks w.sealing kind payload w.syncedThrough w.nonce w.offset aeadNonce with
  | error e => exact ⟨w.file, w.offset, le_rfl, rfl⟩
  | ok bytes =>
    cases fault with
    | none => exact ⟨w.file ++ bytes, w.offset + bytes.length, Nat.le_add_right _ _, rfl⟩
    | some fault => exact ⟨w.file ++ bytes.take fault.landed, w.offset, le_rfl, rfl⟩

theorem writeRecord_synced {result : Except IoError Unit}
    (hw : w.writeRecord checks kind payload aeadNonce fault = (result, w')) :
    w'.syncedThrough = w.syncedThrough := by
  obtain ⟨file, offset, -, heq⟩ := writeRecord_keeps checks w kind payload aeadNonce fault
  rw [hw] at heq
  rw [show w' = _ from heq]

/-- A record more, whole or not at all. -/
theorem Wrote.writeRecord (h : w.Wrote checks nonce sealing stamp rs)
    (hcarr : kind.Carries g.encode) (hoff : w.offset < 2 ^ 64)
    (hg : ∀ r ∈ rs, r.header.kind = .group) (hc : kind = .close → w.closed = true)
    (hw : w.writeRecord checks kind g.encode aeadNonce none = (.ok (), w')) : ∃ r : LogRecord, r.ops
    = g.ops ∧ r.header.kind = kind ∧
      w'.Wrote checks nonce sealing stamp (rs ++ [r]) := by
  rw [Wal.writeRecord, h.sealing_eq, h.nonce_eq] at hw
  cases hb : recordBytes checks sealing kind g.encode w.syncedThrough nonce w.offset
      aeadNonce with
  | error e => simp [hb] at hw
  | ok bytes =>
    simp only [hb, writeAll, Prod.mk.injEq, true_and] at hw
    obtain ⟨r, rfl, hops, hk, hs, hwr⟩ :=
      recordBytes_eq_ok hcarr h.synced_le hoff hb
    have hcat : rs <+: rs ++ [r] := prefix_append rs [r]
    refine ⟨r, hops, hk, hw ▸ ?_⟩
    refine ⟨rfl, rfl, ?_, ?_, ?_, h.synced.mono hcat, ?_, ?_, ?_⟩
    · rw [layout_append, ← append_assoc, ← h.file_eq, ← h.offset_eq]
      simp [layout]
    · rw [endOf_concat, ← h.offset_eq]
    · rw [placed_concat, ← h.offset_eq]
      simp only [mem_append, mem_singleton]
      rintro p (hp | rfl)
      · exact h.written p hp
      · exact hwr
    · simp only [mem_append, mem_singleton]
      rintro r' (hr' | rfl)
      · exact ⟨(h.claims r' hr').1, (h.claims r' hr').2.mono hcat⟩
      · exact ⟨hs.le, hs ▸ h.synced.mono hcat⟩
    · simp only [mem_append, mem_singleton]
      rintro r' (hr' | rfl) hclose
      · exact h.closes r' hr' hclose
      · exact hc (hk.symm.trans hclose)
    · simpa using hg

variable (checks) in
theorem writeRecord_fault (w : Wal) (kind : RecordKind) (payload : Bytes) (aeadNonce : AeadNonce)
    (fault : WriteFault) :
    ∃ e, (w.writeRecord checks kind payload aeadNonce (some fault)).1 = .error e := by
  rw [Wal.writeRecord]
  cases recordBytes checks w.sealing kind payload w.syncedThrough w.nonce w.offset aeadNonce with
  | error e => exact ⟨e, rfl⟩
  | ok bytes => exact ⟨fault.error, rfl⟩

theorem writeRecord_error {e : IoError}
    (hw : w.writeRecord checks kind payload aeadNonce none = (.error e, w')) : w' = w := by
  rw [Wal.writeRecord] at hw
  cases hb : recordBytes checks w.sealing kind payload w.syncedThrough w.nonce w.offset
      aeadNonce with
  | error e => simp_all
  | ok bytes => simp [hb, writeAll] at hw

section

variable (h : w.Wrote checks nonce sealing stamp rs)

include h

theorem Wrote.all_groups (ho : w.closed = false) : ∀ r ∈ rs, r.header.kind = .group := by
  intro r hr
  cases hk : r.header.kind with
  | group => rfl
  | close => exact absurd (h.closes r hr hk) (by simp [ho])

theorem Wrote.appendGroup (hoff : w.offset < 2 ^ 64)
    (hw : w.appendGroup checks g.encode aeadNonce fault = (.ok (), w')) :
    (g.ops = [] ∧ w' = w) ∨ g.ops ≠ [] ∧ ∃ r : LogRecord, r.ops = g.ops ∧
      w'.syncedThrough = w.syncedThrough ∧ w'.Wrote checks nonce sealing stamp (rs ++ [r]) := by
  rw [Wal.appendGroup] at hw
  split_ifs at hw with hemp hc
  · exact .inl ⟨encodeGroup_eq_nil.mp hemp, (Prod.ext_iff.mp hw).2.symm⟩
  · exact absurd (Prod.ext_iff.mp hw).1 (by simp)
  · refine .inr ⟨mt encodeGroup_eq_nil.mpr hemp, ?_⟩
    cases fault with
    | some fault =>
      obtain ⟨e, he⟩ := w.writeRecord_fault checks .group g.encode aeadNonce fault
      exact absurd (he.symm.trans (Prod.ext_iff.mp hw).1) (by simp)
    | none =>
      have hcarr : RecordKind.group.Carries g.encode := hemp
      obtain ⟨r, hops, -, hr⟩ := h.writeRecord hcarr hoff
        (h.all_groups (Bool.eq_false_iff.mpr hc)) nofun hw
      exact ⟨r, hops, writeRecord_synced hw, hr⟩

theorem syncData_synced_le (faults : SyncFaults) :
    w.syncedThrough ≤ (w.syncData faults).2.syncedThrough := by
  rcases syncData_cases w faults with ⟨heq, -⟩ | heq
  · rw [heq]
  · rw [heq]
    exact h.synced_le

theorem Wrote.close (hoffset : w.offset < 2 ^ 64)
    (aeadNonce : AeadNonce) (before after : SyncFaults) : ∃ new, new.length ≤ 1 ∧
      w.syncedThrough ≤ (w.close checks aeadNonce before none after).2.syncedThrough ∧
      (w.close checks aeadNonce before none after).2.Wrote checks nonce sealing stamp
        (rs ++ new) := by
  rw [Wal.close]
  split_ifs with hc
  · exact ⟨[], Nat.zero_le _, le_rfl, by simpa using h⟩
  · have hs := h.syncData before
    have hle := syncData_synced_le h before
    have hoff : (w.syncData before).2.offset = w.offset := by
      rcases syncData_cases w before with ⟨heq, -⟩ | heq <;> rw [heq]
    have ho : (w.syncData before).2.closed = false := by
      rcases syncData_cases w before with ⟨heq, -⟩ | heq <;> rw [heq] <;> simpa using hc
    rcases hw : w.syncData before with ⟨_ | _, w₁⟩ <;> rw [hw] at hs hle hoff ho
    · exact ⟨[], Nat.zero_le _, hle, by simpa using hs⟩
    · have hm : { w₁ with closed := true }.Wrote checks nonce sealing stamp rs :=
        hs.of_eq rfl rfl rfl rfl (.inl rfl) fun _ => rfl
      have hcarr : RecordKind.close.Carries (Group.encode ⟨[], Nat.zero_le _⟩) := rfl
      rcases hr : { w₁ with closed := true }.writeRecord checks .close [] aeadNonce none with
        ⟨_ | _, w₂⟩ <;> simp only [hr]
      · cases writeRecord_error hr
        exact ⟨[], Nat.zero_le _, hle, by simpa using hm⟩
      · obtain ⟨r, -, -, hwrote⟩ := hm.writeRecord hcarr (hoff ▸ hoffset)
          (hs.all_groups ho) (fun _ => rfl) hr
        refine ⟨[r], le_rfl, hle.trans ?_, hwrote.syncData after⟩
        exact (writeRecord_synced hr).ge.trans (syncData_synced_le hwrote after)

/-- Every call keeps the log as it is described. -/
theorem Wrote.step (hoff : w.offset < 2 ^ 64) (hs : w.step checks op = some w') :
    ∃ new, new.length ≤ 1 ∧ w.syncedThrough ≤ w'.syncedThrough ∧
      w'.Wrote checks nonce sealing stamp (rs ++ new) ∧
      (op.IsWrite → new.map LogRecord.ops = op.group?.toList.map Group.ops) := by
  cases op with
  | appendGroup g aeadNonce fault =>
    rcases hw : w.appendGroup checks g.encode aeadNonce fault with ⟨_ | _, w₁⟩ <;>
      simp only [Wal.step, hw, some.injEq, reduceCtorEq] at hs
    subst hs
    rcases h.appendGroup hoff hw with ⟨he, rfl⟩ | ⟨hne, r, hops, hsyn, hr⟩
    · exact ⟨[], Nat.zero_le _, le_rfl, by simpa using h, by simp [WalOp.group?, he]⟩
    · exact ⟨[r], le_rfl, hsyn.ge, hr, by simp [WalOp.group?, hne, hops]⟩
  | syncData faults =>
    simp only [Wal.step, some.injEq] at hs
    subst hs
    exact ⟨[], Nat.zero_le _, syncData_synced_le h faults, by simpa using h.syncData faults,
      by simp [WalOp.group?]⟩
  | close aeadNonce before fault after =>
    cases fault with
    | some fault => simp [Wal.step] at hs
    | none =>
      simp only [Wal.step, isSome_none, Bool.false_eq_true, if_false, some.injEq] at hs
      subst hs
      obtain ⟨new, hlen, hsyn, hnew⟩ := h.close hoff aeadNonce before after
      exact ⟨new, hlen, hsyn, hnew, fun hop => hop.elim⟩

end

end Wrote

theorem writeRecord_offset_le (checks : WalChecks) (w : Wal) (kind : RecordKind) (payload : Bytes)
    (aeadNonce : AeadNonce) (fault : Option WriteFault) :
    w.offset ≤ (w.writeRecord checks kind payload aeadNonce fault).2.offset := by
  obtain ⟨file, offset, hle, heq⟩ := writeRecord_keeps checks w kind payload aeadNonce fault
  rwa [heq]

theorem syncData_offset (w : Wal) (faults : SyncFaults) :
    (w.syncData faults).2.offset = w.offset := by
  rcases syncData_cases w faults with ⟨heq, -⟩ | heq <;> rw [heq]

theorem step_appendGroup {g : Group} (hs : w.step checks (.appendGroup g aeadNonce fault) = some w') :
    ∃ file offset, w.offset ≤ offset ∧ w' = { w with file, offset } := by
  have hk : ∃ file offset, w.offset ≤ offset ∧
      (w.appendGroup checks g.encode aeadNonce fault).2 = { w with file, offset } := by
    rw [appendGroup]
    split_ifs
    · exact ⟨_, _, le_rfl, rfl⟩
    · exact ⟨_, _, le_rfl, rfl⟩
    · exact writeRecord_keeps ..
  rcases hw : w.appendGroup checks g.encode aeadNonce fault with ⟨_ | _, w₁⟩ <;>
    simp only [step, hw, some.injEq, reduceCtorEq] at hs
  rwa [hw, hs] at hk

theorem step_offset_le (hs : w.step checks op = some w') : w.offset ≤ w'.offset := by
  cases op with
  | appendGroup g aeadNonce fault =>
    obtain ⟨file, offset, hle, rfl⟩ := step_appendGroup hs
    exact hle
  | syncData faults =>
    simp only [step, some.injEq] at hs
    rw [← hs, syncData_offset]
  | close aeadNonce before fault after =>
    simp only [step] at hs
    split_ifs at hs
    rw [some.injEq] at hs
    rw [← hs, close]
    split_ifs
    · exact le_rfl
    · have hsync := syncData_offset w before
      rcases hw : w.syncData before with ⟨_ | _, w₁⟩ <;> rw [hw] at hsync
      · exact hsync.ge
      · have hwrite := writeRecord_offset_le checks { w₁ with closed := true } .close [] aeadNonce
          fault
        rcases hr : { w₁ with closed := true }.writeRecord checks .close [] aeadNonce fault with
          ⟨_ | _, w₂⟩ <;> rw [hr] at hwrite <;> simp only [hr]
        · exact hsync.ge.trans hwrite
        · exact (hsync.ge.trans hwrite).trans (syncData_offset w₂ after).ge

theorem run_offset_le (hrun : run (step checks) w ops = some w') : w.offset ≤ w'.offset := by
  induction ops generalizing w with
  | nil => exact some.inj hrun ▸ le_rfl
  | cons op ops ih =>
    obtain ⟨t, ht, hrun⟩ := run_cons.mp hrun
    exact (step_offset_le ht).trans (ih hrun)

theorem step_closed (hop : op.IsWrite) (hs : w.step checks op = some w') :
    w'.closed = w.closed := by
  cases op with
  | appendGroup g aeadNonce fault =>
    obtain ⟨file, offset, -, rfl⟩ := step_appendGroup hs
    rfl
  | syncData faults =>
    simp only [step, some.injEq] at hs
    rw [← hs]
    rcases syncData_cases w faults with ⟨heq, -⟩ | heq <;> rw [heq]
  | close aeadNonce before fault after => exact hop.elim

theorem createIn_cases {w : Wal} (h : createIn checks path nonce aeadNonce keyring = .ok w)
    : (keyring = none ∧ w = ⟨encodeStamp checks nonce, (encodeStamp checks nonce).length, path,
      false, nonce, 0, false, none, (encodeStamp checks nonce).length⟩) ∨
    ∃ k sealer stamp, keyring = some k ∧ k.current = .ok sealer ∧
      encodeSealedStamp checks nonce sealer aeadNonce = .ok stamp ∧
      w = ⟨stamp, stamp.length, path, true, nonce, stamp.length, false, some sealer,
        stamp.length⟩ := by
  cases keyring with
  | none => exact .inl ⟨rfl, (Except.ok.inj h).symm⟩
  | some k =>
    simp only [createIn, bind, Except.bind] at h
    cases hk : k.current with
    | error e => simp [hk] at h
    | ok sealer =>
      cases hs : encodeSealedStamp checks nonce sealer aeadNonce with
      | error e => simp [hk, hs] at h
      | ok stamp =>
        simp only [hk, hs] at h
        exact .inr ⟨k, sealer, stamp, rfl, hk, hs, (Except.ok.inj h).symm⟩

theorem wrote_createIn {w : Wal}
    (h : createIn checks path nonce aeadNonce keyring = .ok w) : w.Wrote checks nonce w.sealing w.file [] ∧ w.closed = false := by
  rcases createIn_cases h with ⟨-, rfl⟩ | ⟨k, sealer, stamp, -, -, -, rfl⟩
  · exact ⟨⟨rfl, rfl, by simp [layout], by simp, by simp [placed], .inl rfl, by simp, by simp,
      by simp⟩, rfl⟩
  · exact ⟨⟨rfl, rfl, by simp [layout], by simp, by simp [placed],
      .inr ⟨[], prefix_refl _, by simp⟩, by simp, by simp, by simp⟩, rfl⟩

section Run

variable {checks : WalChecks}

/-- What a run adds to the log: the records it hands to the host, one for each group, and
after each first part of its calls the first part of them. -/
theorem Wrote.run (h : w.Wrote checks nonce sealing stamp rs)
    (hrun : Lib.run (Wal.step checks) w ops = some w') (hs : w'.offset < 2 ^ 64) :
    ∃ new, w'.Wrote checks nonce sealing stamp (rs ++ new) ∧
      w.syncedThrough ≤ w'.syncedThrough ∧
      w.writes checks ops = (placed (frame checks nonce) w.offset new).map
        (fun p => (p.1, p.2.frame checks nonce p.1)) ∧
      ∀ before after wb, ops = before ++ after → Lib.run (Wal.step checks) w before = some wb →
        ∃ first, first <+: new ∧ wb.Wrote checks nonce sealing stamp (rs ++ first) ∧
          ((∀ op ∈ before, op.IsWrite) →
            first.map LogRecord.ops = (appended before).map Group.ops) := by
  induction ops generalizing w rs with
  | nil =>
    cases hrun
    refine ⟨[], by simpa using h, le_rfl, rfl, fun before after wb hspl hb => ?_⟩
    obtain ⟨rfl, rfl⟩ := append_eq_nil_iff.mp hspl.symm
    cases hb
    exact ⟨[], prefix_refl _, by simpa using h, fun _ => rfl⟩
  | cons op ops ih =>
    obtain ⟨t, ht, hrun⟩ := run_cons.mp hrun
    have hoff : w.offset < 2 ^ 64 :=
      lt_of_le_of_lt ((step_offset_le ht).trans (run_offset_le hrun)) hs
    obtain ⟨new, hlen, hsyn, hnew, hgroup⟩ := h.step hoff ht
    obtain ⟨more, hmore, hsynced', hws, hfst⟩ := ih hnew hrun
    have hf : t.file.drop w.file.length = layout (frame checks nonce) w.offset new := by
      rw [hnew.file_eq, layout_append, ← append_assoc, ← h.file_eq, drop_left, h.offset_eq]
    refine ⟨new ++ more, by rwa [← append_assoc], hsyn.trans hsynced', ?_, ?_⟩
    · have hend : t.offset = endOf (frame checks nonce) w.offset new := by
        rw [hnew.offset_eq, endOf_append, ← h.offset_eq]
      simp only [writes, ht, hf, hws]
      rw [placed_append, map_append, hend]
      congr 1
      match new, hlen with
      | [], _ => rfl
      | [r], _ => simp [layout, placed, frame_ne_nil]
    · rintro (_ | ⟨op', before⟩) after wb hspl hb
      · cases hb
        exact ⟨[], nil_prefix, by simpa using h, fun _ => rfl⟩
      · obtain ⟨rfl, hr⟩ := List.cons.inj hspl
        obtain ⟨t', ht', hb⟩ := run_cons.mp hb
        obtain rfl : t' = t := mem_unique ht' ht
        obtain ⟨first, hp, hwb, hops⟩ := hfst before after wb hr hb
        refine ⟨new ++ first, (prefix_append_right_inj new).mpr hp,
          by rwa [← append_assoc], fun hw => ?_⟩
        rw [forall_mem_cons] at hw
        rw [map_append, hgroup hw.1, hops hw.2, appended, appended, filterMap_cons]
        cases op.group? <;> simp

end Run

end Wal

end RegolithStore
