import RegolithStore.Lib.HostFile

/-! A log written at any offset, over a file that only grows at its end. A write above the end is
held until those below it arrive. A failure is kept, and refuses every write and sync until a cut
succeeds. A cut forgets what is held and sets the file's length: past the end it drops writes
below the cut and fills the gap with zeros. -/

namespace RegolithStore

open Lib List

/-- `end` is `stop` here. What is held is in the order of its offsets, as in a `BTreeMap`. -/
structure SerialLog where
  file : Bytes
  stop : Nat
  held : List (Nat × Bytes)
  failed : Option ErrorKind

namespace SerialLog

variable (s : SerialLog)

/-- `over`. -/
def overFile (file : Bytes) : SerialLog := ⟨file, file.length, [], none⟩

def usable : Except IoError Unit :=
  match s.failed with
  | none => .ok ()
  | some kind => .error ⟨kind,
      "an earlier write to the log failed; it takes no more writes until it is truncated"⟩

def append (buf : Bytes) (fault : Option WriteFault) : Except IoError Unit × SerialLog :=
  match writeAll s.file buf fault with
  | (.error e, file) => (.error e, { s with file, failed := some e.kind })
  | (.ok _, file) => (.ok (), { s with file, stop := s.stop + buf.length })

/-- `append_held` over what is held, with what the host does to each append. -/
def appendHeld : List (Nat × Bytes) → List (Option WriteFault) → SerialLog →
    Except IoError Unit × SerialLog
  | [], _, s => (.ok (), { s with held := [] })
  | (offset, buf) :: held, faults, s =>
    if s.stop < offset then (.ok (), { s with held := (offset, buf) :: held })
    else match { s with held }.append (buf.drop (s.stop - offset)) faults.head?.join with
      | (.ok _, s) => appendHeld held faults.tail s
      | failed => failed

/-- `BTreeMap::insert`. -/
def hold (offset : Nat) (buf : Bytes) : List (Nat × Bytes) → List (Nat × Bytes)
  | [] => [(offset, buf)]
  | (o, b) :: held =>
    if offset < o then (offset, buf) :: (o, b) :: held
    else if offset = o then (offset, buf) :: held
    else (o, b) :: hold offset buf held

def writeAllAt (offset : Nat) (buf : Bytes) (faults : List (Option WriteFault)) :
    Except IoError Unit × SerialLog :=
  if buf = [] then (.ok (), s)
  else if 2 ^ 64 ≤ offset + buf.length then
    (.error ⟨.invalidInput, "the write would make the log too large to address"⟩, s)
  else if offset + buf.length ≤ s.stop then (.ok (), s)
  else match s.usable with
    | .error e => (.error e, s)
    | .ok _ =>
      if s.stop < offset then (.ok (), { s with held := hold offset buf s.held })
      else match s.append (buf.drop (s.stop - offset)) faults.head?.join with
        | (.ok _, s) => appendHeld s.held faults.tail s
        | failed => failed

def syncData (fault : Option IoError) : Except IoError Unit :=
  s.usable.bind fun _ => hostCall fault

/-- A cut that fails leaves the file cut to `len` or to anything above it. -/
def setLen (len : Nat) : Option WriteFault → Except IoError Unit × SerialLog
  | some fault => (.error fault.error,
      { s with file := s.file.take (max len fault.landed), failed := some fault.error.kind })
  | none => (.ok (), ⟨s.file.take len ++ replicate (len - s.file.length) 0, len, [], none⟩)

inductive Call
  | write (offset : Nat) (buf : Bytes) (faults : List (Option WriteFault))
  | sync (fault : Option IoError)
  | setLen (len : Nat) (fault : Option WriteFault)

def call : Call → SerialLog
  | .write offset buf faults => (s.writeAllAt offset buf faults).2
  | .sync _ => s
  | .setLen len fault => (s.setLen len fault).2

variable (data : Bytes)

def after : List Call → SerialLog
  | [] => overFile data
  | c :: calls => (after calls).call c

/-- The byte last written at `p`, if it was written since it was cut. -/
def written : List Call → Nat → Option UInt8
  | [], p => data[p]?
  | .write offset buf _ :: calls, p =>
    if offset + buf.length < 2 ^ 64 ∧ offset ≤ p ∧ p < offset + buf.length then buf[p - offset]?
    else written calls p
  | .setLen len none :: calls, p => if len ≤ p then none else written calls p
  | _ :: calls, p => written calls p

/-- The write that began at an offset, if it did since that was cut. -/
def begun : List Call → Nat → Option Bytes
  | [], _ => none
  | .write offset buf _ :: calls, p =>
    if offset + buf.length < 2 ^ 64 ∧ buf ≠ [] ∧ offset = p then some buf else begun calls p
  | .setLen len none :: calls, p => if len ≤ p then none else begun calls p
  | _ :: calls, p => begun calls p

/-- Writes agree with those before them, and a cut is of bytes the file has. -/
def Contract : List Call → Prop
  | [] => True
  | .write offset buf _ :: calls => Contract calls ∧ (∀ b ∈ begun calls offset, b = buf) ∧
      ∀ p, offset ≤ p → p < offset + buf.length → ∀ c ∈ written data calls p, c ∈ buf[p - offset]?
  | .setLen len _ :: calls => Contract calls ∧ len ≤ (after data calls).stop ∧
      len ≤ (after data calls).file.length
  | .sync _ :: calls => Contract calls

section

variable {s data} {W W' : Nat → Option UInt8} {held held' : List (Nat × Bytes)} {offset stop : Nat}
  {buf file more : Bytes} {faults : List (Option WriteFault)} {calls : List Call}

def Agrees (W : Nat → Option UInt8) (offset : Nat) (buf : Bytes) : Prop :=
  ∀ p, offset ≤ p → p < offset + buf.length → W p = buf[p - offset]?

theorem Agrees.keeps (h : Agrees W offset buf) (hk : ∀ p, ∀ c ∈ W p, W' p = some c) :
    Agrees W' offset buf := by
  intro p hle hlt
  have hbyte := h p hle hlt
  rw [getElem?_eq_getElem (by omega)] at hbyte ⊢
  exact hk p _ hbyte

theorem Agrees.append (h : Agrees W 0 file) (hmore : Agrees W file.length more) :
    Agrees W 0 (file ++ more) := by
  intro p _ hlt
  rw [length_append] at hlt
  by_cases hp : p < file.length
  · rw [h p (Nat.zero_le p) (by omega), Nat.sub_zero, getElem?_append_left hp]
  · rw [hmore p (by omega) (by omega), Nat.sub_zero, getElem?_append_right (by omega)]

theorem Agrees.drop {n : Nat} (h : Agrees W offset buf) : Agrees W (offset + n) (buf.drop n) := by
  intro p hle hlt
  rw [length_drop] at hlt
  rw [h p (by omega) (by omega), getElem?_drop]
  congr 1
  omega

theorem Agrees.take {n : Nat} (h : Agrees W 0 file) : Agrees W 0 (file.take n) := by
  intro p hle hlt
  rw [length_take] at hlt
  rw [h p hle (by omega), Nat.sub_zero, getElem?_take_of_lt (by omega)]

/-- The file ends at the end, and what was written above it is in `held`. -/
structure Holds (W : Nat → Option UInt8) (held : List (Nat × Bytes)) (file : Bytes) (stop : Nat) :
    Prop where
  length : file.length = stop
  filed : Agrees W 0 file
  sorted : held.Pairwise (·.1 < ·.1)
  bytes : ∀ e ∈ held, Agrees W e.1 e.2
  rest : ∀ p, stop ≤ p → W p ≠ none → ∃ e ∈ held, e.1 ≤ p ∧ p < e.1 + e.2.length

theorem Holds.append (h : Holds W ((offset, buf) :: held) file stop) (hle : offset ≤ stop) :
    Holds W held (file ++ buf.drop (stop - offset)) (stop + (buf.drop (stop - offset)).length) := by
  have hmore := (h.bytes _ mem_cons_self).drop (n := stop - offset)
  rw [Nat.add_sub_cancel' hle, ← h.length] at hmore
  refine ⟨by simp [h.length], h.filed.append (h.length ▸ hmore), h.sorted.of_cons,
    fun e he => h.bytes e (.tail _ he), fun p hp hW => ?_⟩
  rw [length_drop] at hp
  obtain ⟨e, he, hin⟩ := h.rest p (by omega) hW
  rcases mem_cons.mp he with rfl | he
  · dsimp only at hin
    omega
  · exact ⟨e, he, hin⟩

theorem Holds.appendHeld (h : Holds W held s.file s.stop) (hok : s.failed = none) {s' : SerialLog}
    (hs' : (appendHeld held faults s).2 = s') : Agrees W 0 (s'.file.take s'.stop) ∧
      (s'.failed = none → Holds W s'.held s'.file s'.stop ∧
        ∀ e ∈ s'.held, s'.stop < e.1 ∧ e ∈ held) := by
  subst hs'
  induction held generalizing s faults with
  | nil => exact ⟨h.filed.take, fun _ => ⟨h, nofun⟩⟩
  | cons e held ih =>
    rw [SerialLog.appendHeld]
    split_ifs with hlt
    · refine ⟨h.filed.take, fun _ => ⟨h, fun e he => ⟨?_, he⟩⟩⟩
      rcases mem_cons.mp he with rfl | hmem
      · exact hlt
      · exact hlt.trans (rel_of_pairwise_cons h.sorted hmem)
    · cases faults.head?.join with
      | none =>
        refine (ih (s := ⟨_, _, held, s.failed⟩) (h.append (not_lt.mp hlt)) hok).imp_right ?_
        exact fun hn hok => (hn hok).imp_right fun hh e he =>
          (hh e he).imp_right (mem_cons_of_mem _)
      | some fault =>
        refine ⟨?_, nofun⟩
        dsimp only [SerialLog.append, writeAll]
        rw [take_left' h.length]
        exact h.filed

theorem hold_spec (hsrt : held.Pairwise (·.1 < ·.1))
    (hs : ∀ e ∈ held, e.1 = offset → e = (offset, buf)) :
    (hold offset buf held).Pairwise (·.1 < ·.1) ∧
      ∀ e, e ∈ hold offset buf held ↔ e = (offset, buf) ∨ e ∈ held := by
  induction held with
  | nil => simp [hold]
  | cons x held ih =>
    rw [forall_mem_cons] at hs
    obtain ⟨hf, hsrt⟩ := pairwise_cons.mp hsrt
    rw [hold]
    split_ifs with hlt heq
    all_goals simp only [pairwise_cons, mem_cons]
    all_goals grind

theorem hold_of_lt (h : ∀ e ∈ held, offset < e.1) :
    hold offset buf held = (offset, buf) :: held := by
  cases held with
  | nil => rfl
  | cons e held => rw [hold, if_pos (h e mem_cons_self)]

structure Sound (data : Bytes) (calls : List Call) (s : SerialLog) : Prop where
  filed : Agrees (written data calls) 0 (s.file.take s.stop)
  holds : s.failed = none → Holds (written data calls) s.held s.file s.stop ∧
    ∀ e ∈ s.held, s.stop < e.1 ∧ begun calls e.1 = some e.2

section

variable (hagree : ∀ p, offset ≤ p → p < offset + buf.length →
  ∀ c ∈ written data calls p, c ∈ buf[p - offset]?)

include hagree

theorem written_keeps (faults : List (Option WriteFault)) (p : Nat) (c : UInt8)
    (h : c ∈ written data calls p) :
    written data (.write offset buf faults :: calls) p = some c := by
  rw [written]
  split_ifs with hin
  · exact hagree p hin.2.1 hin.2.2 c h
  · exact h

/-- A write that agrees with those before it. -/
theorem Sound.write (h : Sound data calls s) (hs : ∀ b ∈ begun calls offset, b = buf) :
    Sound data (.write offset buf faults :: calls) (s.writeAllAt offset buf faults).2 := by
  have hk := written_keeps hagree faults
  have hfiled := h.filed.keeps hk
  have hbegun (e : Nat × Bytes) (he : begun calls e.1 = some e.2) :
      begun (.write offset buf faults :: calls) e.1 = some e.2 := by
    rw [begun]
    split_ifs with hin
    · exact congrArg some (hs e.2 (hin.2.2 ▸ he)).symm
    · exact he
  have hqt (hqt : buf.length = 0 ∨ 2 ^ 64 ≤ offset + buf.length ∨
      offset + buf.length ≤ s.stop) : Sound data (.write offset buf faults :: calls) s := by
    refine ⟨hfiled, fun hok => ?_⟩
    obtain ⟨hhld, hh⟩ := h.holds hok
    refine ⟨⟨hhld.length, hhld.filed.keeps hk, hhld.sorted,
      fun e he => (hhld.bytes e he).keeps hk, fun p hp hW => hhld.rest p hp ?_⟩,
      fun e he => (hh e he).imp_right (hbegun e)⟩
    rwa [written, if_neg (by omega)] at hW
  rw [writeAllAt]
  split_ifs with hnil hb hbel hgap
  · exact hqt (.inl (by rw [hnil, length_nil]))
  · exact hqt (.inr (.inl hb))
  · exact hqt (.inr (.inr hbel))
  all_goals
    cases hf : s.failed with
    | some kind =>
      simp only [usable, hf]
      exact ⟨hfiled, fun hok => by simp [hf] at hok⟩
    | none => ?_
  all_goals
    simp only [usable, hf]
    obtain ⟨hhld, hh⟩ := h.holds hf
    obtain ⟨hsrt, hmem⟩ := hold_spec hhld.sorted fun e he (hoff : e.1 = offset) =>
      Prod.ext hoff (hs e.2 (hoff ▸ (hh e he).2))
    have hadd : Holds (written data (.write offset buf faults :: calls)) (hold offset buf s.held)
        s.file s.stop := by
      refine ⟨hhld.length, hhld.filed.keeps hk, hsrt, fun e he => ?_, fun p hp hW => ?_⟩
      · rcases (hmem e).mp he with rfl | he
        · exact fun p hle hlt => by rw [written, if_pos ⟨not_le.mp hb, hle, hlt⟩]
        · exact (hhld.bytes e he).keeps hk
      · rw [written] at hW
        split_ifs at hW with hin
        · exact ⟨_, (hmem _).mpr (.inl rfl), hin.2⟩
        · obtain ⟨e, he, hin⟩ := hhld.rest p hp hW
          exact ⟨e, (hmem e).mpr (.inr he), hin⟩
    have hbegun (e : Nat × Bytes) (he : e ∈ hold offset buf s.held) :
        begun (.write offset buf faults :: calls) e.1 = some e.2 := by
      rcases (hmem e).mp he with rfl | he
      · rw [begun, if_pos ⟨not_le.mp hb, hnil, rfl⟩]
      · exact hbegun e (hh e he).2
  · refine ⟨hfiled, fun _ => ⟨hadd, fun e he => ⟨?_, hbegun e he⟩⟩⟩
    rcases (hmem e).mp he with rfl | he
    · exact hgap
    · exact (hh e he).1
  · suffices hloop : (appendHeld (hold offset buf s.held) faults s).2 = _ from
      have hn := hadd.appendHeld hf hloop
      ⟨hn.1, fun hok => (hn.2 hok).imp_right fun hh e he =>
        (hh e he).imp_right (hbegun e)⟩
    rw [hold_of_lt fun e he => (not_lt.mp hgap).trans_lt (hh e he).1, appendHeld, if_neg hgap]
    cases faults.head?.join <;> rfl

end

/-- A cut at or below the end. -/
theorem Sound.setLen {len : Nat} {fault : Option WriteFault} (h : Sound data calls s)
    (hs : len ≤ s.stop) (hf : len ≤ s.file.length) :
    Sound data (.setLen len fault :: calls) (s.setLen len fault).2 := by
  cases fault with
  | some fault =>
    refine ⟨?_, nofun⟩
    dsimp only [SerialLog.setLen]
    rw [take_take, min_comm, ← take_take]
    exact h.filed.take
  | none =>
    have hcut : (s.setLen len none).2 = ⟨s.file.take len, len, [], none⟩ := by
      simp [SerialLog.setLen, Nat.sub_eq_zero_of_le hf]
    have hfiled : Agrees (written data (.setLen len none :: calls)) 0 (s.file.take len) := by
      intro p hle hlt
      have hbyte := (h.filed.take (n := len)) p hle
      rw [take_take, min_eq_left hs] at hbyte
      rw [length_take] at hlt
      rw [written, if_neg (by omega), hbyte (by rw [length_take]; exact hlt)]
    rw [hcut]
    refine ⟨hfiled.take, fun _ => ⟨⟨by simpa using hf, hfiled, .nil, nofun, fun p hp hW => ?_⟩,
      nofun⟩⟩
    exact absurd (by rw [written, if_pos hp]) hW

theorem sound_after (h : Contract data calls) : Sound data calls (after data calls) := by
  induction calls with
  | nil =>
    have hfiled : Agrees (written data []) 0 data := fun p _ _ => rfl
    refine ⟨hfiled.take, fun _ => ⟨⟨rfl, hfiled, .nil, nofun, fun p hp hW => ?_⟩, nofun⟩⟩
    exact absurd (getElem?_eq_none hp) hW
  | cons c calls ih =>
    cases c with
    | write offset buf faults => exact (ih h.1).write h.2.2 h.2.1
    | sync fault => exact ⟨(ih h).filed, (ih h).holds⟩
    | setLen len fault => exact (ih h.1).setLen h.2.1 h.2.2

/-- Unless a failure is kept, the file is the contiguous prefix of what was written since each
offset was cut, and nothing held could be appended. While one is kept, no sync succeeds and no
write past the end. -/
theorem file_eq_written (hcontract : Contract data calls) (hs : after data calls = s) :
    (s.failed = none → (∀ p < s.file.length, s.file[p]? = written data calls p) ∧
      written data calls s.file.length = none ∧ ∀ e ∈ s.held, s.file.length < e.1) ∧
    (s.failed ≠ none → (∀ fault, ∃ e, s.syncData fault = .error e) ∧
      ∀ offset buf faults, buf ≠ [] → s.stop < offset + buf.length →
        ∃ e, (s.writeAllAt offset buf faults).1 = .error e) := by
  have hs := hs ▸ sound_after hcontract
  refine ⟨fun hok => ?_, fun hfail => ?_⟩
  · obtain ⟨hhld, hheld⟩ := hs.holds hok
    rw [hhld.length]
    refine ⟨fun p hp => (hhld.filed p (Nat.zero_le p) (by simp [hp, hhld.length])).symm, ?_,
      fun e he => (hheld e he).1⟩
    by_contra hW
    obtain ⟨e, he, hle, -⟩ := hhld.rest _ le_rfl hW
    exact absurd hle (not_le.mpr (hheld e he).1)
  · obtain ⟨kind, hkind⟩ := Option.ne_none_iff_exists'.mp hfail
    refine ⟨fun fault => ?_, fun offset buf faults hne hlt => ?_⟩
    · simp [syncData, usable, hkind, Except.bind]
    · rw [writeAllAt, if_neg hne]
      split_ifs
      · exact ⟨_, rfl⟩
      · omega
      all_goals simp [usable, hkind]

end

/-- A write is held, one below it fails part way, and the log is cut there and written again. -/
def rewritten : List Call :=
  [.write 2 [7] [], .setLen 2 none, .write 2 [3, 4] [some ⟨1, ⟨.other, "short"⟩⟩],
    .write 0 [1, 2] [], .write 4 [9] []]

/-- The write that failed part way and was made again. -/
theorem file_eq_written_rewritten :
    (after [] rewritten).file = [1, 2, 7] ∧ written [] rewritten 3 = none :=
  have hcontract : Contract [] rewritten := by
    refine ⟨⟨⟨⟨⟨trivial, nofun, nofun⟩, nofun, fun p h₁ h₂ => ?_⟩, nofun, fun p h₁ h₂ => ?_⟩,
      by decide +kernel, by decide +kernel⟩, nofun, fun p h₁ h₂ => ?_⟩
    · obtain rfl | rfl : p = 0 ∨ p = 1 := by simp at h₂; omega
      all_goals exact nofun
    · obtain rfl | rfl : p = 2 ∨ p = 3 := by simp at h₂; omega
      all_goals exact nofun
    · obtain rfl : p = 2 := by simp at h₂; omega
      exact nofun
  ⟨by decide +kernel, ((file_eq_written hcontract rfl).1 (by decide +kernel)).2.1⟩

/-- The cut drops a write that lies below it, and makes bytes nobody wrote part of the file. -/
theorem setLen_loses : ∃ calls : List Call,
    calls = [.setLen 8 none, .write 8 [9] [], .write 4 [5, 6, 7, 8] []] ∧
      (after [] calls).failed = none ∧ (after [] calls).file = replicate 8 0 ∧
      (after [] calls).held = [] ∧ written [] calls 0 = none ∧ written [] calls 4 = some 5 :=
  ⟨_, rfl, by decide +kernel⟩

end SerialLog

end RegolithStore
