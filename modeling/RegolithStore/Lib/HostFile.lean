import RegolithStore.Lib.Bytes
import RegolithStore.Lib.FrameLog

/-! Files as the host keeps them. A call on a file ends well or with an error; a write
that fails may have left a first part of its bytes. A write at an offset past the end
leaves zeros before it. A crash keeps the bytes a completed sync covered and leaves
anything after them. -/

namespace RegolithStore.Lib

open List

inductive ErrorKind
  | invalidData
  | invalidInput
  | unexpectedEof
  | notConnected
  | other
  deriving DecidableEq

structure IoError where
  kind : ErrorKind
  message : String
  deriving DecidableEq

/-- A write that fails, and how many of its bytes reached the file. -/
structure WriteFault where
  landed : Nat
  error : IoError

def writeAll (file data : Bytes) : Option WriteFault → Except IoError Unit × Bytes
  | none => (.ok (), file ++ data)
  | some fault => (.error fault.error, file ++ data.take fault.landed)

def hostCall : Option IoError → Except IoError Unit
  | none => .ok ()
  | some e => .error e

/-- What a crash may leave of a file whose first `synced` bytes were made durable. -/
structure CrashState (file : Bytes) (synced : Nat) (disk : Bytes) : Prop where
  keeps : disk.take synced = file.take synced
  length_le : synced ≤ disk.length

instance (file : Bytes) (synced : Nat) (disk : Bytes) : Decidable (CrashState file synced disk) :=
  decidable_of_iff (disk.take synced = file.take synced ∧ synced ≤ disk.length)
    ⟨fun h => ⟨h.1, h.2⟩, fun h => ⟨h.keeps, h.length_le⟩⟩

def landedOf (data : Bytes) : Option WriteFault → Bytes
  | none => data
  | some fault => data.take fault.landed

theorem landedOf_prefix (data : Bytes) (fault : Option WriteFault) : landedOf data fault <+: data := by
  cases fault with
  | none => exact prefix_refl data
  | some fault => exact take_prefix ..

def writeAt (file : Bytes) (offset : Nat) (data : Bytes) : Bytes :=
  if data = [] then file
  else (file ++ List.replicate (offset - file.length) 0).take offset ++
    (data ++ file.drop (offset + data.length))

section WriteAt

variable {file data bytes : Bytes} {offset o i : Nat}

theorem getElem?_writeAt_data (hi : i < data.length) :
    (writeAt file offset data)[offset + i]? = data[i]? := by
  have hne : data ≠ [] := ne_nil_of_length_pos (by omega)
  have hlen : ((file ++ List.replicate (offset - file.length) 0).take offset).length = offset := by
    simp
    omega
  rw [writeAt, if_neg hne, getElem?_append_right (by omega), hlen, Nat.add_sub_cancel_left,
    getElem?_append_left hi]

theorem getElem?_writeAt_of_lt (hi : i < offset) (hf : i < file.length) :
    (writeAt file offset data)[i]? = file[i]? := by
  rw [writeAt]
  split_ifs with hne
  · rfl
  · rw [getElem?_append_left (by simp; omega), getElem?_take_of_lt hi, getElem?_append_left hf]

theorem getElem?_writeAt_of_le (hi : offset + data.length ≤ i) :
    (writeAt file offset data)[i]? = file[i]? := by
  have hlen : ((file ++ List.replicate (offset - file.length) 0).take offset).length = offset := by
    simp
    omega
  rw [writeAt]
  split_ifs with hne
  · rfl
  · rw [getElem?_append_right (by omega), hlen, getElem?_append_right (by omega), getElem?_drop]
    congr 1
    omega

theorem holds_iff_getElem? :
    Holds file o bytes ↔ ∀ i, i < bytes.length → file[o + i]? = bytes[i]? := by
  simp only [Holds, prefix_iff_getElem?, getElem?_drop]
  exact ⟨fun h i hi => by rw [h i hi, getElem?_eq_getElem hi],
    fun h i hi => by rw [h i hi, getElem?_eq_getElem hi]⟩

theorem holds_writeAt : Holds (writeAt file offset data) offset data :=
  holds_iff_getElem?.mpr fun _ hi => getElem?_writeAt_data hi

theorem Holds.writeAt (h : Holds file o bytes)
    (hapart : o + bytes.length ≤ offset ∨ offset + data.length ≤ o) :
    Holds (writeAt file offset data) o bytes := by
  rw [holds_iff_getElem?] at h ⊢
  intro i hi
  rw [← h i hi]
  rcases hapart with hlt | hle
  · refine getElem?_writeAt_of_lt (by omega) ?_
    have hs := h i hi
    rw [getElem?_eq_getElem hi] at hs
    exact (List.getElem?_eq_some_iff.mp hs).1
  · exact getElem?_writeAt_of_le (by omega)

theorem Holds.rewrite (h : Holds file offset bytes) (hdata : data <+: bytes) :
    Holds (Lib.writeAt file offset data) offset bytes := by
  rw [holds_iff_getElem?] at h ⊢
  intro i hi
  by_cases hin : i < data.length
  · rw [getElem?_writeAt_data hin]
    obtain ⟨rest, rfl⟩ := hdata
    rw [getElem?_append_left hin]
  · rw [getElem?_writeAt_of_le (by omega), h i hi]

theorem Holds.take {n : Nat} (h : Holds file o bytes) (hend : o + bytes.length ≤ n) :
    Holds (file.take n) o bytes :=
  h.of_take_eq (by rw [take_take, min_self]) hend

end WriteAt

end RegolithStore.Lib
