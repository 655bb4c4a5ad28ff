import RegolithStore.Commit.FrontiersRun

/-! Durable before visible, in an orderly run. Three races break it: a round that meets a stale
slot, a thread that publishes a slot a rollback is about to fail, and a decision made from a
rollback's marker. -/

namespace RegolithStore

open Lib List RingSlot Option

namespace RingSlot

variable (slot : RingSlot)

def offset : Nat := (slot.place.map Place.offset).getD 0

def recordEnd : Nat := (slot.place.map Place.stop).getD 0

end RingSlot

namespace RingState

variable {s : RingState} {first : Nat} {slot : RingSlot} {log : Nat}

/-- The slots with a record in the log that are not discarded. -/
def records (s : RingState) (log : Nat) : List RingSlot :=
  s.slots.filter fun slot => !slot.discarded && slot.isIn log

/-- The end of the longest run of records that are in the log whole. -/
def writtenTo (s : RingState) (log : Nat) : Nat :=
  wholeTo recordEnd rests (s.stampLen log) (s.records log)

theorem mem_records : slot ∈ s.records log ↔ ∃ (i : Nat) (p : Place), s.slots[i]? = some slot ∧
    slot.discarded = false ∧ slot.place = some p ∧ slot.after.log = log := by
  rw [records, mem_filter, Bool.and_eq_true, Bool.not_eq_true', isIn_eq_true, mem_iff_getElem?]
  exact ⟨fun ⟨⟨i, hi⟩, hl, ⟨p, hp⟩, hlog⟩ => ⟨i, p, hi, hl, hp, hlog⟩,
    fun ⟨i, p, hi, hl, hp, hlog⟩ => ⟨⟨i, hi⟩, hl, ⟨p, hp⟩, hlog⟩⟩

theorem spanIn?_of_isIn (hl : slot.discarded = false) (hin : slot.isIn log = true) :
    slot.spanIn? log = some (slot.offset, slot.recordEnd) := by
  obtain ⟨⟨p, hp⟩, rfl⟩ := isIn_eq_true.mp hin
  rw [spanIn?_of_live hl hp, offset, recordEnd, hp]
  rfl

theorem spanIn?_of_not_isIn (h : slot.discarded = true ∨ slot.isIn log = false) :
    slot.spanIn? log = none := by
  refine eq_none_iff_forall_ne_some.mpr fun span hs => ?_
  obtain ⟨hl, hlog, p, hp, -⟩ := spanIn?_eq_some hs
  rcases h with hd | hin
  · cases hl.symm.trans hd
  · cases hin.symm.trans (isIn_eq_true.mpr ⟨⟨p, hp⟩, hlog⟩)

theorem map_records (log : Nat) : (s.records log).map (fun slot => (slot.offset, slot.recordEnd)) =
    s.slots.filterMap (spanIn? log) := by
  rw [records]
  induction s.slots with
  | nil => rfl
  | cons slot slots ih =>
    by_cases hk : (!slot.discarded && slot.isIn log) = true
    · have hs := hk
      rw [Bool.and_eq_true, Bool.not_eq_true'] at hs
      rw [filter_cons, if_pos hk, map_cons, ih, filterMap_cons_some (spanIn?_of_isIn hs.1 hs.2)]
    · have hs := hk
      rw [Bool.and_eq_true, Bool.not_eq_true', not_and_or, Bool.not_eq_false,
        Bool.not_eq_true] at hs
      rw [filter_cons, if_neg hk, ih, filterMap_cons_none (spanIn?_of_not_isIn hs)]

variable (h : s.Sound first)

include h

theorem Sound.tiles_records (log : Nat) : ∃ e,
    Tiles offset recordEnd (s.stampLen log) (s.records log) e ∧
      s.durable log ≤ e := by
  obtain ⟨e, ht, hle, -⟩ := h.laid.records log
  rw [← map_records, tiles_map] at ht
  exact ⟨e, ht, hle⟩

theorem Sound.rests_of_durable (hs : slot ∈ s.records log)
    (hlt : slot.offset < s.durable log) : slot.rests = true := by
  obtain ⟨i, p, hi, hl, hp, rfl⟩ := mem_records.mp hs
  have hmem := mem_of_getElem? hi
  refine h.flags.rests slot hmem hl ?_
  by_cases hlog : slot.after.log = s.tip.log
  · rw [offset, hp, hlog] at hlt
    exact (h.durable slot hmem hl hlog p hp hlt).1
  · exact h.written_of_published hi hl hp (h.laid.old i slot hi hl (hp ▸ rfl) hlog)

theorem Sound.durable_le_writtenTo (log : Nat) : s.durable log ≤ s.writtenTo log := by
  obtain ⟨e, ht, hle⟩ := h.tiles_records log
  exact ht.le_wholeTo hle fun slot hs => h.rests_of_durable hs

theorem Sound.recordEnd_le (hs : slot ∈ s.records log) (himmediate : slot.immediate = true)
    (hc : slot.lastSeq ≤ s.horizon) : slot.recordEnd ≤ s.durable log := by
  obtain ⟨i, p, hi, hl, hp, rfl⟩ := mem_records.mp hs
  have hops := ((h.laid.shape slot (mem_of_getElem? hi)).place p hp).1
  have hwr := h.covers.written i slot hi hl hops (.inr hc)
  rw [isWritten, hp, himmediate] at hwr
  rw [recordEnd, hp]
  simp only [Bool.and_eq_true, Bool.not_true, Bool.false_or, decide_eq_true_iff] at hwr
  exact hwr.2

end RingState

open RingState in
/-- In every orderly run: where the read horizon covers a slot that asked for immediate durability,
its record and every record before it in the same log end at or below what is durable of the log;
and what is durable of a log ends within the longest run of records that are whole. -/
theorem durable_of_covered {horizon stampLen deciders publishers : Nat} {synced : Bool}
    {as : List RingAction} {s : RingState}
    (horderly : Along step Orderly (new horizon stampLen synced deciders publishers) as)
    (hrun : run step (new horizon stampLen synced deciders publishers) as = some s) :
    (∀ log, ∀ slot ∈ s.records log, slot.immediate = true → slot.lastSeq ≤ s.horizon →
      ∀ other ∈ s.records log, other.offset ≤ slot.offset → other.recordEnd ≤ s.durable log) ∧
      ∀ log, s.durable log ≤ s.writtenTo log := by
  have h := sound_of_run horderly hrun
  refine ⟨fun log slot hslot himmediate hcov other hoth hle => ?_, h.durable_le_writtenTo⟩
  have hend := h.recordEnd_le hslot himmediate hcov
  by_cases heq : other = slot
  · exact heq ▸ hend
  · obtain ⟨e, htil, -⟩ := h.tiles_records log
    have hpos : ∀ b ∈ s.records log, b.offset < b.recordEnd := by
      intro b hb
      obtain ⟨i, p, hi, hlive, hp, -⟩ := mem_records.mp hb
      rw [offset, recordEnd, hp]
      exact Nat.lt_add_of_pos_right ((h.laid.shape b (mem_of_getElem? hi)).place p hp).2
    have hslotPos := hpos slot hslot
    rcases htil.apart hpos hoth hslot heq with hbef | haft <;> omega

def decides (thread ops : Nat) (len : Option Nat) (immediate : Bool) : List RingAction :=
  [.readDecided thread, .loadTip thread, .install thread ops len immediate, .apply, .moveTip,
    .passDecided]

def marksTip : List RingAction := [.poison, .beginRound, .loadPublished, .endRound, .markTip]

def rollsBack : List RingAction :=
  [.freeze, .judgeNext, .turnGate, .cutLog, .failDiscarded, .resume none]

/-- A record nobody wrote is rolled back; the next one is written, synced and published. -/
def syncedAfterRollback : List RingAction :=
  decides 0 1 (some 40) false ++ marksTip ++ rollsBack ++ decides 0 1 (some 40) true ++
    [.startWrite 1, .endWrite 1 false, .mark 1, .beginRound, .loadPublished, .scan, .scan,
      .sync false, .endRound, .look 0, .readPublished 0, .readFailed 0, .readWritten 0,
      .readFailedAgain 0, .raise 0, .passPublished 0]

open RingState in
/-- The record synced after a rollback. -/
theorem durable_of_covered_syncedAfterRollback : ∃ s : RingState,
    run step (new 0 24 false 1 1) syncedAfterRollback = some s ∧
      Along step Orderly (new 0 24 false 1 1) syncedAfterRollback ∧
      (∃ slot ∈ s.records 0, slot.immediate = true ∧ slot.lastSeq ≤ s.horizon) ∧
      (∀ log, ∀ slot ∈ s.records log, slot.immediate = true → slot.lastSeq ≤ s.horizon →
        ∀ other ∈ s.records log, other.offset ≤ slot.offset → other.recordEnd ≤ s.durable log) ∧
      ∀ log, s.durable log ≤ s.writtenTo log := by
  obtain ⟨s, hs⟩ : ∃ s, run step (new 0 24 false 1 1) syncedAfterRollback = some s :=
    isSome_iff_exists.mp (by decide +kernel)
  have horderly : Along step Orderly (new 0 24 false 1 1) syncedAfterRollback := by decide +kernel
  have hcovered : ∃ slot ∈ s.records 0, slot.immediate = true ∧ slot.lastSeq ≤ s.horizon := by
    obtain rfl := some.inj (hs.symm.trans (some_get (by decide +kernel)).symm)
    decide +kernel
  exact ⟨s, hs, horderly, hcovered, durable_of_covered horderly hs⟩

/-- A rollback judges a slot whose write has returned and is not marked; it is marked then, and a
thread that looked before publication was frozen finds it written. The next slot takes the
sequence the horizon then covers. -/
def markedLate : List RingAction :=
  decides 0 1 (some 40) false ++
    [.startWrite 0, .endWrite 0 false, .look 0, .readPublished 0, .readFailed 0] ++ marksTip ++
    [.freeze, .judgeNext, .turnGate, .cutLog, .mark 0, .readWritten 0, .readFailedAgain 0,
      .failDiscarded, .raise 0, .resume none] ++ decides 0 1 (some 40) true

/-- A decision is made from a tip a rollback then replaces, and its slot is settled behind the
cut. The next record takes the place of the first, and a round ends its prefix at the stale
slot. -/
def staleBehindCut : List RingAction :=
  decides 0 1 (some 40) true ++ [.readDecided 0, .loadTip 0] ++ marksTip ++ rollsBack ++
    [.install 0 1 (some 40) false, .settleStale, .passDecided] ++ decides 0 1 (some 40) true ++
    [.beginRound, .loadPublished, .scan, .sync false]

open RingState in
/-- The horizon covers a slot that asked for immediate durability and of which nothing is durable;
in another run a record of which nothing is written counts as durable. -/
theorem covered_before_durable :
    (∃ s : RingState, run step (new 0 24 false 2 2) markedLate = some s ∧
      ∃ slot ∈ s.records 0, slot.immediate = true ∧ slot.lastSeq ≤ s.horizon ∧
        s.durable 0 < slot.recordEnd) ∧
      ∃ s : RingState, run step (new 0 24 false 2 2) staleBehindCut = some s ∧
        s.writtenTo 0 < s.durable 0 := by
  refine ⟨⟨_, (some_get (by decide +kernel : isSome _)).symm, ?_⟩,
    ⟨_, (some_get (by decide +kernel : isSome _)).symm, ?_⟩⟩
  · decide +kernel
  · decide +kernel

end RegolithStore
