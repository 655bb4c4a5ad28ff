import RegolithStore.Lib.Runs
import RegolithStore.Store.View

/-! The write-stall level (`stall_state.rs`, `commit/stall.rs`, `stall_admission` of
`engine/mod.rs`). Whoever publishes a view classifies the view that is current afterwards and stores
the level; a writer that reads a level other than 0 classifies for itself, and stores 0 if writes
are free again. The view is read in one step and the level stored in another. -/

namespace RegolithStore.Stall

open Lib Function

inductive CompactionStyle
  | level
  | fifo
  | universal

/-- The thresholds of `EngineOptions`; one that is 0 is turned off. -/
structure Options where
  level0SlowdownWritesTrigger : Nat
  level0StopWritesTrigger : Nat
  softPendingCompactionBytesLimit : UInt64
  hardPendingCompactionBytesLimit : UInt64
  maxWriteBufferNumber : Nat
  compactionStyle : CompactionStyle

variable (opts : Options)

/-- The tables of L0, the memtables and the bytes of L0. -/
def snapshot (view : ReadView) : Nat × Nat × UInt64 :=
  let l0 := view.version.levels 0
  (l0.length, 1 + view.frozen.length, l0.foldl (fun sum f => sum + f.metadata.fileSize) 0)

def stopTooManyMemtables : String := "stop: too many memtables"

/-- A stop for the tables of L0 names what would relieve it. -/
def stopTooManyL0Files : CompactionStyle → String
  | .level => "stop: too many L0 files"
  | .fifo => "stop: too many L0 files, and FIFO compaction never merges them - " ++
      "set level0_stop_writes_trigger to 0 to disable this level-style " ++
      "trigger, or lower fifo_compaction_options.max_table_files_size"
  | .universal => "stop: too many L0 files, and the universal picker's size-ratio and " ++
      "size-amplification rules decline to merge them - set " ++
      "level0_stop_writes_trigger to 0 to disable this level-style trigger, or lower " ++
      "universal_compaction_options.max_size_amplification_percent"

/-- The reason writes are stalled, and whether they stop; stops come before slowdowns. -/
def classify (view : ReadView) : Option (String × Bool) :=
  let (l0, memtables, pendingBytes) := snapshot view
  if 0 < opts.level0StopWritesTrigger ∧ opts.level0StopWritesTrigger ≤ l0 then
    some (stopTooManyL0Files opts.compactionStyle, true)
  else if 0 < opts.maxWriteBufferNumber ∧
      min (opts.maxWriteBufferNumber * 2) (2 ^ 64 - 1) ≤ memtables then
    some (stopTooManyMemtables, true)
  else if 0 < opts.hardPendingCompactionBytesLimit ∧
      opts.hardPendingCompactionBytesLimit ≤ pendingBytes then
    some ("stop: pending compaction bytes over hard limit", true)
  else if 0 < opts.level0SlowdownWritesTrigger ∧ opts.level0SlowdownWritesTrigger ≤ l0 then
    some ("slowdown: L0 files over trigger", false)
  else if 0 < opts.maxWriteBufferNumber ∧ opts.maxWriteBufferNumber < memtables then
    some ("slowdown: memtables over trigger", false)
  else if 0 < opts.softPendingCompactionBytesLimit ∧
      opts.softPendingCompactionBytesLimit ≤ pendingBytes then
    some ("slowdown: pending compaction bytes over soft limit", false)
  else none

def levelOf (view : ReadView) : Nat :=
  match classify opts view with
  | none => 0
  | some (_, false) => 1
  | some (_, true) => 2

variable {opts} in
theorem levelOf_eq_zero {view : ReadView} : levelOf opts view = 0 ↔ classify opts view = none := by
  unfold levelOf
  split <;> simp_all

/-- Where a thread is: before the classification of a `refresh`, or between a classification and
its store. -/
inductive Phase
  | idle
  | refreshing
  | storing (level : Nat)

structure State where
  view : ReadView
  level : Nat
  phase : Nat → Phase

inductive Action
  | publish (thread : Nat) (view : ReadView)
  | refresh (thread : Nat)
  | admission (thread : Nat)
  | store (thread : Nat)

variable {opts} {s s' : State} {a : Action}

def State.goes (s : State) (thread : Nat) (phase : Phase) : State :=
  { s with phase := update s.phase thread phase }

variable (opts) in
def step (s : State) : Action → Option State
  | .publish thread view =>
    match s.phase thread with
    | .idle | .refreshing => some { s.goes thread .refreshing with view }
    | .storing _ => none
  | .refresh thread =>
    match s.phase thread with
    | .refreshing => some (s.goes thread (.storing (levelOf opts s.view)))
    | _ => none
  | .admission thread =>
    match s.phase thread with
    | .idle =>
      -- level 0 admits the write at once, and one that meets a stall stores nothing
      if s.level ≠ 0 ∧ classify opts s.view = none then some (s.goes thread (.storing 0))
      else some s
    | _ => none
  | .store thread =>
    match s.phase thread with
    | .storing level => some { s.goes thread .idle with level }
    | _ => none

def opened (opts : Options) (view : ReadView) : State := ⟨view, levelOf opts view, fun _ => .idle⟩

/-- No view is published while a thread that found no stall has yet to store 0. -/
def Undisturbed (s : State) : Action → Prop
  | .publish _ _ => ∀ thread, s.phase thread ≠ .storing 0
  | _ => True

/-- A stall is shown by the level, or by a thread that will store it; none is about to hide it. -/
def Shown (opts : Options) (s : State) : Prop :=
  levelOf opts s.view ≠ 0 →
    (∀ thread, s.phase thread ≠ .storing 0) ∧ (s.level ≠ 0 ∨ ∃ thread, s.phase thread ≠ .idle)

theorem goes_ne {thread : Nat} {phase : Phase} (hold : ∀ t, s.phase t ≠ .storing 0)
    (hnew : phase ≠ .storing 0) (t : Nat) : (s.goes thread phase).phase t ≠ .storing 0 := by
  simp only [State.goes, update_apply]
  split_ifs
  · exact hnew
  · exact hold t

/-- An undisturbed step leaves a stall shown. -/
theorem shown_step (h : Shown opts s) (hquiet : Undisturbed s a) (hs : step opts s a = some s') :
    Shown opts s' := by
  cases a with
  | publish thread view =>
    have hs' : s' = { s.goes thread .refreshing with view } := by
      rw [step] at hs
      split at hs <;> simp_all
    subst hs'
    exact fun _ => ⟨goes_ne hquiet (by simp), .inr ⟨thread, by simp [State.goes]⟩⟩
  | refresh thread =>
    rw [step] at hs
    split at hs <;> cases hs
    exact fun hstall => ⟨goes_ne (h hstall).1 (by simpa), .inr ⟨thread, by simp [State.goes]⟩⟩
  | admission thread =>
    rw [step] at hs
    split at hs
    · split_ifs at hs with hf <;> cases hs
      · exact fun hstall => absurd (levelOf_eq_zero.mpr hf.2) hstall
      · exact h
    · cases hs
  | store thread =>
    rw [step] at hs
    split at hs <;> cases hs
    rename_i level hphase
    intro hstall
    have hlevel : level ≠ 0 := fun hz => (h hstall).1 thread (hz ▸ hphase)
    exact ⟨goes_ne (h hstall).1 (by simp), .inl hlevel⟩

/-- With every thread at rest, the level is not 0 while writes are stalled, if no view was published
between a classification that found no stall and its store. -/
theorem level_ne_zero_of_undisturbed {view : ReadView} {as : List Action}
    (hquiet : Along (step opts) Undisturbed (opened opts view) as)
    (hrun : run (step opts) (opened opts view) as = some s)
    (hidle : ∀ thread, s.phase thread = .idle) (hstall : (classify opts s.view).isSome) :
    s.level ≠ 0 := by
  have hopened : Shown opts (opened opts view) := fun hstall =>
    ⟨fun _ => by simp [opened], .inl hstall⟩
  have hshown := run_invariant (fun _ _ _ h hC hstep => shown_step h hC hstep) hopened hquiet hrun
  have hlevel : levelOf opts s.view ≠ 0 := fun hzero => by
    rw [levelOf_eq_zero.mp hzero] at hstall
    cases hstall
  refine (hshown hlevel).2.resolve_right ?_
  rintro ⟨thread, hbusy⟩
  exact hbusy (hidle thread)

/-- One memtable more than the active one stops writes. -/
def oneBuffer : Options := ⟨0, 0, 0, 0, 1, .level⟩

def viewOf (frozen : List MemTable) : ReadView := ⟨.new 0, frozen, .new⟩

def rotates (thread : Nat) : List Action :=
  [.publish thread (viewOf [.new 1]), .refresh thread, .store thread]

/-- A writer is admitted after a flush, and two threads rotate, the second while the first has
yet to store the stop. -/
def rotatesTwice : List Action :=
  [.publish 0 (viewOf []), .admission 1, .refresh 0, .store 1, .store 0,
    .publish 0 (viewOf [.new 2]), .refresh 0, .publish 1 (viewOf [.new 2, .new 3]), .refresh 1,
    .store 1, .store 0]

theorem level_ne_zero_of_rotations :
    ∃ s, run (step oneBuffer) (opened oneBuffer (viewOf [.new 1])) rotatesTwice = some s ∧
      s.level ≠ 0 := by
  have hfree : levelOf oneBuffer (viewOf []) = 0 ∧ classify oneBuffer (viewOf []) = none :=
    ⟨rfl, rfl⟩
  have hstop : levelOf oneBuffer (viewOf [.new 1]) = 2 ∧
      levelOf oneBuffer (viewOf [.new 2]) = 2 := ⟨rfl, rfl⟩
  refine ⟨_, rfl, @level_ne_zero_of_undisturbed oneBuffer _ (viewOf [.new 1]) rotatesTwice ?_ rfl
    (fun thread => ?_) rfl⟩
  · simp [Along, rotatesTwice, step, opened, State.goes, Undisturbed, hfree, hstop, update_apply]
    constructor <;> intro thread <;> split_ifs <;> simp
  · simp only [State.goes, opened, update_apply]
    split_ifs <;> rfl

/-- A flush finds no stall; before it stores 0, a rotation publishes a memtable too many and
stores the stop. -/
theorem level_eq_zero_of_late_store : ∃ s, run (step oneBuffer) (opened oneBuffer (viewOf [.new 1]))
        ([.publish 0 (viewOf []), .refresh 0] ++ rotates 1 ++ [.store 0]) = some s ∧
      (∀ thread, s.phase thread = .idle) ∧
      classify oneBuffer s.view = some (stopTooManyMemtables, true) ∧ s.level = 0 := by
  refine ⟨_, rfl, fun thread => ?_, rfl, rfl⟩
  simp only [State.goes, opened, update_apply]
  split_ifs <;> rfl

end RegolithStore.Stall
