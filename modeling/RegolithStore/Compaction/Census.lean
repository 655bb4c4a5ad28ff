import Mathlib.Tactic.IntervalCases
import RegolithStore.Manifest.Mirror

/-! The census of tables without deletion counts (`manifest.rs`, `compaction/census.rs`). A version
keeps the number of such tables edit by edit, with subtractions that stop at zero; the number is
the one a count of its tables gives. A search for the next one starts where the last was found
and goes once round the version. -/

namespace RegolithStore

open Lib List Function

variable {v : Version} {level : Nat}

namespace Version

def uncountedIn (files : List LiveSst) : Nat := files.countP fun f => f.metadata.deletions.isNone

/-- The number kept is the number of tables without counts. -/
def Counted (v : Version) : Prop :=
  v.uncounted = ((List.range maxLevels).map fun level => uncountedIn (v.levels level)).sum

theorem uncountedIn_cons (f : LiveSst) (files : List LiveSst) :
    uncountedIn (f :: files) = uncountedOf f + uncountedIn files := by
  rw [uncountedIn, countP_cons, uncountedOf, uncountedIn, Nat.add_comm]

/-- A level is replaced, and the number kept moves with its tables. -/
theorem Counted.replace (h : v.Counted) (hlevel : level < maxLevels) (files : List LiveSst)
    (added removed : Nat)
    (hin : uncountedIn (v.levels level) + added = uncountedIn files + removed) :
    Counted { v with
      levels := update v.levels level files
      uncounted := v.uncounted + added - removed } := by
  simp only [Counted, maxLevels, List.range, List.range.loop, map_cons, map_nil, sum_cons,
    sum_nil] at h hlevel ⊢
  interval_cases level <;> simp [update] at hin ⊢ <;> omega

theorem uncountedIn_filter (files : List LiveSst) (fileId : UInt64) :
    uncountedIn files = uncountedIn (files.filter fun f => f.id ≠ fileId) +
      ((files.filter fun f => f.id = fileId).map uncountedOf).sum := by
  induction files with
  | nil => rfl
  | cons f files ih =>
    by_cases h : f.id = fileId
    · simp [h, uncountedIn_cons, ih]
      omega
    · simp [h, uncountedIn_cons, ih]
      omega

theorem uncountedIn_countFirst {files : List LiveSst} {fileId : UInt64} {slot : LiveSst}
    (h : files.find? (fun f => f.id = fileId) = some slot) (d : Deletions) :
    uncountedIn files = uncountedIn (countFirst fileId d files) + uncountedOf slot := by
  induction files with
  | nil => simp at h
  | cons f files ih =>
    by_cases hf : f.id = fileId
    · obtain rfl : f = slot := by simpa [hf] using h
      simp [countFirst, hf, uncountedIn_cons, uncountedOf]
      omega
    · have h := ih (by simpa [hf] using h)
      simp [countFirst, hf, uncountedIn_cons, h]
      omega

/-- Every edit keeps the counter exact. -/
theorem Counted.apply (h : v.Counted) {e : VersionEdit} (he : e.InRange) : (e.apply v).Counted := by
  cases e with
  | addFile level f =>
    refine h.replace (he level rfl) _ (uncountedOf f) 0 ?_
    have hperm : (if level = 0 then v.levels level ++ [f]
        else insertRun LiveSst.smallest f (v.levels level)).Perm (f :: v.levels level) := by
      split_ifs
      · exact perm_append_singleton f _
      · exact insertRun_perm f _
    have hin := uncountedIn_cons f (v.levels level)
    rw [uncountedIn, ← hperm.countP_eq] at hin
    rw [Nat.add_comm, ← hin]
    rfl
  | removeFile level fileId =>
    exact h.replace (he level rfl) _ 0 _ (uncountedIn_filter (v.levels level) fileId)
  | countFile level fileId d =>
    rw [VersionEdit.apply, countFile]
    split
    · exact h
    next slot hs => exact h.replace (he level rfl) _ 0 _ (uncountedIn_countFirst hs d)
  | setLastSeq seq | setNextFileId id | setMinWalId id => exact h
  | reset nextFileId minWalId => rfl

theorem Counted.applyEdits (h : v.Counted) {edits : List VersionEdit}
    (hedits : ∀ e ∈ edits, e.InRange) : (v.applyEdits edits).Counted := by
  induction edits generalizing v with
  | nil => exact h
  | cons e edits ih =>
    obtain ⟨he, hedits⟩ := forall_mem_cons.mp hedits
    exact ih (h.apply he) hedits

end Version

namespace Census

/-- Where the census found its last table, and the tables it leaves out. -/
structure State where
  foundAt : Nat × Nat
  setAside : List UInt64

variable {levels : List Nat} {indices : Nat → List Nat} {position : Nat × Nat} {state : State}

def positions (levels : List Nat) (indices : Nat → List Nat) : List (Nat × Nat) :=
  levels.flatMap fun level => (indices level).map fun index => (level, index)

theorem mem_positions : position ∈ positions levels indices ↔
    position.1 ∈ levels ∧ position.2 ∈ indices position.1 := by
  obtain ⟨level, index⟩ := position
  simp only [positions, mem_flatMap, mem_map, Prod.mk.injEq]
  constructor
  · rintro ⟨_, hlevel, _, hindex, rfl, rfl⟩
    exact ⟨hlevel, hindex⟩
  · rintro ⟨hlevel, hindex⟩
    exact ⟨level, hlevel, index, hindex, rfl, rfl⟩

theorem nodup_positions (hlevels : levels.Nodup) (hindices : ∀ level, (indices level).Nodup) :
    (positions levels indices).Nodup := by
  refine nodup_flatMap.mpr ⟨fun level _ => ?_, hlevels.imp fun hne p hp hp' => ?_⟩
  · exact (hindices level).map fun _ _ heq => (Prod.mk.inj heq).2
  · obtain ⟨_, -, rfl⟩ := mem_map.mp hp
    obtain ⟨_, -, heq⟩ := mem_map.mp hp'
    exact hne (Prod.mk.inj heq).1.symm

/-- The positions in the order of the search: from where it begins through each level to L0,
then round from the deepest level to where it began. -/
def searched (v : Version) (state : State) : List (Nat × Nat) :=
  let tables level := (v.levels level).length
  let fromLevel := state.foundAt.1
  let fromIndex := min state.foundAt.2 (tables fromLevel)
  positions (List.range (fromLevel + 1)).reverse (fun level =>
      (List.range (tables level)).drop (if level = fromLevel then fromIndex else 0)) ++
    positions ((List.range maxLevels).drop fromLevel).reverse fun level =>
      List.range (if level = fromLevel then fromIndex else tables level)

def wanted (v : Version) (state : State) (position : Nat × Nat) : Bool :=
  (v.levels position.1)[position.2]?.any fun table =>
    table.metadata.deletions.isNone && !state.setAside.contains table.id

def nextUncounted (v : Version) (state : State) : Option (Nat × Nat) :=
  (searched v state).find? (wanted v state)

/-- The search passes every position. -/
theorem mem_searched (h : state.foundAt.1 < maxLevels) : position ∈ searched v state ↔
    position.1 < maxLevels ∧ position.2 < (v.levels position.1).length := by
  obtain ⟨level, index⟩ := position
  simp only [searched, mem_append, mem_positions, mem_reverse, mem_drop_range, mem_range]
  split_ifs with heq
  · subst heq
    omega
  · omega

/-- No position is passed twice. -/
theorem nodup_searched (v : Version) (state : State) : (searched v state).Nodup := by
  refine nodup_append.mpr ⟨?_, ?_, ?_⟩
  · exact nodup_positions (nodup_reverse.mpr nodup_range) fun _ =>
      (nodup_range.sublist (drop_sublist _ _))
  · exact nodup_positions (nodup_reverse.mpr (nodup_range.sublist (drop_sublist _ _))) fun _ =>
      nodup_range
  · rintro ⟨level, index⟩ hon _ hround rfl
    simp only [mem_positions, mem_reverse, mem_drop_range, mem_range] at hon hround
    obtain rfl : level = state.foundAt.1 := by omega
    rw [if_pos rfl] at hon hround
    omega

/-- The number of tables without counts is kept exactly by every batch of edits, and a search
passes each position of the version once and finds a table to count if there is one. -/
theorem census_exact : Version.new.Counted ∧
    (∀ (v : Version) edits, v.Counted → VersionEdit.validate edits = .ok () →
      (v.applyEdits edits).Counted) ∧
    ∀ v state, state.foundAt.1 < maxLevels → (searched v state).Nodup ∧
      (∀ position, position ∈ searched v state ↔
        position.1 < maxLevels ∧ position.2 < (v.levels position.1).length) ∧
      (∀ position, nextUncounted v state = some position →
        position.1 < maxLevels ∧ wanted v state position = true) ∧
      (nextUncounted v state = none →
        ∀ position, position.1 < maxLevels → wanted v state position = false) := by
  refine ⟨rfl, fun v edits hv hvalid => hv.applyEdits (VersionEdit.validate_eq_ok hvalid), ?_⟩
  intro v state hstate
  refine ⟨nodup_searched v state, fun _ => mem_searched hstate, fun position hfound => ?_, ?_⟩
  · exact ⟨((mem_searched hstate).mp (mem_of_find?_eq_some hfound)).1, find?_some hfound⟩
  · intro hnone position hlevel
    rw [nextUncounted, find?_eq_none] at hnone
    rcases Nat.lt_or_ge position.2 (v.levels position.1).length with hlt | hge
    · simpa using hnone position ((mem_searched hstate).mpr ⟨hlevel, hlt⟩)
    · rw [wanted, getElem?_eq_none hge]
      rfl

end Census

end RegolithStore
