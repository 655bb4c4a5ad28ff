import RegolithStore.Store.Version

/-! Which tombstones a pass drops from its outputs (`compaction/retire.rs`): one that
no live snapshot is below and that nothing read below the output can still need. What
reads below is every level under the one written and, for a pass writing L0, the L0
tables older than its newest input that it does not read. -/

namespace RegolithStore

open Lib RangeTombstoneSet

structure Retirement where
  deeper : List (List LiveSst)
  older : List LiveSst
  oldestLive : Option Seq

namespace Retirement

/-- The L0 tables before the newest one in `inputs`, itself left out; all of L0 when none
of them is there. -/
def beforeNewest (l0 inputs : List LiveSst) : List LiveSst :=
  match l0.reverse.dropWhile fun f => !(inputs.any fun i => i.id == f.id) with
  | [] => l0
  | _ :: before => before.reverse

def new (target : Nat) (v : Version) (inputs : List LiveSst) (oldestLive : Option Seq) :
    Retirement where
  deeper := ((List.range maxLevels).drop (target + 1)).map v.levels
  older :=
    if target = 0 then
      (beforeNewest (v.levels 0) inputs).filter fun f => !(inputs.any fun i => i.id == f.id)
    else []
  oldestLive := oldestLive

variable (r : Retirement)

def clearOfSnapshots (seq : Seq) : Bool := r.oldestLive.all fun oldest => decide (seq ≤ oldest)

/-- Something read below the output may hold a key the tombstone covers. -/
def neededBelow (t : RangeTombstone) : Bool :=
  (r.deeper.any fun files =>
    (overlapping files t.start t.stop).any fun f => decide (f.smallest < t.stop)) ||
  r.older.any fun f => decide (f.smallest < t.stop) && decide (t.start ≤ f.largest)

/-- The range tombstones of `merged` the pass writes out. -/
def carriedTombstones (merged : RangeTombstoneSet) : RangeTombstoneSet :=
  if merged.isEmpty then merged
  else fromVec
    (merged.tombstones.filter fun t => !r.clearOfSnapshots t.seq || r.neededBelow t)

def keyBelow (k : Key) : Bool :=
  (r.deeper.any fun files => !(covering files k).isEmpty) ||
  r.older.any fun f => !(decide (k < f.smallest) || decide (f.largest < k))

variable (reduced : List Entry) {merged : RangeTombstoneSet}

/-- Drop the point deletion that ends one key's versions, newest first, when it retires. -/
def retireDeletion : List Entry :=
  match reduced.reverse with
  | [] => reduced
  | last :: before =>
    if last.valueType = .deletion ∧ (before.head?.all fun e => decide (e.valueType ≠ .merge)) ∧
        r.clearOfSnapshots last.seq ∧ !r.keyBelow last.userKey then before.reverse
    else reduced

theorem mem_carriedTombstones {t : RangeTombstone} : t ∈ (r.carriedTombstones merged).tombstones ↔
      t ∈ merged.tombstones ∧ (r.clearOfSnapshots t.seq = false ∨ r.neededBelow t) := by
  rw [carriedTombstones]
  split_ifs with h
  · simp only [isEmpty, List.isEmpty_iff] at h
    simp [h]
  · simp

theorem maxCoveringSeq_carried {k : Key}
    (h : ∀ t ∈ merged.tombstones, t.Covers k → r.neededBelow t) (snapshot : Seq) :
    (r.carriedTombstones merged).maxCoveringSeq k snapshot = merged.maxCoveringSeq k snapshot := by
  refine eq_of_forall_gt_iff fun q => ?_
  simp only [maxCoveringSeq_lt, mem_carriedTombstones]
  refine and_congr_right fun _ => ⟨fun hlt t ht htr hk => ?_, fun hlt t ht => hlt t ht.1⟩
  exact hlt t ⟨ht, .inr (h t ht hk)⟩ htr hk

theorem le_of_clear {live : List Seq} (hl : live.Pairwise (· ≤ ·))
    (holdest : r.oldestLive = live.head?) {q snapshot : Seq} (h : r.clearOfSnapshots q)
    (hmem : snapshot ∈ live) : q ≤ snapshot := by
  obtain ⟨oldest, rest, rfl⟩ := List.exists_cons_of_ne_nil (List.ne_nil_of_mem hmem)
  rw [clearOfSnapshots, holdest] at h
  have hle : q ≤ oldest := by simpa using h
  rcases List.mem_cons.mp hmem with rfl | hmem
  · exact hle
  · exact hle.trans ((List.pairwise_cons.mp hl).1 _ hmem)

theorem retireDeletion_eq :
    r.retireDeletion reduced = reduced ∨ ∃ last, reduced = r.retireDeletion reduced ++ [last] ∧
      last.valueType = .deletion ∧ r.clearOfSnapshots last.seq ∧ r.keyBelow last.userKey = false := by
  unfold retireDeletion
  cases hrev : reduced.reverse with
  | nil => exact .inl rfl
  | cons last before =>
    dsimp only
    split_ifs with h
    · refine .inr ⟨last, ?_, h.1, h.2.2.1, by simpa using h.2.2.2⟩
      rw [← List.reverse_reverse reduced, hrev, List.reverse_cons]
    · exact .inl rfl

theorem retireDeletion_sublist : (r.retireDeletion reduced).Sublist reduced := by
  rcases r.retireDeletion_eq reduced with h | ⟨last, h, -⟩
  · rw [h]
  · nth_rewrite 2 [h]
    exact List.sublist_append_left _ _

end Retirement

end RegolithStore
