import RegolithStore.Store.LatestVersion

/-! Point reads of a view (`mod.rs`): without a merge operator the walk ends at the first
entry that answers, with one it collects the key's chain and folds it. Either way the read
is decided by the key's visible versions and the newest range tombstone over the key. -/

namespace RegolithStore

open Lib List

def Entry.answer (e : Entry) : Option Value := if e.valueType = .deletion then none else some e.value

/-- `MemTable::get`: the newest entry counts, an operand as its bytes. -/
def MemTable.get (m : MemTable) (k : Key) (r : Seq) : Option (Seq × Option Value) :=
  ((Source.memtable m).visible k r).head?.map fun e => (e.seq, e.answer)

inductive LookupResult
  | found (seq : Seq) (value : Value)
  | foundTombstone (seq : Seq)
  | notInTable

/-- `SsTableReader::get`: operands are passed over. -/
def LiveSst.get (f : LiveSst) (k : Key) (r : Seq) : LookupResult :=
  match ((Source.table f).visible k r).find? fun e => decide (e.valueType ≠ .merge) with
  | some e => if e.valueType = .deletion then .foundTombstone e.seq else .found e.seq e.value
  | none => .notInTable

namespace Source

def answering : Source → Key → Seq → List Entry
  | memtable m, k, r => (memtable m).visible k r
  | table f, k, r => ((table f).visible k r).filter fun e => decide (e.valueType ≠ .merge)

theorem answering_sublist (s : Source) (k : Key) (r : Seq) :
    (s.answering k r).Sublist (s.visible k r) := by
  cases s with
  | memtable m => exact List.Sublist.refl _
  | table f => exact filter_sublist

/-- The key's visible entries through the first value or deletion. -/
def collectMergeChain (s : Source) (k : Key) (r : Seq) : List Entry :=
  (s.visible k r).take (leadingOperands (s.visible k r) + 1)

end Source

section Visits

variable (k : Key) (r : Seq)

def lookupVisit (maxRtSeq : Seq) (_ : Unit) : Source → Except (Option Value) Unit
  | .memtable m => match m.get k r with
    | some (seq, value) => .error (if maxRtSeq < seq then value else none)
    | none => .ok ()
  | .table f => match f.get k r with
    | .found seq value => .error (if maxRtSeq < seq then some value else none)
    | .foundTombstone _ => .error none
    | .notInTable => .ok ()

def chainVisit (maxRtSeq : Seq) (chain : List Entry) (s : Source) :
    Except (List Entry) (List Entry) :=
  extendChain k maxRtSeq chain (s.collectMergeChain k r)

end Visits

namespace ReadView

variable (view : ReadView) (k : Key) (r : Seq)

def lookupInView : Option Value :=
  match view.walkNewestFirst k r (lookupVisit k r) () with
  | .error found => found
  | .ok _ => none

def mergeChainInView : List Entry :=
  match view.walkNewestFirst k r (chainVisit k r) [] with
  | .error chain => chain
  | .ok (chain, _) => chain

def getWithMerge (op : MergeOperator) : Except ReadError (Option Value) :=
  resolve op k (view.mergeChainInView k r)

/-- `lookup_loaded`: as a `get` reads, through the operator where one is configured. -/
def lookupLoaded (op : Option MergeOperator) : Except ReadError (Option Value) :=
  match op with
  | some op => view.getWithMerge k r op
  | none => .ok (view.lookupInView k r)

/-- The entries an operator-less read answers from, newest first. -/
def answering : List Entry := view.sources.flatMap fun s => s.answering k r

end ReadView

/-- What the first of the entries says under the tombstone `rt`. -/
def answerOf (rt : Seq) : List Entry → Option Value
  | [] => none
  | e :: _ => if rt < e.seq then e.answer else none

section Lookup

variable {view : ReadView} {k : Key} {r : Seq} {e : Entry}

private def lookupStep (m : Seq) (_ : Unit) (e : Entry) : Except (Option Value) Unit :=
  .error (if m < e.seq then e.answer else none)

private theorem lookupStep_steady : Steady Entry.seq lookupStep := fun m m' s e h h' => by
  rw [lookupStep, lookupStep, if_pos h, if_pos h']

private theorem lookupVisit_eq (m : Seq) (u : Unit) (s : Source) :
    lookupVisit k r m u s = (s.answering k r).foldlM (lookupStep m) u := by
  cases s with
  | memtable mt =>
    simp only [lookupVisit, MemTable.get, Source.answering]
    cases (Source.memtable mt).visible k r <;> rfl
  | table f =>
    simp only [lookupVisit, LiveSst.get, Source.answering, ← head?_filter]
    cases ((Source.table f).visible k r).filter _ with
    | nil => rfl
    | cons e es =>
      by_cases hd : e.valueType = .deletion <;>
        simp [hd, lookupStep, Entry.answer, bind, Except.bind]

theorem ReadView.LsmOrdered.lookupInView_eq (h : view.LsmOrdered) :
    view.lookupInView k r = answerOf (view.coveringSeq k r) (view.answering k r) := by
  rw [lookupInView, h.walkNewestFirst_eq lookupVisit_eq lookupStep_steady
    fun s => (s.answering_sublist k r).subset, ← ReadView.answering]
  cases view.answering k r <;> rfl

private theorem head?_flatMap_answering (he : e.valueType ≠ .merge) (ss : List Source)
    (h : (ss.flatMap fun s => s.visible k r).head? = some e) :
    (ss.flatMap fun s => s.answering k r).head? = some e := by
  induction ss with
  | nil => exact h
  | cons s ss ih =>
    rw [flatMap_cons] at h ⊢
    cases hs : s.visible k r with
    | nil =>
      have hnil := s.answering_sublist k r
      rw [hs, sublist_nil] at hnil
      rw [hs] at h
      rw [hnil]
      exact ih h
    | cons e' es =>
      rw [hs] at h
      obtain rfl : e' = e := Option.some.inj h
      cases s with
      | memtable m => rw [Source.answering, hs]; rfl
      | table f => rw [Source.answering, hs, filter_cons_of_pos (by simpa using he)]; rfl

theorem ReadView.LsmOrdered.lookupInView_of_cons (h : view.LsmOrdered)
    {es : List Entry} (hv : view.visible k r = e :: es) (he : e.valueType ≠ .merge) :
    view.lookupInView k r = if view.coveringSeq k r < e.seq then e.answer else none := by
  have hh : (view.answering k r).head? = some e :=
    head?_flatMap_answering he view.sources (by rw [← ReadView.visible, hv]; rfl)
  obtain ⟨es', hes'⟩ := head?_eq_some_iff.mp hh
  rw [h.lookupInView_eq, hes', answerOf]

theorem ReadView.answering_sublist : (view.answering k r).Sublist (view.visible k r) := by
  rw [answering, visible]
  induction view.sources with
  | nil => exact .slnil
  | cons s ss ih => exact (s.answering_sublist k r).append ih

theorem ReadView.LsmOrdered.lookupInView_of_nil (h : view.LsmOrdered)
    (hv : view.visible k r = []) : view.lookupInView k r = none := by
  have hnil : (view.answering k r).Sublist (view.visible k r) := ReadView.answering_sublist
  rw [hv, sublist_nil] at hnil
  rw [h.lookupInView_eq, hnil, answerOf]

end Lookup

section Chain

variable {view : ReadView} {k : Key} {r : Seq}

private theorem chainVisit_eq (m : Seq) (chain : List Entry) (s : Source) :
    chainVisit k r m chain s = (s.visible k r).foldlM (chainStep k m) chain :=
  extendChain_eq m chain _

/-- Where the memtables say nothing of the key, a read of the view is a read of its version. -/
theorem ReadView.getWithMerge_of_tables (h : ∀ m ∈ view.memtables, ¬ (Source.memtable m).Holds k)
    (op : MergeOperator) : view.getWithMerge k r op = view.version.get op k r := by
  have hquiet : walkPlaces (fun s => s.coveringRangeTombstoneSeq k r) (chainVisit k r) 0 []
      (view.memtables.map fun m => ([Source.memtable m], [Source.memtable m])) = .ok ([], 0) := by
    refine (walkPlaces_filter (fun p hp _ => ?_) 0 []).symm.trans
      (congrArg _ (filter_false (view.memtables.map _)))
    obtain ⟨m, hm, rfl⟩ := mem_map.mp hp
    refine ⟨fun s hs q => ?_, fun s hs q chain => ?_⟩
    · rw [mem_singleton.mp hs, Source.coveringRangeTombstoneSeq_eq_zero (h m hm)]
      exact OrderBot.bot_le q
    · rw [mem_singleton.mp hs, chainVisit, Source.collectMergeChain, Source.visible_eq_nil (h m hm)]
      simp [extendChain]
  have hwalk : view.walkNewestFirst k r (chainVisit k r) [] =
      walkPlaces (fun f => f.coveringSeq k r)
        (fun maxRtSeq chain f => extendChain k maxRtSeq chain (f.collectMergeChain k r)) 0 []
        (view.version.places k) := by
    rw [walkNewestFirst, places, walkPlaces_append, hquiet]
    exact walkPlaces_map (fun _ => rfl) (fun _ _ _ => rfl) _ 0 []
  rw [getWithMerge, mergeChainInView, hwalk]
  rfl

/-- The chain folds as the versions above the newest tombstone do. -/
theorem ReadView.LsmOrdered.getWithMerge_eq (h : view.LsmOrdered) (op : MergeOperator) :
    view.getWithMerge k r op = resolve op k
      ((view.visible k r).takeWhile fun e => decide (view.coveringSeq k r < e.seq)) := by
  rw [getWithMerge, mergeChainInView, h.walkNewestFirst_eq chainVisit_eq chainStep_steady
    fun s => List.Subset.refl _, ← ReadView.visible]
  exact resolve_foldlM_chainStep op _ [] _

end Chain

section NotTouched

variable {view : ReadView} {k : Key} {lo hi : Seq}

theorem ReadView.answering_of_not_touched (hle : lo ≤ hi) (h : ¬ view.Touched k lo hi) :
    view.answering k hi = view.answering k lo := by
  refine flatMap_congr fun s hs => ?_
  cases s with
  | memtable m => exact source_visible_of_not_touched hle h hs
  | table f => exact congrArg (List.filter _) (source_visible_of_not_touched hle h hs)

theorem ReadView.LsmOrdered.lookupLoaded_of_not_touched (hv : view.LsmOrdered) (hle : lo ≤ hi)
    (h : ¬ view.Touched k lo hi) (op : Option MergeOperator) :
    view.lookupLoaded k hi op = view.lookupLoaded k lo op := by
  cases op with
  | none =>
    rw [lookupLoaded, lookupLoaded, hv.lookupInView_eq, hv.lookupInView_eq,
      answering_of_not_touched hle h, coveringSeq_of_not_touched hle h]
  | some op =>
    rw [lookupLoaded, lookupLoaded, hv.getWithMerge_eq, hv.getWithMerge_eq,
      visible_of_not_touched hle h, coveringSeq_of_not_touched hle h]

end NotTouched

end RegolithStore
