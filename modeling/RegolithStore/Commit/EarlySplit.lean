import RegolithStore.Commit.Early

/-! Splitting validation at a horizon changes no verdict. A mark is sound for the later view
if what it says of the item is so up to the horizon; every attempt keeps the marks it made
sound, on whatever view it ran. Deciding from sound marks is then, item by item, deciding in
full. -/

namespace RegolithStore

open Lib List ReadView ValidationSet

/-! ### Sound marks -/

def lastMergedAfter : Option Key → List WriteBatchOp → Option Key
  | last, [] => last
  | _, .merge key _ :: rest => lastMergedAfter (some key) rest
  | last, .put .. :: rest | last, .delete .. :: rest | last, .deleteRange .. :: rest =>
    lastMergedAfter last rest

theorem lastMergedAfter_append (last : Option Key) (ops rest : List WriteBatchOp) :
    lastMergedAfter last (ops ++ rest) = lastMergedAfter (lastMergedAfter last ops) rest := by
  induction ops generalizing last with
  | nil => rfl
  | cons o ops ih => cases o <;> exact ih _

section Sound

variable (checks : ValidationSet) (ops : List WriteBatchOp) (later : ReadView) (horizon : Seq)

def ReadSound (check : ConflictKey) (mark : Mark) : Prop :=
  mark = .dirty ∨ mark = .clean ∧ ¬ later.Touched check.key check.observedSeq horizon

def RangeSound (range : RangeCheck) (mark : Mark) : Prop :=
  mark = .dirty ∨ mark = .clean ∧
    ∀ k, range.lo ≤ k → k < range.hi → ¬ later.Touched k range.observedSeq horizon

variable (observedSeq : Seq)

/-- Operands landed on the key, and up to the horizon nothing but operands. -/
def OnlyOperands (key : Key) : Prop :=
  (∃ e, later.HasEntry e ∧ e.userKey = key ∧ observedSeq < e.seq) ∧
  (∀ seq, later.HasTombstone key seq → observedSeq < seq → horizon < seq) ∧
  ∀ e, later.HasEntry e → e.userKey = key → e.valueType ≠ .merge → observedSeq < e.seq →
    horizon < e.seq

/-- An exempt key is only looked up for a put, and a read stands for a write of its key. -/
def WriteSound (key : Key) (mine : Access) (mark : Mark) : Prop :=
  (key ∈ checks.exempt → mine = .put →
    mark = .dirty ∨ mark = .clean ∧ ¬ later.Touched key observedSeq horizon) ∧
  (key ∉ checks.exempt → checks.readStandsFor key = false →
    mark = .dirty ∨ (mark = .clean ∧ ¬ later.Touched key observedSeq horizon) ∨
    (mark = .commuted ∧ checks.blind ops mine key = true ∧
      OnlyOperands later horizon observedSeq key))

/-- The `index`-th operation; a repeat of the key merged last is not asked about. -/
def OpSound (index : Nat) (mark : Mark) : WriteBatchOp → Prop
  | .put key _ => WriteSound checks ops later horizon observedSeq key .put mark
  | .delete key => WriteSound checks ops later horizon observedSeq key .delete mark
  | .merge key _ => lastMergedAfter none (ops.take index) = some key ∨
      WriteSound checks ops later horizon observedSeq key .merge mark
  | .deleteRange .. => True

/-- The mark of an item, by its place among reads, scans and operations. -/
structure ItemSound (index : Nat) (mark : Mark) : Prop where
  read : ∀ check, checks.reads[index]? = some check → ReadSound later horizon check mark
  range : checks.reads.length ≤ index → ∀ range,
    checks.ranges[index - checks.reads.length]? = some range → RangeSound later horizon range mark
  op : checks.reads.length + checks.ranges.length ≤ index → ∀ observedSeq ∈ checks.writesAt, ∀ o,
    ops[index - (checks.reads.length + checks.ranges.length)]? = some o →
      OpSound checks ops later horizon observedSeq
        (index - (checks.reads.length + checks.ranges.length)) mark o

def Marker.mark (m : Marker) (index : Nat) : Mark := m.marks.getD index .clean

/-- The marks before `index` are sound, and those from there on not made yet. -/
structure Marker.Sound (m : Marker) (index : Nat) : Prop where
  total : m.total = checks.items ops
  length : m.marks = [] ∨ m.marks.length = m.total
  done : ∀ i < index, ItemSound checks ops later horizon i (m.mark i)
  fresh : ∀ i, index ≤ i → m.mark i = .clean

end Sound

section Marker

variable {checks : ValidationSet} {ops : List WriteBatchOp} {later : ReadView} {horizon : Seq}
  {m : Marker} {index : Nat} {mark : Mark}

section

variable (hlength : m.marks = [] ∨ m.marks.length = m.total)

include hlength

private theorem marks_allocated :
    (if m.marks.isEmpty then List.replicate m.total .clean else m.marks).length = m.total ∧
    ∀ i, (if m.marks.isEmpty then List.replicate m.total .clean else m.marks).getD i .clean =
      m.mark i := by
  by_cases hnil : m.marks = []
  · simp [hnil, Marker.mark, getD_eq_getElem?_getD, getElem?_replicate]
    intro i
    split_ifs <;> rfl
  · have he : m.marks.isEmpty = false := by simpa using hnil
    simp [he, hlength.resolve_left hnil, Marker.mark]

theorem Marker.mark_set (hidx : index < m.total) (hm : mark ≠ .clean) (i : Nat) :
    (m.set index mark).mark i = if i = index then mark else m.mark i := by
  obtain ⟨hlen, hget⟩ := marks_allocated hlength
  rw [← hget, Marker.set, if_neg hm, Marker.mark, getD_eq_getElem?_getD, getElem?_set,
    hlen, getD_eq_getElem?_getD]
  by_cases heq : index = i
  · simp [heq, heq ▸ hidx]
  · simp [heq, Ne.symm heq]

theorem Marker.length_set (mark : Mark) :
    (m.set index mark).marks = [] ∨ (m.set index mark).marks.length = (m.set index mark).total := by
  by_cases hm : mark = .clean
  · rwa [Marker.set, if_pos hm]
  · rw [Marker.set, if_neg hm]
    exact .inr ((List.length_set ..).trans (marks_allocated hlength).1)

end

section

variable (h : m.Sound checks ops later horizon index)

include h

theorem Marker.Sound.keep (hitem : ItemSound checks ops later horizon index .clean) :
    m.Sound checks ops later horizon (index + 1) := by
  refine ⟨h.total, h.length, fun i hi => ?_, fun i hi => h.fresh i (by omega)⟩
  rcases (Nat.lt_succ_iff.mp hi).lt_or_eq with hlt | rfl
  · exact h.done i hlt
  · rwa [h.fresh i le_rfl]

theorem Marker.Sound.set (hidx : index < checks.items ops) (hm : mark ≠ .clean)
    (hitem : ItemSound checks ops later horizon index mark) :
    (m.set index mark).Sound checks ops later horizon (index + 1) := by
  have hset := Marker.mark_set h.length (h.total ▸ hidx) hm
  refine ⟨?_, Marker.length_set h.length mark, fun i hi => ?_, fun i hi => ?_⟩
  · rw [Marker.set, if_neg hm]
    exact h.total
  · rw [hset]
    split_ifs with heq
    · rwa [heq]
    · exact h.done i (by omega)
  · rw [hset, if_neg (by omega)]
    exact h.fresh i (by omega)

theorem Marker.Sound.congr (dirtyBefore : Bool) :
    ({ m with dirtyBefore } : Marker).Sound checks ops later horizon index :=
  ⟨h.total, h.length, h.done, h.fresh⟩

end

end Marker

/-! ### One item -/

variable {range : RangeCheck} {rest : List WriteBatchOp} {check : ConflictKey} {mine : Access}
  {i : Nat}

section Item

variable {checks : ValidationSet} {ops : List WriteBatchOp} {later : ReadView} {horizon : Seq}
  {index : Nat} {mark : Mark}

theorem ItemSound.of_read (hc : checks.reads[index]? = some check)
    (h : ReadSound later horizon check mark) : ItemSound checks ops later horizon index mark := by
  have hlt : index < checks.reads.length := (List.getElem?_eq_some_iff.mp hc).1
  refine ⟨fun check' hcheck' => ?_, fun hle => ?_, fun hle => ?_⟩
  · rw [hc, Option.some.injEq] at hcheck'
    exact hcheck' ▸ h
  · omega
  · omega

theorem ItemSound.of_range (hle : checks.reads.length ≤ index)
    (hr : checks.ranges[index - checks.reads.length]? = some range)
    (h : RangeSound later horizon range mark) : ItemSound checks ops later horizon index mark := by
  have hlt : index - checks.reads.length < checks.ranges.length :=
    (List.getElem?_eq_some_iff.mp hr).1
  refine ⟨fun check hc => ?_, fun _ range' hrange' => ?_, fun hle => ?_⟩
  · have := (List.getElem?_eq_some_iff.mp hc).1
    omega
  · rw [hr, Option.some.injEq] at hrange'
    exact hrange' ▸ h
  · omega

theorem ItemSound.of_op (hidx : index = checks.reads.length + checks.ranges.length + i)
    {o : WriteBatchOp} (ho : ops[i]? = some o) (h : ∀ observedSeq ∈ checks.writesAt,
      OpSound checks ops later horizon observedSeq i mark o) :
    ItemSound checks ops later horizon index mark := by
  subst hidx
  refine ⟨fun check hc => ?_, fun _ range hr => ?_, fun _ observedSeq hobs o' ho' => ?_⟩
  · have := (List.getElem?_eq_some_iff.mp hc).1
    omega
  · have := (List.getElem?_eq_some_iff.mp hr).1
    omega
  · rw [Nat.add_sub_cancel_left] at ho' ⊢
    rw [ho, Option.some.injEq] at ho'
    exact ho' ▸ h observedSeq hobs

end Item

/-! ### One attempt -/

/-- A view an attempt may run on: in order, and what the later view extends. -/
structure ReadView.EarlierOf (view later : ReadView) (horizon : Seq) : Prop where
  ordered : view.LsmOrdered
  within : view.TablesWithin
  proper : view.TombstonesProper
  extended : later.Extends view horizon

namespace ReadView.EarlierOf

variable {view later : ReadView} {horizon observed : Seq} {k lo hi : Key}
  (h : view.EarlierOf later horizon)

include h

theorem not_touched (hnot : ¬ view.Touched k observed ⊤) : ¬ later.Touched k observed horizon :=
  fun ht => hnot ((h.extended.touched_old le_rfl ht).mono le_top)

theorem not_touched_of_latest (hn : ∀ v ∈ view.latestVersionAfter k observed, v.1 ≤ observed) :
    ¬ later.Touched k observed horizon := by
  refine h.not_touched fun ht => ?_
  obtain ⟨v, hv, hlt⟩ :=
    (Option.any_eq_true _ _).mp ((h.ordered.latestVersionAfter_any h.within).mpr ht)
  exact absurd (hn v hv) (not_le.mpr (of_decide_eq_true hlt))

theorem touched_of_latest {v : Seq × WriteKind} (hv : view.latestVersionAfter k observed = some v)
    (hlt : observed < v.1) : later.Touched k observed ⊤ := by
  refine h.extended.touched ((h.ordered.latestVersionAfter_any h.within).mp ?_)
  rw [hv]
  simpa using hlt

theorem writtenInRange_isSome : (view.writtenInRange lo hi observed).isSome = true ↔
    ∃ k, (lo ≤ k ∧ k < hi) ∧ view.Touched k observed ⊤ := by
  rw [writtenInRange, h.ordered.writtenInRangeOf_isSome h.within h.proper (by simp) le_top]
  constructor
  · rintro ⟨hlt, ht⟩
    exact (rangeTouched_iff h.proper hlt).mp ht
  · rintro ⟨k, hk, ht⟩
    have hlt := hk.1.trans_lt hk.2
    exact ⟨hlt, (rangeTouched_iff h.proper hlt).mpr ⟨k, hk, ht⟩⟩

theorem not_touched_of_writtenInRange (hn : view.writtenInRange lo hi observed = none) :
    ∀ k, lo ≤ k → k < hi → ¬ later.Touched k observed horizon := by
  intro k h1 h2
  refine h.not_touched fun ht => ?_
  have := h.writtenInRange_isSome.mpr ⟨k, ⟨h1, h2⟩, ht⟩
  simp [hn] at this

theorem touched_of_writtenInRange {w : Key × Seq × WriteKind}
    (hs : view.writtenInRange lo hi observed = some w) :
    ∃ k, (lo ≤ k ∧ k < hi) ∧ later.Touched k observed ⊤ := by
  obtain ⟨k, hk, ht⟩ := h.writtenInRange_isSome.mp (by rw [hs]; rfl)
  exact ⟨k, hk, h.extended.touched ht⟩

theorem onlyOperands (hrep : ¬ ReplacedAbove observed (view.coveringSeq k ⊤) (view.visible k ⊤))
    (hs : ∃ e ∈ view.visible k ⊤, observed < e.seq) : OnlyOperands later horizon observed k := by
  rw [replacedAbove_iff_has, not_or] at hrep
  obtain ⟨e, he, hlt⟩ := hs
  obtain ⟨hhas, hk, -⟩ := mem_visible.mp he
  refine ⟨⟨e, h.extended.entry hhas, hk, hlt⟩, fun seq hseq hlt => ?_, fun e he hk hm hlt => ?_⟩
  · exact not_le.mp fun hle => hrep.1 ⟨seq, h.extended.tombstone_old hseq hle, hlt⟩
  · exact not_le.mp fun hle => hrep.2 ⟨e, h.extended.entry_old he hle, hk, hm, hlt⟩

end ReadView.EarlierOf

section Attempt

variable (checks : ValidationSet) (ops : List WriteBatchOp) (later : ReadView) (horizon : Seq)

def Refused : Prop :=
  (∃ check ∈ checks.reads, check.rule = .seq ∧ check.presenceOnly = false ∧
    later.Touched check.key check.observedSeq ⊤) ∨
  (∃ range ∈ checks.ranges, ∃ k, (range.lo ≤ k ∧ k < range.hi) ∧
    later.Touched k range.observedSeq ⊤) ∨
  ∃ observedSeq ∈ checks.writesAt, ∃ key operand, .merge key operand ∈ ops ∧ key ∉ checks.exempt ∧
    checks.readStandsFor key = false ∧ checks.blind ops .merge key = true ∧
    ReplacedAbove observedSeq (later.coveringSeq key ⊤) (later.visible key ⊤)

def EndSound (stop : Nat) : Except EarlyStop Marker → Prop
  | .ok m => m.Sound checks ops later horizon stop
  | .error (.cold index m) => m.Sound checks ops later horizon index
  | .error (.conflict _) => Refused checks ops later

variable {checks ops later horizon} {view : ReadView} (cold : Nat → Bool) {m : Marker} {index : Nat}
  {observedSeq : Seq} {progress : Option EarlyProgress} {stop : Nat}

private theorem drop_eq_cons {α : Type*} {l rest : List α} {a : α}
    (h : l.drop i = a :: rest) : l[i]? = some a ∧ i < l.length ∧ l.drop (i + 1) = rest := by
  have hget : l[i]? = some a := by rw [← head?_drop, h]; rfl
  exact ⟨hget, (List.getElem?_eq_some_iff.mp hget).1, by rw [← List.tail_drop, h]; rfl⟩

variable (hview : view.EarlierOf later horizon)

include hview

/-- The loop over the reads ends soundly. -/
theorem earlyReads_sound {rest : List ConflictKey} (hs : index + rest.length = stop)
    (hr : checks.reads.drop index = rest) (hm : m.Sound checks ops later horizon index) :
    EndSound checks ops later horizon stop (earlyReads view cold horizon index rest m) := by
  induction rest generalizing index m with
  | nil => exact hs ▸ hm
  | cons check rest ih =>
    obtain ⟨hget, hlt, hd⟩ := drop_eq_cons hr
    have hitems : index < checks.items ops := by rw [items]; omega
    have hn {m' : Marker} := ih (m := m') ((Nat.succ_add_eq_add_succ ..).trans hs) hd
    have hclean : ¬ later.Touched check.key check.observedSeq horizon →
        m.Sound checks ops later horizon (index + 1) := fun hnot =>
      hm.keep (.of_read hget (.inr ⟨rfl, hnot⟩))
    rw [earlyReads]
    split
    case isTrue ho => exact hn (hclean (not_touched_of_le ho))
    split
    case isTrue => exact hm
    cases hl : view.latestVersionAfter check.key check.observedSeq with
    | none => exact hn (hclean (hview.not_touched_of_latest (by simp [hl])))
    | some latest =>
      simp only
      split_ifs with hle hfinal
      · exact hn (hclean (hview.not_touched_of_latest (by simpa [hl] using hle)))
      · exact .inl ⟨check, mem_of_getElem? hget, hfinal.1, hfinal.2.1,
          hview.touched_of_latest hl (not_le.mp hle)⟩
      · exact hn (hm.set hitems (by simp) (.of_read hget (.inl rfl)))

/-- So does the loop over the scans. -/
theorem earlyRanges_sound {rest : List RangeCheck} (hle : checks.reads.length ≤ index)
    (hr : checks.ranges.drop (index - checks.reads.length) = rest)
    (hs : index + rest.length = stop) (hm : m.Sound checks ops later horizon index) :
    EndSound checks ops later horizon stop (earlyRanges view cold horizon index rest m) := by
  induction rest generalizing index m with
  | nil => exact hs ▸ hm
  | cons range rest ih =>
    obtain ⟨hget, hlt, hd⟩ := drop_eq_cons hr
    have hitems : index < checks.items ops := by rw [items]; omega
    rw [← Nat.sub_add_comm hle] at hd
    have hn {m' : Marker} :=
      ih (m := m') (by omega) hd ((Nat.succ_add_eq_add_succ ..).trans hs)
    have hclean : (∀ k, range.lo ≤ k → k < range.hi → ¬ later.Touched k range.observedSeq horizon) →
        m.Sound checks ops later horizon (index + 1) := fun hnot =>
      hm.keep (.of_range hle hget (.inr ⟨rfl, hnot⟩))
    rw [earlyRanges]
    split
    case isTrue ho =>
      exact hn (hclean fun k _ _ => not_touched_of_le ho)
    split
    case isTrue => exact hm
    cases hwr : view.writtenInRange range.lo range.hi range.observedSeq with
    | none => exact hn (hclean (hview.not_touched_of_writtenInRange hwr))
    | some written =>
      split_ifs
      · exact hn (hm.set hitems (by simp) (.of_range hle hget (.inl rfl)))
      · exact .inr (.inl ⟨range, mem_of_getElem? hget, hview.touched_of_writtenInRange hwr⟩)

/-- The mark of a written key is sound. -/
theorem earlyWrite_sound (ho : observedSeq ∈ checks.writesAt) {key : Key}
    (hmrg : mine = .merge → ∃ operand, .merge key operand ∈ ops) (hitems : index < checks.items ops)
    (hitem : ∀ {mark}, WriteSound checks ops later horizon observedSeq key mine mark →
      ItemSound checks ops later horizon index mark)
    (hm : m.Sound checks ops later horizon index) :
    EndSound checks ops later horizon (index + 1)
      (earlyWrite checks ops view cold observedSeq index key mine m) := by
  have hdirty : ItemSound checks ops later horizon index .dirty :=
    hitem ⟨fun _ _ => .inl rfl, fun _ _ => .inl rfl⟩
  have hclean : ¬ later.Touched key observedSeq horizon →
      ItemSound checks ops later horizon index .clean := fun hnot =>
    hitem ⟨fun _ _ => .inr ⟨rfl, hnot⟩, fun _ _ => .inr (.inl ⟨rfl, hnot⟩)⟩
  -- the mark of a key that is looked up for anything above the snapshot
  have hlnd : ∀ {m' : Marker}, m'.Sound checks ops later horizon index →
      (if view.landedAboveHorizon key observedSeq false then m'.set index .dirty else m').Sound
        checks ops later horizon (index + 1) := fun hm' => by
    have hiff := hview.ordered.landedAboveHorizon_iff (k := key) hview.within
      (show false = true → view.version.lastSeq ≤ observedSeq by simp)
    split_ifs with hl
    · exact hm'.set hitems (by simp) hdirty
    · exact hm'.keep (hclean (hview.not_touched fun ht => hl (hiff.mpr ht)))
  rw [earlyWrite]
  split
  case isTrue he =>
    split
    case isTrue =>
      split
      case isTrue => exact hm
      case isFalse => exact (hlnd hm).congr true
    case isFalse hput =>
      exact hm.keep (hitem ⟨fun _ h => absurd h hput, fun h => absurd he h⟩)
  case isFalse he =>
  split
  case isTrue hstd =>
    exact hm.keep (hitem ⟨fun h => absurd h he, fun _ h => by simp [hstd] at h⟩)
  case isFalse hstd =>
  split
  case isTrue => exact hm
  by_cases hblind : checks.blind ops mine key = true
  · rw [if_pos hblind]
    have hmine : mine = .merge := by
      rw [ValidationSet.blind, Bool.and_eq_true] at hblind
      exact of_decide_eq_true hblind.1
    by_cases hrep : ReplacedAbove observedSeq (view.coveringSeq key ⊤) (view.visible key ⊤)
    · obtain ⟨seq, kind, heq, -⟩ := hview.ordered.landedAbove_replaced hrep
      rw [heq]
      split_ifs
      · exact hm.set hitems (by simp) hdirty
      · obtain ⟨operand, hmem⟩ := hmrg hmine
        exact .inr (.inr ⟨observedSeq, ho, key, operand, hmem, he, by simpa using hstd,
          hmine ▸ hblind, hview.extended.replacedAbove hrep⟩)
    · rw [hview.ordered.landedAbove_not_replaced hrep]
      by_cases hs : ∃ e ∈ view.visible key ⊤, observedSeq < e.seq
      · rw [if_pos hs]
        exact hm.set hitems (by simp) (hitem ⟨fun h => absurd h he, fun _ _ =>
          .inr (.inr ⟨rfl, hblind, hview.onlyOperands hrep hs⟩)⟩)
      · rw [if_neg hs]
        refine hm.keep (hclean (hview.not_touched fun ht => ?_))
        rw [touched_iff] at ht
        exact ht.elim (fun hlt => hrep (.inl hlt)) hs
  · rw [if_neg hblind]
    have := hlnd hm
    split_ifs at this ⊢ <;> exact this

omit hview in
private theorem EndSound.bind {mid stop : Nat} {x : Except EarlyStop Marker}
    {f : Marker → Except EarlyStop Marker} (hx : EndSound checks ops later horizon mid x)
    (hf : ∀ m, m.Sound checks ops later horizon mid → EndSound checks ops later horizon stop (f m)) :
    EndSound checks ops later horizon stop (x >>= f) := by
  rcases x with (conflict | ⟨index, m⟩) | m
  · exact hx
  · exact hx
  · exact hf m hx

/-- So does the loop over the operations. -/
theorem earlyOps_sound
    (ho : observedSeq ∈ checks.writesAt) {lastMerged : Option Key} (hr : ops.drop i = rest)
    (hstop : checks.reads.length + checks.ranges.length + i + rest.length = stop)
    (hmrgd : ∀ key ∈ lastMerged, lastMergedAfter none (ops.take i) = some key)
    (hm : m.Sound checks ops later horizon (checks.reads.length + checks.ranges.length + i)) :
    EndSound checks ops later horizon stop (earlyOps checks ops view cold observedSeq
      (checks.reads.length + checks.ranges.length + i) lastMerged rest m) := by
  induction rest generalizing i lastMerged m with
  | nil => exact hstop ▸ hm
  | cons o rest ih =>
    obtain ⟨hget, hlt, hd⟩ := drop_eq_cons hr
    have ht : ops.take (i + 1) = ops.take i ++ [o] := by
      rw [take_add_one, hget]
      rfl
    have hn {m' : Marker} {last : Option Key} :=
      @ih (i + 1) m' last hd ((Nat.succ_add_eq_add_succ ..).trans hstop)
    have hitems : checks.reads.length + checks.ranges.length + i < checks.items ops := by
      rw [items]
      omega
    have hitem : ∀ {mark}, (∀ observedSeq ∈ checks.writesAt,
        OpSound checks ops later horizon observedSeq i mark o) →
        ItemSound checks ops later horizon (checks.reads.length + checks.ranges.length + i) mark :=
      fun h => .of_op rfl hget h
    have hs : ∀ {observedSeq'}, observedSeq' ∈ checks.writesAt → observedSeq' = observedSeq :=
      fun h => Option.mem_unique h ho
    cases o with
    | put key value | delete key =>
      refine (earlyWrite_sound cold hview ho (by simp) hitems
        (fun hsnd => hitem fun _ h => hs h ▸ hsnd) hm).bind fun m' hm' => hn ?_ hm'
      rw [ht, lastMergedAfter_append]
      exact hmrgd
    | deleteRange start stop =>
      refine hn ?_ (hm.keep (hitem fun _ _ => trivial))
      rw [ht, lastMergedAfter_append]
      exact hmrgd
    | merge key operand =>
      have hl : ∀ key' ∈ some key, lastMergedAfter none (ops.take (i + 1)) = some key' := by
        rw [ht, lastMergedAfter_append]
        exact fun key' h => h
      rw [earlyOps]
      split_ifs with hrepeat
      · refine hn (fun key' h => hl key' (hrepeat ▸ h)) (hm.keep (hitem fun _ _ => .inl ?_))
        exact hmrgd key hrepeat
      · exact (earlyWrite_sound cold hview ho
          (fun _ => ⟨operand, mem_of_getElem? hget⟩) hitems (fun hsnd => hitem fun _ h => .inr (hs h ▸ hsnd)) hm).bind fun m' hm' =>
            hn hl hm'

omit hview in
private theorem opSound_of_le (hle : horizon ≤ observedSeq) (i : Nat) (o : WriteBatchOp) :
    OpSound checks ops later horizon observedSeq i .clean o := by
  have hs : ∀ key mine, WriteSound checks ops later horizon observedSeq key mine .clean :=
    fun key mine => ⟨fun _ _ => .inr ⟨rfl, not_touched_of_le hle⟩,
      fun _ _ => .inr (.inl ⟨rfl, not_touched_of_le hle⟩)⟩
  cases o with
  | put key value => exact hs key .put
  | delete key => exact hs key .delete
  | merge key operand => exact .inr (hs key .merge)
  | deleteRange start stop => trivial

omit hview in
private theorem Marker.Sound.finish (h : m.Sound checks ops later horizon index)
    (hidx : checks.reads.length + checks.ranges.length ≤ index)
    (hws : ∀ observedSeq ∈ checks.writesAt, horizon ≤ observedSeq) :
    m.Sound checks ops later horizon (max index (checks.items ops)) := by
  refine ⟨h.total, h.length, fun i hi => ?_, fun i hi => h.fresh i (by omega)⟩
  rcases Nat.lt_or_ge i index with hlt | hge
  · exact h.done i hlt
  · obtain ⟨j, rfl⟩ := Nat.exists_eq_add_of_le (hidx.trans hge)
    have hj : j < ops.length := by rw [items] at hi; omega
    rw [h.fresh _ hge]
    exact .of_op rfl (getElem?_eq_getElem hj) fun observedSeq ho =>
      opSound_of_le (hws observedSeq ho) j _

/-- And the loops one after the other. -/
theorem earlyItems_sound (hm : m.Sound checks ops later horizon index) :
    EndSound checks ops later horizon (max index (checks.items ops))
      (earlyItems checks ops view cold horizon index m) := by
  have hr : index + (checks.reads.drop index).length =
      checks.reads.length + (index - checks.reads.length) := by
    rw [length_drop]
    omega
  have hboth : checks.reads.length + (index - checks.reads.length) +
      (checks.ranges.drop (index - checks.reads.length)).length =
        checks.reads.length + checks.ranges.length +
          (index - (checks.reads.length + checks.ranges.length)) := by
    rw [length_drop]
    omega
  refine (earlyReads_sound cold hview hr rfl hm).bind fun m hm => ?_
  refine (earlyRanges_sound cold hview (Nat.le_add_right _ _)
    (congrArg checks.ranges.drop (Nat.add_sub_cancel_left ..)) hboth hm).bind fun m hm => ?_
  have hmax : max (checks.reads.length + checks.ranges.length +
      (index - (checks.reads.length + checks.ranges.length))) (checks.items ops) =
        max index (checks.items ops) := by
    rw [items]
    omega
  cases hws : checks.writesAt with
  | none => exact hmax ▸ hm.finish (by omega) (by simp [hws])
  | some observedSeq =>
    simp only
    split_ifs with ho
    · have hn : ∀ key ∈ (none : Option Key), lastMergedAfter none (ops.take
          (index - (checks.reads.length + checks.ranges.length))) = some key := by simp
      have hlen : checks.reads.length + checks.ranges.length +
          (index - (checks.reads.length + checks.ranges.length)) +
          (ops.drop (index - (checks.reads.length + checks.ranges.length))).length =
            max index (checks.items ops) := by
        rw [length_drop, items]
        omega
      exact earlyOps_sound cold hview hws rfl hlen hn hm
    · exact hmax ▸ hm.finish (by omega) (by simpa [hws] using ho)

omit hview

/-- The verdict of an attempt: sound marks, or an item no later write makes pass. -/
def VerdictSound (checks : ValidationSet) (ops : List WriteBatchOp) (later : ReadView)
    (horizon : Seq) : EarlyVerdict → Prop
  | .conflict _ => Refused checks ops later
  | .marks early => early.horizon = horizon ∧
      ∀ i < checks.items ops, ItemSound checks ops later horizon i (early.mark i)

def ProgressSound (checks : ValidationSet) (ops : List WriteBatchOp) (later : ReadView)
    (horizon : Seq) (progress : EarlyProgress) : Prop :=
  progress.horizon = horizon ∧ progress.marker.Sound checks ops later horizon progress.index

private theorem itemSound_of_observedAtHorizon (h : observedAtHorizon checks ops horizon = true)
    (i : Nat) : ItemSound checks ops later horizon i .clean := by
  simp only [observedAtHorizon, Bool.and_eq_true, all_eq_true, decide_eq_true_eq,
    Bool.or_eq_true, List.isEmpty_iff] at h
  obtain ⟨⟨hrds, hrgs⟩, hws⟩ := h
  refine ⟨fun check hc => ?_, fun _ range hr => ?_, fun _ observedSeq hobs o ho => ?_⟩
  · exact .inr ⟨rfl, not_touched_of_le (hrds check (mem_of_getElem? hc))⟩
  · exact .inr ⟨rfl, fun k _ _ =>
      not_touched_of_le (hrgs range (mem_of_getElem? hr))⟩
  · refine opSound_of_le (hws.elim (fun hnil => ?_) fun hall => ?_) _ o
    · simp [hnil] at ho
    · rw [Option.mem_def.mp hobs] at hall
      simpa using hall

/-- One attempt, fresh or resumed, ends soundly. -/
theorem checkEarlyWithProgress_sound (hview : view.EarlierOf later horizon)
    (hprog : ∀ p ∈ progress, ProgressSound checks ops later horizon p) :
    match checkEarlyWithProgress checks ops horizon view cold progress with
    | .ok verdict => VerdictSound checks ops later horizon verdict
    | .error progress => ProgressSound checks ops later horizon progress := by
  have hh : (progress.map EarlyProgress.horizon).getD horizon = horizon := by
    cases progress with
    | none => rfl
    | some p => exact (hprog p rfl).1
  rw [checkEarlyWithProgress]
  simp only [hh]
  split_ifs with hsht
  · refine ⟨rfl, fun i _ => ?_⟩
    exact itemSound_of_observedAtHorizon (Bool.and_eq_true _ _ |>.mp hsht).2 i
  have hs : (progress.getD ⟨horizon, 0, ⟨[], checks.items ops, false⟩⟩).marker.Sound checks ops
      later horizon (progress.getD ⟨horizon, 0, ⟨[], checks.items ops, false⟩⟩).index := by
    cases progress with
    | none => exact ⟨rfl, .inl rfl, fun i hi => absurd hi (Nat.not_lt_zero i), fun _ _ => rfl⟩
    | some p => exact (hprog p rfl).2
  have hend := earlyItems_sound cold hview hs
  generalize earlyItems checks ops view cold horizon _ _ = result at hend ⊢
  rcases result with (conflict | ⟨index, m⟩) | m
  · exact hend
  · exact ⟨rfl, hend⟩
  · exact ⟨rfl, fun i hi => hend.done i (lt_max_of_lt_right hi)⟩

/-- However many attempts miss, the verdict of the last is sound. -/
theorem checkEarlyAttempts_sound {attempts : List (ReadView × (Nat → Bool))}
    (hviews : ∀ a ∈ attempts, a.1.EarlierOf later horizon)
    (hprog : ∀ p ∈ progress, ProgressSound checks ops later horizon p) {verdict : EarlyVerdict}
    (h : checkEarlyAttempts checks ops horizon progress attempts = some verdict) :
    VerdictSound checks ops later horizon verdict := by
  induction attempts generalizing progress with
  | nil => exact absurd h (by simp [checkEarlyAttempts])
  | cons a rest ih =>
    obtain ⟨view, cold⟩ := a
    rw [forall_mem_cons] at hviews
    have hone := checkEarlyWithProgress_sound cold hviews.1 hprog
    rw [checkEarlyAttempts] at h
    cases hattempt : checkEarlyWithProgress checks ops horizon view cold progress with
    | ok v =>
      rw [hattempt] at h hone
      exact Option.some.inj h ▸ hone
    | error p =>
      rw [hattempt] at h hone
      exact ih hviews.2 (by simpa using hone) h

end Attempt

/-! ### Deciding from sound marks -/

section Decide

variable {op : Option CommitOperator} {checks : ValidationSet} {ops : List WriteBatchOp}
  {early full : Early} {later : ReadView} {ceiling : Seq} {key : Key} {mark : Mark} {observed : Seq}

namespace ReadView.SettledAt

variable (h : later.SettledAt ceiling) {observedSeq : Seq}

include h

theorem not_touched_of_not_landed (hl : landed early later ceiling key mark = false) :
    ¬ later.Touched key early.horizon ⊤ := by
  simp only [landed, Bool.or_eq_false_iff, Bool.and_eq_false_iff, Bool.not_eq_false',
    decide_eq_true_eq] at hl
  rcases hl.2 with hle | hn
  · rw [h.touched_top]
    exact not_touched_of_le hle
  · have hiff := h.ordered.landedAboveHorizon_iff (k := key) h.within
      (show decide (later.version.lastSeq ≤ early.horizon) = true →
        later.version.lastSeq ≤ early.horizon from of_decide_eq_true)
    rw [← hiff, hn]
    simp

theorem not_touched_top (hl : landed early later ceiling key mark = false)
    (hnot : ¬ later.Touched key observed early.horizon) : ¬ later.Touched key observed ⊤ :=
  fun ht => (touched_split early.horizon ht).elim hnot (h.not_touched_of_not_landed hl)

theorem latest_le (hnot : ¬ later.Touched key observed ⊤) :
    ∀ v ∈ later.latestVersionInView key, v.1 ≤ observed := fun v hv =>
  not_lt.mp fun hlt => hnot (h.ordered.latestVersionUpto_gt.mp ⟨v, hv, hlt⟩)

theorem judgeRead_eq (hs : ReadSound later early.horizon check mark) :
    judgeRead op early later ceiling check mark = judgeRead op full later ceiling check .dirty := by
  rcases hs with rfl | ⟨rfl, hnot⟩
  · simp only [judgeRead, landed_dirty]
  cases hl : landed early later ceiling check.key .clean with
  | true => simp only [judgeRead, hl, landed_dirty]
  | false =>
    have hle := h.latest_le (h.not_touched_top hl hnot)
    simp only [judgeRead, hl, landed_dirty, Bool.not_false, Bool.not_true, if_true,
      Bool.false_eq_true, if_false]
    cases hlat : later.latestVersionInView check.key with
    | none => rfl
    | some latest => simp only [hle latest hlat, if_true]

theorem writtenInRange_above
    (hnot : ∀ k, range.lo ≤ k → k < range.hi → ¬ later.Touched k range.observedSeq early.horizon) :
    (if ceiling ≤ early.horizon then none
      else later.writtenInRangeOf range.lo range.hi (max early.horizon range.observedSeq) ⊤
        (decide (later.version.lastSeq ≤ early.horizon))) =
    later.writtenInRangeOf range.lo range.hi range.observedSeq ⊤ false := by
  by_cases he : range.hi ≤ range.lo
  · simp only [writtenInRangeOf, he, if_true, ite_self]
  have hlt := not_le.mp he
  by_cases hceiling : ceiling ≤ early.horizon
  · rw [if_pos hceiling, eq_comm, ← Option.not_isSome_iff_eq_none,
      h.ordered.writtenInRangeOf_isSome h.within h.proper (by simp) le_top,
      ReadView.rangeTouched_iff h.proper hlt]
    rintro ⟨-, k, hk, ht⟩
    exact hnot k hk.1 hk.2 ((h.touched_top.mp ht).mono hceiling)
  · rw [if_neg hceiling, eq_comm]
    refine h.ordered.writtenInRangeOf_raise h.within
      (fun hl => (of_decide_eq_true hl).trans (le_max_left _ _)) (le_max_right _ _) ?_
    rw [ReadView.rangeTouched_iff h.proper hlt]
    rintro ⟨k, hk, ht⟩
    rcases le_total early.horizon range.observedSeq with hle | hle
    · rw [max_eq_right hle] at ht
      exact not_touched_of_le le_rfl ht
    · rw [max_eq_left hle] at ht
      exact hnot k hk.1 hk.2 ht

theorem judgeRange_eq (hs : RangeSound later early.horizon range mark) :
    judgeRange early later ceiling range mark = judgeRange full later ceiling range .dirty := by
  rcases hs with rfl | ⟨rfl, hnot⟩
  · rfl
  simp only [judgeRange, reduceCtorEq, if_false, if_true]
  rw [h.writtenInRange_above hnot]

theorem contentMismatch_eq_false (hnot : ¬ later.Touched key observed ⊤) (value : Value) :
    later.contentMismatch key value observed = false := by
  have hle := h.latest_le hnot
  rw [contentMismatch]
  cases hl : later.latestVersionInView key with
  | none => rfl
  | some latest =>
    obtain ⟨seq, kind⟩ := latest
    cases kind with
    | put => exact if_pos (hle _ hl)
    | delete | merge | rangeDelete => rfl

theorem checkWrite_clean (hnot : ¬ later.Touched key observed ⊤) (blind : Bool) (matchesCommitted : WriteKind → Bool) :
    later.checkWrite key blind observed matchesCommitted = .clean := by
  rw [checkWrite]
  cases blind with
  | true =>
    rw [touched_iff, not_or] at hnot
    have hrep : ¬ ReplacedAbove observed (later.coveringSeq key ⊤) (later.visible key ⊤) :=
      fun hrep => hrep.elim hnot.1 fun hs => hnot.2 (hs.imp fun _ => And.imp_right And.right)
    rw [if_pos rfl, h.ordered.landedAbove_not_replaced hrep, if_neg hnot.2]
  | false =>
    have hle := h.latest_le hnot
    cases hl : later.latestVersionInView key with
    | none => rfl
    | some latest => exact if_pos (hle latest hl)

theorem checkWrite_commuted {observed horizon : Seq} (ho : OnlyOperands later horizon observed key)
    (hnot : ¬ later.Touched key horizon ⊤) (matchesCommitted : WriteKind → Bool) :
    later.checkWrite key true observed matchesCommitted = .commuted := by
  obtain ⟨⟨e, he, hk, hlt⟩, htombstone, hentry⟩ := ho
  rw [touched_iff_has, not_or] at hnot
  have hrep : ¬ ReplacedAbove observed (later.coveringSeq key ⊤) (later.visible key ⊤) := by
    rw [ReadView.replacedAbove_iff_has]
    rintro (⟨seq, hseq, hlt⟩ | ⟨e, he, hk, hm, hlt⟩)
    · exact hnot.2 ⟨seq, hseq, htombstone seq hseq hlt, le_top⟩
    · exact hnot.1 ⟨e, he, hk, hentry e he hk hm hlt, le_top⟩
  rw [checkWrite, if_pos rfl, h.ordered.landedAbove_not_replaced hrep,
    if_pos ⟨e, mem_visible.mpr ⟨he, hk, le_top⟩, hlt⟩]

/-- From a sound mark a written key is judged as in full. -/
theorem judgeWrite_eq {value : Option Value} (hvalue : value.isSome = true → mine = .put)
    (hsnd : WriteSound checks ops later early.horizon observedSeq key mine mark) :
    judgeWrite checks ops early later ceiling observedSeq key mine value mark =
      judgeWrite checks ops full later ceiling observedSeq key mine value .dirty := by
  by_cases he : key ∈ checks.exempt
  · simp only [judgeWrite, he, if_true, landed_dirty, Bool.and_true]
    cases hl : landed early later ceiling key mark with
    | true => simp only [Bool.and_true]
    | false =>
      have hn : (value.any fun value => later.contentMismatch key value observedSeq) = false := by
        cases value with
        | none => rfl
        | some value =>
          have hclean := hsnd.1 he (hvalue rfl)
          have hmark : mark ≠ .dirty := fun hm => by simp [hm] at hl
          exact h.contentMismatch_eq_false
            (h.not_touched_top hl (hclean.resolve_left hmark).2) value
      simp [hn]
  by_cases hs : checks.readStandsFor key = true
  · simp only [judgeWrite, he, hs, if_true, if_false]
  have hs : checks.readStandsFor key = false := by simpa using hs
  cases hl : landed early later ceiling key mark with
  | true =>
    simp only [judgeWrite, he, hs, hl, landed_dirty, if_false, Bool.not_true, Bool.false_eq_true]
  | false =>
    simp only [judgeWrite, he, hs, hl, landed_dirty, if_false, Bool.not_true,
      Bool.false_eq_true, Bool.not_false, if_true]
    rcases hsnd.2 he hs with rfl | ⟨rfl, hnot⟩ | ⟨rfl, hblind, ho⟩
    · simp at hl
    · rw [h.checkWrite_clean (h.not_touched_top hl hnot)]
      rfl
    · rw [hblind, h.checkWrite_commuted ho (h.not_touched_of_not_landed hl)]
      rfl

/-- The operations are judged as in full. -/
theorem judgeOps_eq {base i : Nat} (hr : ops.drop i = rest)
    (hf : ∀ j, i ≤ j → j < ops.length → full.mark (base + j) = .dirty)
    (hs : ∀ j, i ≤ j → ∀ o, ops[j]? = some o →
      OpSound checks ops later early.horizon observedSeq j (early.mark (base + j)) o) :
    judgeOps checks ops early later ceiling observedSeq (base + i)
        (lastMergedAfter none (ops.take i)) rest =
      judgeOps checks ops full later ceiling observedSeq (base + i)
        (lastMergedAfter none (ops.take i)) rest := by
  induction rest generalizing i with
  | nil => rfl
  | cons o rest ih =>
    obtain ⟨hget, hlt, hd⟩ := drop_eq_cons hr
    have hn := ih hd (fun j hj => hf j (by omega)) fun j hj => hs j (by omega)
    rw [take_add_one, hget, Option.toList_some, lastMergedAfter_append] at hn
    have ho := hs i le_rfl o hget
    have hdirty := hf i le_rfl hlt
    cases o with
    | put key value | delete key =>
      simp only [judgeOps, hdirty]
      exact congrArg₂ _ (h.judgeWrite_eq (by simp) ho) hn
    | deleteRange start stop =>
      exact congrArg _ hn
    | merge key operand =>
      simp only [judgeOps, hdirty]
      refine congrArg₂ _ ?_ hn
      by_cases hrepeat : lastMergedAfter none (ops.take i) = some key
      · rw [if_pos hrepeat, if_pos hrepeat]
      · rw [if_neg hrepeat, if_neg hrepeat]
        exact h.judgeWrite_eq (by simp) (ho.resolve_left hrepeat)

/-- From sound marks every item is judged as in full. -/
theorem itemVerdicts_eq (hf : full.AllDirty (checks.items ops))
    (hs : ∀ i < checks.items ops, ItemSound checks ops later early.horizon i (early.mark i)) :
    itemVerdicts op checks ops early later ceiling = itemVerdicts op checks ops full later ceiling := by
  rw [items] at hs
  rw [Early.AllDirty, items] at hf
  refine congrArg₂ _ (congrArg₂ _ ?_ ?_) ?_
  · refine ext_getElem (by simp) fun i hi _ => ?_
    rw [length_mapIdx] at hi
    rw [getElem_mapIdx, getElem_mapIdx, hf i (by omega)]
    exact h.judgeRead_eq ((hs i (by omega)).read _ (getElem?_eq_getElem hi))
  · refine ext_getElem (by simp) fun i hi _ => ?_
    rw [length_mapIdx] at hi
    rw [getElem_mapIdx, getElem_mapIdx, hf _ (by omega)]
    refine h.judgeRange_eq ((hs _ (by omega)).range (Nat.le_add_right _ _) _ ?_)
    rw [Nat.add_sub_cancel_left]
    exact getElem?_eq_getElem hi
  · cases hws : checks.writesAt with
    | none => rfl
    | some observedSeq =>
      have hdirty : ∀ j < ops.length,
          full.mark (checks.reads.length + checks.ranges.length + j) = .dirty :=
        fun j hj => hf _ (by omega)
      refine h.judgeOps_eq drop_zero (fun j _ hj => hdirty j hj) fun j _ o ho => ?_
      have hj := (List.getElem?_eq_some_iff.mp ho).1
      have hop := (hs _ (by omega)).op (Nat.le_add_right _ j) observedSeq hws o
      rw [Nat.add_sub_cancel_left] at hop
      exact hop ho

/-- What an attempt refuses, deciding in full does not accept. -/
theorem not_accept_of_refused (hf : full.AllDirty (checks.items ops)) (href : Refused checks ops later)
    (commuted elided : Nat) :
    validate op checks ops full later ceiling ≠ .ok (.accept commuted elided) := by
  intro hacc
  obtain ⟨hrds, hrgs, hws⟩ := passes_of_validate_accept hf hacc
  rcases href with ⟨check, hc, hrule, hpres, ht⟩ |
    ⟨range, hr, k, hk, ht⟩ |
    ⟨observedSeq, ho, key, operand, hmem, he, hs, hblind, hrep⟩
  · have hh := h.readHolds hpres (hrds check hc)
    rw [ReadHolds, if_neg (by simp [hpres]), hrule] at hh
    exact hh (h.touched_top.mp ht)
  · exact h.rangeHolds (hrgs range hr) k hk.1 hk.2 (h.touched_top.mp ht)
  · have hh : WriteHolds op _ _ _ _ _ _ key :=
      h.writesHold (.refl _) (fun i hi => hf i hi) (by simp)
        (hws observedSeq ho) _ hmem key rfl he hs
    rcases hh with hnot | ⟨hm, -⟩ | ⟨-, hnot⟩
    · refine hnot (h.touched_top.mp (touched_iff.mpr (hrep.imp id ?_)))
      exact Exists.imp fun _ => And.imp_right And.right
    · exact hm rfl
    · rw [← h.visible_top, ← h.coveringSeq_top] at hnot
      exact hnot hrep

end ReadView.SettledAt

/-- Splitting the check at a horizon changes no verdict: from the marks of attempts on earlier
views, however many missed, the slot is decided as from marks that are all dirty; and where an
attempt finds a conflict, deciding in full does not accept. -/
theorem validate_of_checkEarly (h : later.SettledAt ceiling)
    (hfull : full.AllDirty (checks.items ops)) {horizon : Seq}
    {attempts : List (ReadView × (Nat → Bool))}
    (hviews : ∀ a ∈ attempts, a.1.EarlierOf later horizon) :
    (∀ marks, checkEarlyAttempts checks ops horizon none attempts = some (.marks marks) →
      validate op checks ops marks later ceiling = validate op checks ops full later ceiling) ∧
    (∀ conflict, checkEarlyAttempts checks ops horizon none attempts = some (.conflict conflict) →
      ∀ commuted elided,
        validate op checks ops full later ceiling ≠ .ok (.accept commuted elided)) := by
  refine ⟨fun marks hmks => ?_, fun conflict hconf => ?_⟩
  · obtain ⟨rfl, hsnd⟩ := checkEarlyAttempts_sound hviews (by simp) hmks
    rw [validate, validate, h.itemVerdicts_eq hfull hsnd]
  · exact h.not_accept_of_refused hfull (checkEarlyAttempts_sound hviews (by simp) hconf)

end Decide

/-! ### A check resumed -/

def resumedChecks (observed : Seq) : ValidationSet where
  reads := [⟨[1], observed, .read, .seq⟩]
  writesAt := some 2
  blindMergesCommute := true
  exempt := []
  ranges := [⟨[3], [4], 2⟩]
  reads_sorted := pairwise_singleton _ _
  exempt_sorted := noneExempt_sorted

def resumedOps : List WriteBatchOp := [.put [5] [1]]

def resumedView : ReadView :=
  { tiedView [tiedBase] with active := ⟨0, [⟨[5], 4, .value, [2]⟩], [], none, none⟩ }

theorem resumedView_settled : resumedView.SettledAt 5 where
  ordered := ⟨tiedBase_settled.ordered.version, by decide, by decide, by decide, by decide⟩
  within := by decide
  proper := by decide
  ceiling := by decide

theorem tiedBase_earlierOf : (tiedView [tiedBase]).EarlierOf resumedView 3 where
  ordered := tiedBase_settled.ordered
  within := tiedBase_settled.within
  proper := tiedBase_settled.proper
  extended := .of_active (by decide) (by decide) (by decide) (by decide)

/-- A first attempt misses at the scan and a second completes; a read at 1 conflicts with what
landed at 2. -/
def resumedAttempts : List (ReadView × (Nat → Bool)) :=
  [(tiedView [tiedBase], fun i => i == 1), (tiedView [tiedBase], fun _ => false)]

/-- The attempt that missed and was resumed. -/
theorem validate_of_checkEarly_resumed :
    (∃ marks, checkEarlyAttempts (resumedChecks 2) resumedOps 3 none resumedAttempts =
        some (.marks marks) ∧
      validate none (resumedChecks 2) resumedOps marks resumedView 5 =
        validate none (resumedChecks 2) resumedOps (dirtyEarly 3) resumedView 5) ∧
    validate none (resumedChecks 1) resumedOps (dirtyEarly 3) resumedView 5 ≠
      .ok (.accept 0 0) := by
  have hviews : ∀ a ∈ resumedAttempts, a.1.EarlierOf resumedView 3 := by
    simpa [resumedAttempts] using tiedBase_earlierOf
  have hmks : checkEarlyAttempts (resumedChecks 2) resumedOps 3 none resumedAttempts =
      some (.marks ⟨3, []⟩) := by rfl
  have hconf : checkEarlyAttempts (resumedChecks 1) resumedOps 3 none resumedAttempts =
      some (.conflict ⟨[1], .read, .put, 1, 2⟩) := by rfl
  exact ⟨⟨_, hmks, (validate_of_checkEarly resumedView_settled (dirtyEarly_allDirty 3)
      hviews).1 _ hmks⟩,
    (validate_of_checkEarly resumedView_settled (dirtyEarly_allDirty 3) hviews).2 _ hconf 0 0⟩

end RegolithStore
