import RegolithStore.Store.LatestVersion

/-! What landed on a key since a sequence, as the commit check asks it (`terminator.rs`,
`read_rules.rs`, `early.rs`): the walks stop at the first entry at or below the floor, so
what they read is bounded by the writes since. -/

namespace RegolithStore

open Lib List Source

/-- Where one source's skip over a key's operands above a floor ended. -/
structure Skip where
  passed : Bool
  stop : Option (Seq × ValueType)

/-- `skip_merges_above`, over the key's entries newest first. -/
def skipMergesAbove (floor : Seq) : List Entry → Skip
  | [] => ⟨false, none⟩
  | e :: es =>
    if e.seq ≤ floor ∨ e.valueType ≠ .merge then ⟨false, some (e.seq, e.valueType)⟩
    else ⟨true, (skipMergesAbove floor es).stop⟩

inductive Landed
  | nothing
  | operands
  /-- The newest put, delete or covering range delete above the floor. -/
  | replaced (seq : Seq) (kind : WriteKind)
  deriving DecidableEq

def settle (floor stop : Seq) (stopType : ValueType) (maxRtSeq : Seq) : Option (Seq × WriteKind) :=
  if max floor maxRtSeq < stop then some (stop, stopType.writeKind)
  else if floor < maxRtSeq then some (maxRtSeq, .rangeDelete)
  else none

section LandedAbove

variable (k : Key) (floor : Seq)

def landedVisit (maxRtSeq : Seq) (passed : Bool) (s : Source) :
    Except (Option (Seq × WriteKind) × Bool) Bool :=
  let skip := skipMergesAbove (max floor maxRtSeq) (s.visible k ⊤)
  match skip.stop with
  | some (stop, stopType) => .error (settle floor stop stopType maxRtSeq, passed || skip.passed)
  | none => .ok (passed || skip.passed)

/-- The answer of a walk: broken, or carried past every source. -/
def landedResult : Except (Option (Seq × WriteKind) × Bool) (Bool × Seq) → Landed
  | .error (some (seq, kind), _) => .replaced seq kind
  | .error (none, passed) => if passed then .operands else .nothing
  | .ok (passed, maxRtSeq) =>
    if floor < maxRtSeq then .replaced maxRtSeq .rangeDelete
    else if passed then .operands else .nothing

def ReadView.landedAbove (view : ReadView) : Landed :=
  landedResult floor (view.walkNewestFirst k ⊤ (landedVisit k floor) false)

variable {k floor} {rt : Seq} {es : List Entry} {e : Entry}

private def landedStep (floor m : Seq) (passed : Bool) (e : Entry) :
    Except (Option (Seq × WriteKind) × Bool) Bool :=
  if e.seq ≤ max floor m ∨ e.valueType ≠ .merge then .error (settle floor e.seq e.valueType m, passed)
  else .ok true

private theorem landedStep_steady : Steady Entry.seq (landedStep floor) := by
  intro m m' passed e h h'
  have hle : ∀ {q : Seq}, q < e.seq → (e.seq ≤ max floor q ↔ e.seq ≤ floor) := fun hq => by
    rw [le_max_iff, or_iff_left hq.not_ge]
  have hsettle : ∀ {q : Seq}, q < e.seq → settle floor e.seq e.valueType q =
      if floor < e.seq then some (e.seq, e.valueType.writeKind) else none := fun {q} hq => by
    rw [settle]
    by_cases hf : floor < e.seq
    · rw [if_pos (max_lt hf hq), if_pos hf]
    · rw [if_neg fun hmax => hf ((le_max_left _ _).trans_lt hmax), if_neg hf,
        if_neg (lt_asymm (hq.trans_le (not_lt.mp hf)))]
  simp only [landedStep, hle h, hle h', hsettle h, hsettle h']

private theorem landedVisit_eq (m : Seq) (passed : Bool) (s : Source) :
    landedVisit k floor m passed s = (s.visible k ⊤).foldlM (landedStep floor m) passed := by
  simp only [landedVisit]
  generalize s.visible k ⊤ = es
  induction es generalizing passed with
  | nil => simp [skipMergesAbove]; rfl
  | cons e es ih =>
    rw [foldlM_cons, landedStep, skipMergesAbove]
    split_ifs with hs
    · simp [bind, Except.bind]
    · simp only [Bool.or_true]
      exact ih true

/-- The answer from the key's versions and the tombstone `rt` over it. -/
private def landedOf (floor rt : Seq) (passed : Bool) (es : List Entry) : Landed :=
  landedResult floor ((es.foldlM (landedStep floor rt) passed).map fun passed => (passed, rt))

private theorem landedOf_stop
    (hs : e.seq ≤ max floor rt ∨ e.valueType ≠ .merge) (passed : Bool) (es : List Entry) :
    landedOf floor rt passed (e :: es) = match settle floor e.seq e.valueType rt with
      | some (seq, kind) => .replaced seq kind
      | none => if passed then .operands else .nothing := by
  rw [landedOf, foldlM_cons, landedStep, if_pos hs]
  cases settle floor e.seq e.valueType rt <;> rfl

private theorem landedOf_pass (hs : ¬ (e.seq ≤ max floor rt ∨ e.valueType ≠ .merge)) (passed : Bool)
    (es : List Entry) : landedOf floor rt passed (e :: es) = landedOf floor rt true es := by
  rw [landedOf, foldlM_cons, landedStep, if_neg hs]
  rfl

theorem ReadView.LsmOrdered.landedAbove_eq {view : ReadView} (h : view.LsmOrdered) :
    view.landedAbove k floor = landedOf floor (view.coveringSeq k ⊤) false (view.visible k ⊤) := by
  rw [landedAbove, h.walkNewestFirst_eq landedVisit_eq landedStep_steady
    fun s => List.Subset.refl _, ← ReadView.visible, landedOf]

/-- A replacement above the floor: the tombstone over the key, or an entry that is no
operand. -/
def ReplacedAbove (floor rt : Seq) (es : List Entry) : Prop :=
  floor < rt ∨ ∃ e ∈ es, e.valueType ≠ .merge ∧ floor < e.seq

private theorem replacedAbove_cons (he : e.valueType = .merge) :
    ReplacedAbove floor rt (e :: es) ↔ ReplacedAbove floor rt es := by
  simp [ReplacedAbove, he]

private theorem ReplacedAbove.lt_of_le (hes : (e :: es).Pairwise fun a b => b.seq < a.seq)
    (h : ReplacedAbove floor rt (e :: es)) (he : ¬ max floor rt < e.seq) : floor < rt := by
  by_contra hrt
  rw [max_eq_left (not_lt.mp hrt)] at he
  obtain ⟨e', he', -, hf⟩ := h.resolve_left hrt
  rcases mem_cons.mp he' with rfl | he'
  · exact he hf
  · exact he (hf.trans ((pairwise_cons.mp hes).1 e' he'))

/-- A replacement above the floor is found. -/
private theorem landedOf_replaced
    (hes : es.Pairwise fun a b => b.seq < a.seq) (h : ReplacedAbove floor rt es) (passed : Bool) :
    ∃ seq kind, landedOf floor rt passed es = .replaced seq kind ∧ floor < seq ∧
      (seq = rt ∨ ∃ e ∈ es, e.seq = seq) := by
  induction es generalizing passed with
  | nil =>
    have hrt : floor < rt := by simpa [ReplacedAbove] using h
    exact ⟨rt, .rangeDelete, if_pos hrt, hrt, .inl rfl⟩
  | cons e es ih =>
    by_cases hstop : e.seq ≤ max floor rt ∨ e.valueType ≠ .merge
    · rw [landedOf_stop hstop, settle]
      by_cases habv : max floor rt < e.seq
      · rw [if_pos habv]
        exact ⟨_, _, rfl, (le_max_left _ _).trans_lt habv, .inr ⟨e, mem_cons_self, rfl⟩⟩
      · have hrt := h.lt_of_le hes habv
        rw [if_neg habv, if_pos hrt]
        exact ⟨_, _, rfl, hrt, .inl rfl⟩
    · rw [landedOf_pass hstop]
      have he : e.valueType = .merge := not_not.mp fun he => hstop (.inr he)
      obtain ⟨seq, kind, heq, hf, hseq⟩ :=
        ih (pairwise_cons.mp hes).2 ((replacedAbove_cons he).mp h) true
      exact ⟨seq, kind, heq, hf, hseq.imp_right fun ⟨e', he', hs⟩ =>
        ⟨e', mem_cons_of_mem _ he', hs⟩⟩

private theorem landedOf_not_replaced (hes : es.Pairwise fun a b => b.seq < a.seq)
    (h : ¬ ReplacedAbove floor rt es) (passed : Bool) : landedOf floor rt passed es =
      if passed = true ∨ ∃ e ∈ es, floor < e.seq then .operands else .nothing := by
  have hrt : ¬ floor < rt := fun hrt => h (.inl hrt)
  induction es generalizing passed with
  | nil => cases passed <;> simp [landedOf, landedResult, Except.map, pure, Except.pure, hrt]
  | cons e es ih =>
    obtain ⟨hnewest, htail⟩ := pairwise_cons.mp hes
    by_cases hs : e.seq ≤ max floor rt ∨ e.valueType ≠ .merge
    · have hle : e.seq ≤ floor := by
        by_contra hlt
        rcases hs with hle | hm
        · exact hlt (hle.trans_eq (max_eq_left (not_lt.mp hrt)))
        · exact h (.inr ⟨e, mem_cons_self, hm, not_le.mp hlt⟩)
      have hn : ¬ ∃ e' ∈ e :: es, floor < e'.seq := by
        rintro ⟨e', he', hlt⟩
        rcases mem_cons.mp he' with rfl | he'
        · exact absurd hle hlt.not_ge
        · exact absurd hle (not_le.mpr (hlt.trans (hnewest e' he')))
      rw [landedOf_stop hs, settle, if_neg fun hmax => absurd hle
        (not_le.mpr ((le_max_left _ _).trans_lt hmax)), if_neg hrt]
      simp only [or_iff_left hn]
    · have he : e.valueType = .merge := not_not.mp fun he => hs (.inr he)
      have hlt : floor < e.seq := not_le.mp fun hle => hs (.inl (hle.trans (le_max_left _ _)))
      rw [landedOf_pass hs, ih htail fun hrep => h ((replacedAbove_cons he).mpr hrep),
        if_pos (.inl rfl), if_pos (.inr ⟨e, mem_cons_self, hlt⟩)]

namespace ReadView.LsmOrdered

variable {view : ReadView} (h : view.LsmOrdered)

include h

theorem landedAbove_replaced (hrep : ReplacedAbove floor (view.coveringSeq k ⊤) (view.visible k ⊤)) :
    ∃ seq kind, view.landedAbove k floor = .replaced seq kind ∧ floor < seq ∧
      (seq = view.coveringSeq k ⊤ ∨ ∃ e ∈ view.visible k ⊤, e.seq = seq) := by
  rw [h.landedAbove_eq]
  exact landedOf_replaced h.visible_descending hrep false

theorem landedAbove_not_replaced
    (hrep : ¬ ReplacedAbove floor (view.coveringSeq k ⊤) (view.visible k ⊤)) :
    view.landedAbove k floor =
      if ∃ e ∈ view.visible k ⊤, floor < e.seq then .operands else .nothing := by
  rw [h.landedAbove_eq, landedOf_not_replaced h.visible_descending hrep]
  simp

end ReadView.LsmOrdered

end LandedAbove

def MemTable.latestVersion (m : MemTable) (k : Key) : Option (Seq × ValueType) :=
  ((memtable m).visible k ⊤).head?.map fun e => (e.seq, e.valueType)

namespace ReadView

variable (view : ReadView) (k : Key) (horizon : Seq)

def landedAboveHorizon (memtablesOnly : Bool) : Bool :=
  if !memtablesOnly then (view.latestVersionAfter k horizon).any fun v => decide (horizon < v.1)
  else view.memtables.any fun m =>
    ((m.latestVersion k).any fun v => decide (horizon < v.1)) ||
      decide (horizon < m.coveringRangeTombstoneSeq k ⊤)

variable {view k horizon} {m : MemTable}

theorem LsmOrdered.latestVersionAfter_any (h : view.LsmOrdered) (hw : view.TablesWithin) :
    (view.latestVersionAfter k horizon).any (fun v => decide (horizon < v.1)) = true ↔
      view.Touched k horizon ⊤ := by
  rw [h.latestVersionAfter_eq hw, ← h.latestVersionUpto_gt, latestVersionInView]
  rcases view.latestVersionUpto k ⊤ with _ | v
  · simp
  · by_cases hv : horizon < v.1 <;> simp [Option.filter, hv]

theorem LsmOrdered.memtable_descending (h : view.LsmOrdered) (hm : m ∈ view.memtables) (r : Seq) :
    ((memtable m).visible k r).Pairwise fun a b => b.seq < a.seq := by
  have hgroup : [memtable m] ∈ view.groups :=
    mem_append_left _ (mem_map.mpr ⟨m, hm, rfl⟩)
  have hone := h.group_descending hgroup k
  rw [flatMap_cons, flatMap_nil, append_nil] at hone
  exact hone.filter _

theorem latestVersion_any (hm : ((memtable m).visible k ⊤).Pairwise fun a b => b.seq < a.seq) :
    (m.latestVersion k).any (fun v => decide (horizon < v.1)) = true ↔
      ∃ e ∈ m.entries, e.userKey = k ∧ horizon < e.seq := by
  have hmem : (∃ e ∈ m.entries, e.userKey = k ∧ horizon < e.seq) ↔
      ∃ e ∈ (memtable m).visible k ⊤, horizon < e.seq := by
    simp [Source.mem_visible, Source.entries, and_assoc]
  rw [hmem, MemTable.latestVersion]
  generalize (memtable m).visible k ⊤ = es at hm
  rcases es with _ | ⟨e, es⟩
  · simp
  · simp only [head?_cons, Option.map_some, Option.any_some, decide_eq_true_eq, exists_mem_cons_iff]
    refine ⟨.inl, ?_⟩
    rintro (hlt | ⟨e', he', hlt⟩)
    · exact hlt
    · exact hlt.trans ((pairwise_cons.mp hm).1 e' he')

/-- Asking the memtables alone is exact where no table can hold anything above the horizon. -/
theorem LsmOrdered.landedAboveHorizon_iff (h : view.LsmOrdered) (hw : view.TablesWithin)
    {memtablesOnly : Bool} (ho : memtablesOnly = true → view.version.lastSeq ≤ horizon) :
    view.landedAboveHorizon k horizon memtablesOnly = true ↔ view.Touched k horizon ⊤ := by
  cases memtablesOnly with
  | false => exact h.latestVersionAfter_any hw
  | true =>
    simp only [landedAboveHorizon, Bool.not_true, Bool.false_eq_true, if_false, any_eq_true,
      Bool.or_eq_true, decide_eq_true_eq]
    constructor
    · rintro ⟨m, hm, hl⟩
      refine ⟨.memtable m, mem_append_left _ (mem_map_of_mem hm), hl.imp ?_ ?_⟩
      · intro hany
        obtain ⟨e, he, hk, hlt⟩ := (latestVersion_any (h.memtable_descending hm ⊤)).mp hany
        exact ⟨e, he, hk, hlt, le_top⟩
      · intro hlt
        obtain ⟨t, ht, -, hk, hlt⟩ := lt_coveringRangeTombstoneSeq (s := .memtable m).mp hlt
        exact ⟨t, ht, hk, hlt, le_top⟩
    · rintro ⟨s, hs, hl⟩
      rcases mem_append.mp hs with hs | hs
      · obtain ⟨m, hm, rfl⟩ := mem_map.mp hs
        refine ⟨m, hm, hl.imp ?_ ?_⟩
        · rintro ⟨e, he, hk, hlt, -⟩
          exact (latestVersion_any (h.memtable_descending hm ⊤)).mpr ⟨e, he, hk, hlt⟩
        · rintro ⟨t, ht, hk, hlt, -⟩
          exact lt_coveringRangeTombstoneSeq.mpr ⟨t, ht, le_top, hk, hlt⟩
      -- nothing a table holds is above the horizon
      · obtain ⟨f, hf, rfl⟩ := mem_map.mp hs
        rcases hl with ⟨e, he, -, hlt, -⟩ | ⟨t, ht, -, hlt, -⟩
        · exact absurd ((hw f hf).1 e he |>.trans (ho rfl)) hlt.not_ge
        · exact absurd ((hw f hf).2 t ht |>.trans (ho rfl)) hlt.not_ge

end ReadView

end RegolithStore
