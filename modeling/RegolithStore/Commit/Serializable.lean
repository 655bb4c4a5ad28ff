import RegolithStore.Commit.Validate

/-! What an accepted commit is owed: against a view that holds every version up to the ceiling
each read is judged as its rule says, no version landed in a validated range, and a written key
has no newer version but what it commutes with or stores already. The exception is a presence
check of a version that shares its sequence with a tombstone over the key, as an ingested table
can hold. -/

namespace RegolithStore

open Lib List ReadView WriteBatchOp

variable {commuted elided : Nat}

/-- A view as a slot is decided against it: the sources are in order, and nothing in them is
above the ceiling. -/
structure ReadView.SettledAt (view : ReadView) (ceiling : Seq) : Prop where
  ordered : view.LsmOrdered
  within : view.TablesWithin
  proper : view.TombstonesProper
  ceiling : ∀ s ∈ view.sources,
    (∀ e ∈ s.entries, e.seq ≤ ceiling) ∧ ∀ t ∈ s.tombstones, t.seq ≤ ceiling

/-- Every item is to be looked at in full. -/
def Early.AllDirty (early : Early) (items : Nat) : Prop := ∀ i < items, early.mark i = .dirty

def ValidationSet.items (checks : ValidationSet) (ops : List WriteBatchOp) : Nat :=
  checks.reads.length + checks.ranges.length + ops.length

section Owed

variable (op : Option CommitOperator) (view : ReadView) (ceiling : Seq)

def HadValue (check : ConflictKey) : Prop :=
  ∃ v, view.readValueAt op check.key check.observedSeq = .ok (some v)

def ReadHolds (check : ConflictKey) : Prop :=
  if check.presenceOnly then HadValue op view check → view.Present check.key ceiling
  else match check.rule with
  | .seq => ¬ view.Touched check.key check.observedSeq ceiling
  | .value => view.readValueAt op check.key ceiling =
      view.readValueAt op check.key check.observedSeq
  | .parts parts => view.PartsKept op check parts ceiling ∨
      view.readValueAt op check.key check.observedSeq = .ok none ∧
        view.readValueAt op check.key ceiling = .ok none

def RangeHolds (range : RangeCheck) : Prop :=
  ∀ k, range.lo ≤ k → k < range.hi → ¬ view.Touched k range.observedSeq ceiling

/-- No version since the snapshot, or the batch leaves the key what it holds, or only
operands a blind merge commutes with. -/
def WriteHolds (checks : ValidationSet) (ops : List WriteBatchOp) (observedSeq : Seq) (mine : Access)
    (key : Key) : Prop :=
  ¬ view.Touched key observedSeq ceiling ∨
  (mine ≠ .merge ∧ ∃ intended, intendedOf key none ops = some intended ∧
    view.readValueAt op key ceiling = .ok intended) ∨
  (checks.blind ops mine key = true ∧
    ¬ ReplacedAbove observedSeq (view.coveringSeq key ceiling) (view.visible key ceiling))

end Owed

def WriteBatchOp.access : WriteBatchOp → Access
  | put .. => .put
  | delete .. | deleteRange .. => .delete
  | merge .. => .merge

structure Serializable (op : Option CommitOperator) (checks : ValidationSet)
    (ops : List WriteBatchOp) (view : ReadView) (ceiling : Seq) : Prop where
  reads : ∀ check ∈ checks.reads, ReadHolds op view ceiling check
  ranges : ∀ range ∈ checks.ranges, RangeHolds view ceiling range
  writes : ∀ observedSeq ∈ checks.writesAt, ∀ o ∈ ops, ∀ key ∈ o.pointKey?, key ∉ checks.exempt →
    checks.readStandsFor key = false → WriteHolds op view ceiling checks ops observedSeq o.access key

namespace ReadView.SettledAt

variable {view : ReadView} {ceiling : Seq} (h : view.SettledAt ceiling) {k : Key} {lo : Seq}

include h

theorem not_touched_above (hi : Seq) : ¬ view.Touched k ceiling hi := by
  rintro ⟨s, hs, ⟨e, he, -, hlt, -⟩ | ⟨t, ht, -, hlt, -⟩⟩
  · exact absurd ((h.ceiling s hs).1 e he) hlt.not_ge
  · exact absurd ((h.ceiling s hs).2 t ht) hlt.not_ge

theorem visible_top : view.visible k ⊤ = view.visible k ceiling :=
  visible_of_not_touched le_top (h.not_touched_above ⊤)

theorem coveringSeq_top : view.coveringSeq k ⊤ = view.coveringSeq k ceiling :=
  coveringSeq_of_not_touched le_top (h.not_touched_above ⊤)

theorem readValueAt_top (op : Option CommitOperator) :
    view.readValueAt op k ⊤ = view.readValueAt op k ceiling :=
  h.ordered.lookupLoaded_of_not_touched le_top (h.not_touched_above ⊤) _

theorem latestVersionInView_eq : view.latestVersionInView k = view.latestVersionUpto k ceiling := by
  rw [latestVersionInView, h.ordered.latestVersionUpto_eq, h.ordered.latestVersionUpto_eq,
    h.visible_top, h.coveringSeq_top]

theorem touched_top : view.Touched k lo ⊤ ↔ view.Touched k lo ceiling := by
  rw [touched_iff, touched_iff, h.visible_top, h.coveringSeq_top]

theorem readValueAt_of_not_touched (hnot : ¬ view.Touched k lo ceiling)
    (op : Option CommitOperator) : view.readValueAt op k ceiling = view.readValueAt op k lo := by
  rcases le_total lo ceiling with hle | hle
  · exact h.ordered.lookupLoaded_of_not_touched hle hnot _
  · exact (h.ordered.lookupLoaded_of_not_touched hle (h.not_touched_above lo) _).symm

theorem present_of_not_touched (hnot : ¬ view.Touched k lo ceiling) (hpresent : view.Present k lo) :
    view.Present k ceiling := by
  rw [Present] at hpresent ⊢
  rcases le_total lo ceiling with hle | hle
  · rwa [visible_of_not_touched hle hnot, coveringSeq_of_not_touched hle hnot]
  · rwa [visible_of_not_touched hle (h.not_touched_above lo),
      coveringSeq_of_not_touched hle (h.not_touched_above lo)] at hpresent

end ReadView.SettledAt

section Pass

variable {op : Option CommitOperator} {checks : ValidationSet} {ops : List WriteBatchOp}
  {early : Early} {view : ReadView} {ceiling : Seq} {check : ConflictKey} {parts : List UInt32}
  {observedSeq : Seq} {key : Key} {mine : Access}

def Passes (v : Except ValidateError ItemVerdict) : Prop :=
  ∃ found, v = .ok found ∧ ∀ conflict, found ≠ .conflict conflict

theorem passes_of_accept {m e : Nat} {vs : List (Except ValidateError ItemVerdict)}
    (h : verdictOf commuted elided vs = .ok (.accept m e)) : ∀ v ∈ vs, Passes v := by
  induction vs generalizing commuted elided with
  | nil => simp
  | cons v vs ih =>
    rcases v with err | found | - | - | conflict
    all_goals simp only [verdictOf, Except.ok.injEq, reduceCtorEq] at h
    all_goals exact forall_mem_cons.mpr ⟨⟨_, rfl, by simp⟩, ih h⟩

@[simp] theorem landed_dirty (key : Key) : landed early view ceiling key .dirty = true := by
  simp [landed]

section

variable (h : view.SettledAt ceiling) {latest : Seq × WriteKind} {old : Option Value}

include h

theorem ReadView.SettledAt.judgeRead_passes (hp : Passes (judgeRead op early view ceiling check .dirty)) :
    ¬ view.Touched check.key check.observedSeq ceiling ∨
      ∃ latest, view.latestVersionUpto check.key ceiling = some latest ∧
        view.readChanged op check latest ⊤ = .ok none := by
  rw [← h.ordered.latestVersionUpto_gt]
  obtain ⟨found, heq, hf⟩ := hp
  simp only [judgeRead, landed_dirty, Bool.not_true, Bool.false_eq_true, if_false,
    h.latestVersionInView_eq] at heq
  cases hl : view.latestVersionUpto check.key ceiling with
  | none => exact .inl (by simp)
  | some latest =>
    simp only [hl] at heq
    by_cases hle : latest.1 ≤ check.observedSeq
    · exact .inl (by simpa using hle)
    · simp only [hle, if_false] at heq
      refine .inr ⟨latest, rfl, ?_⟩
      cases hchanged : view.readChanged op check latest ⊤ with
      | error err => simp [hchanged] at heq
      | ok changed =>
        cases changed with
        | none => rfl
        | some change =>
          simp only [hchanged, Except.ok.injEq] at heq
          exact absurd heq.symm (hf _)

private theorem ReadView.SettledAt.value_kept
    (hl : view.latestVersionUpto check.key ceiling = some latest)
    (hs : view.valueChanged op check latest old ⊤ = .ok none) :
    view.readValueAt op check.key ceiling = .ok old ∧ latest.2 ≠ .merge := by
  rw [← h.latestVersionInView_eq] at hl
  rw [← h.readValueAt_top]
  exact h.ordered.valueChanged_eq_none hl hs

theorem ReadView.SettledAt.partsKept_of_none (hn : view.partsDecisive op check.key check.observedSeq ⊤ parts = none) :
    view.PartsKept op check parts ceiling := by
  rw [h.ordered.partsDecisive_eq, h.visible_top, h.coveringSeq_top] at hn
  obtain ⟨hrt, operands, rest, hes, hops, hr⟩ := partsOf_eq_none h.ordered.visible_descending hn
  exact ⟨operands, rest, hes, hops, .inl ⟨hrt, hr⟩⟩

theorem ReadView.SettledAt.partsKept_of_put {seq : Seq} (hold : view.readValueAt op check.key check.observedSeq = .ok old)
    (hput : view.partsDecisive op check.key check.observedSeq ⊤ parts =
      some (.replaced seq .put old)) :
    view.PartsKept op check parts ceiling := by
  rw [h.ordered.partsDecisive_eq, h.visible_top, h.coveringSeq_top] at hput
  obtain ⟨operands, put, rest, hes, hops, htype, hrt, rfl⟩ := partsOf_eq_put hput
  exact ⟨operands, put :: rest, hes, hops, .inr ⟨put, rest, rfl, htype, hrt, hold⟩⟩

/-- A read by parts that passes finds its parts as they were. -/
private theorem ReadView.SettledAt.parts_kept (hpres : check.presenceOnly = false)
    (hrule : check.rule = .parts parts)
    (hl : view.latestVersionUpto check.key ceiling = some latest)
    (hs : view.readChanged op check latest ⊤ = .ok none) : ReadHolds op view ceiling check := by
  simp only [ReadHolds, hpres, hrule, Bool.false_eq_true, if_false]
  simp only [readChanged, hpres, hrule, Bool.false_eq_true, if_false] at hs
  cases hold : view.readValueAt op check.key check.observedSeq with
  | error err => simp [hold, bind, Except.bind] at hs
  | ok old =>
    simp only [hold, bind, Except.bind] at hs
    split_ifs at hs with hn
    · exact .inr ⟨by rw [hn], (h.value_kept hl hs).1⟩
    left
    cases hdecisive : view.partsDecisive op check.key check.observedSeq ⊤ parts with
    | none => exact h.partsKept_of_none hdecisive
    | some decisive =>
      cases decisive with
      | operand seq => simp [hdecisive, pure, Except.pure] at hs
      | replaced seq kind value =>
        simp only [hdecisive, pure, Except.pure, Except.ok.injEq] at hs
        by_cases hid : kind = .put ∧ value = old
        · obtain ⟨rfl, rfl⟩ := hid
          exact h.partsKept_of_put hold hdecisive
        · simp [hid] at hs

end

theorem partsKept_of_not_touched (h : ¬ view.Touched check.key check.observedSeq ceiling) :
    view.PartsKept op check parts ceiling := by
  rw [ReadView.touched_iff, not_or] at h
  exact ⟨[], _, rfl, by simp, .inl ⟨not_lt.mp h.1, fun e he => not_lt.mp fun hlt => h.2 ⟨e, he, hlt⟩⟩⟩

variable (h : view.SettledAt ceiling)

include h

/-- A read that passes is as its rule says. -/
theorem ReadView.SettledAt.readHolds (hpres : check.presenceOnly = false)
    (hp : Passes (judgeRead op early view ceiling check .dirty)) :
    ReadHolds op view ceiling check := by
  rcases h.judgeRead_passes hp with hnot | ⟨latest, hl, hs⟩
  · simp only [ReadHolds, hpres, Bool.false_eq_true, if_false]
    cases check.rule with
    | seq => exact hnot
    | value => exact h.readValueAt_of_not_touched hnot op
    | parts parts => exact .inl (partsKept_of_not_touched hnot)
  · cases hrule : check.rule with
    | seq => simp [readChanged, hpres, hrule] at hs
    | parts parts => exact h.parts_kept hpres hrule hl hs
    | value =>
      simp only [ReadHolds, hpres, hrule, Bool.false_eq_true, if_false]
      simp only [readChanged, hpres, hrule, Bool.false_eq_true, if_false] at hs
      split_ifs at hs with hm
      · exact absurd hm (h.value_kept hl hs).2
      · cases hold : view.readValueAt op check.key check.observedSeq with
        | error err => simp [hold, bind, Except.bind] at hs
        | ok old =>
          simp only [hold, bind, Except.bind] at hs
          exact (h.value_kept hl hs).1

theorem ReadView.SettledAt.present_or_tied (hpres : check.presenceOnly = true)
    (hp : Passes (judgeRead op early view ceiling check .dirty)) (hhad : HadValue op view check) :
    view.Present check.key ceiling ∨ view.Tied check.key ceiling := by
  rcases h.judgeRead_passes hp with hnot | ⟨latest, hl, hs⟩
  · obtain ⟨v, hv⟩ := hhad
    exact .inl (h.present_of_not_touched hnot (h.ordered.present_of_readValueAt hv))
  · refine h.ordered.present_or_tied hl ?_
    cases hdel : latest.2.isDeletion with
    | false => rfl
    | true => simp [readChanged, hpres, hdel] at hs

/-- A scan that passes saw every version of its range. -/
theorem ReadView.SettledAt.rangeHolds {range : RangeCheck}
    (hp : Passes (judgeRange early view ceiling range .dirty)) :
    RangeHolds view ceiling range := by
  obtain ⟨found, heq, hf⟩ := hp
  simp only [judgeRange, if_true] at heq
  cases hwr : view.writtenInRangeOf range.lo range.hi range.observedSeq ⊤ false with
  | some w =>
    simp only [hwr, Except.ok.injEq] at heq
    exact absurd heq.symm (hf _)
  | none =>
    intro k hlo hhi htch
    have hn : (view.writtenInRangeOf range.lo range.hi range.observedSeq ⊤ false).isSome = true ↔
        range.lo < range.hi ∧ view.RangeTouched range.lo range.hi range.observedSeq ⊤ :=
      h.ordered.writtenInRangeOf_isSome h.within h.proper (by simp) le_top
    rw [hwr] at hn
    refine absurd (hn.mpr ⟨hlo.trans_lt hhi, ?_⟩) (by simp)
    rw [← h.touched_top] at htch
    obtain ⟨s, hs, hv⟩ := htch
    refine ⟨s, hs, hv.imp ?_ ?_⟩
    · rintro ⟨e, he, rfl, hlt, htop⟩
      exact ⟨e, he, ⟨hlo, hhi⟩, hlt, htop⟩
    · rintro ⟨t, ht, hk, hlt, htop⟩
      exact ⟨t, ht, ⟨hk.1.trans_lt hhi, hlo.trans_lt hk.2⟩, hlt, htop⟩

omit h in
theorem intendedOf_eq_none_of_merge {operand : Value} (h : WriteBatchOp.merge key operand ∈ ops)
    (intended : Option (Option Value)) : intendedOf key intended ops = none := by
  induction ops generalizing intended with
  | nil => exact absurd h not_mem_nil
  | cons o ops ih =>
    rcases mem_cons.mp h with rfl | hmem
    · simp [intendedOf]
    · cases o <;> simp only [intendedOf, ih hmem, ite_self]

theorem ReadView.SettledAt.checkNewest_ok (op : Option CommitOperator)
    (hok : ∀ seq theirs, checkNewest observedSeq (view.latestVersionInView key)
      (view.writeMatchesCommitted key ops) ≠ .conflict seq theirs) :
    ¬ view.Touched key observedSeq ceiling ∨ ∃ intended, intendedOf key none ops = some intended ∧
        view.readValueAt op key ceiling = .ok intended := by
  rw [← h.ordered.latestVersionUpto_gt, ← h.latestVersionInView_eq]
  cases hl : view.latestVersionInView key with
  | none => exact .inl (by simp)
  | some latest =>
    obtain ⟨seq, theirs⟩ := latest
    simp only [hl, checkNewest] at hok
    by_cases hle : seq ≤ observedSeq
    · exact .inl (by simpa using hle)
    simp only [hle, if_false] at hok
    cases hmatch : view.writeMatchesCommitted key ops theirs with
    | false => exact absurd (if_neg (by simp [hmatch])) (hok seq theirs)
    | true =>
      right
      rw [writeMatchesCommitted] at hmatch
      split_ifs at hmatch with hm
      cases hintd : intendedOf key none ops with
      | none => simp [hintd] at hmatch
      | some intended =>
        simp only [hintd, committedEquals, decide_eq_true_eq] at hmatch
        refine ⟨intended, rfl, ?_⟩
        have hr : view.readValueAt op key ⊤ = .ok (view.lookupInView key ⊤) :=
          h.ordered.readValueAt_of_not_merge hl hm
        rw [← h.readValueAt_top, hr, hmatch]

/-- A written key that passes has no version it does not commute with. -/
theorem ReadView.SettledAt.checkWrite_ok (hm : mine = .merge → ∃ operand, .merge key operand ∈ ops)
    (hok : ∀ seq theirs, view.checkWrite key (checks.blind ops mine key) observedSeq
      (view.writeMatchesCommitted key ops) ≠ .conflict seq theirs) :
    WriteHolds op view ceiling checks ops observedSeq mine key := by
  rw [checkWrite] at hok
  by_cases hblind : checks.blind ops mine key = true
  · simp only [hblind, if_true] at hok
    by_cases hrep : ReplacedAbove observedSeq (view.coveringSeq key ⊤) (view.visible key ⊤)
    · obtain ⟨seq, kind, heq, hlt, -⟩ := h.ordered.landedAbove_replaced hrep
      simp only [heq, checkNewest, not_le.mpr hlt, if_false, Bool.false_eq_true] at hok
      exact absurd rfl (hok seq kind)
    · rw [h.visible_top, h.coveringSeq_top] at hrep
      exact .inr (.inr ⟨hblind, hrep⟩)
  · simp only [hblind, if_false, Bool.false_eq_true] at hok
    rcases h.checkNewest_ok op hok with hnot | ⟨intended, hintd, hr⟩
    · exact .inl hnot
    · refine .inr (.inl ⟨fun hmine => ?_, intended, hintd, hr⟩)
      obtain ⟨operand, hmem⟩ := hm hmine
      rw [intendedOf_eq_none_of_merge hmem] at hintd
      exact absurd hintd (by simp)

theorem ReadView.SettledAt.writeHolds
    {value : Option Value} (hm : mine = .merge → ∃ operand, .merge key operand ∈ ops)
    (hp : Passes (judgeWrite checks ops early view ceiling observedSeq key mine value .dirty))
    (he : key ∉ checks.exempt) (hs : checks.readStandsFor key = false) :
    WriteHolds op view ceiling checks ops observedSeq mine key := by
  refine h.checkWrite_ok hm fun seq theirs hconf => ?_
  obtain ⟨found, heq, hf⟩ := hp
  simp only [judgeWrite, he, hs, landed_dirty, hconf, if_false, Bool.not_true,
    Bool.false_eq_true, Except.ok.injEq] at heq
  exact hf _ heq.symm

/-- Every operation of a batch that passes is owed what its own check says; a repeat of a
merged key is owed what the first merge of it was. -/
theorem ReadView.SettledAt.writesHold
    {rest : List WriteBatchOp} {index : Nat} {lastMerged : Option Key} (hops : rest ⊆ ops)
    (hdirty : ∀ i < index + rest.length, early.mark i = .dirty)
    (hm : ∀ key ∈ lastMerged, key ∉ checks.exempt → checks.readStandsFor key = false →
      WriteHolds op view ceiling checks ops observedSeq .merge key)
    (hp : ∀ v ∈ judgeOps checks ops early view ceiling observedSeq index lastMerged rest, Passes v) :
    ∀ o ∈ rest, ∀ key ∈ o.pointKey?, key ∉ checks.exempt → checks.readStandsFor key = false →
      WriteHolds op view ceiling checks ops observedSeq o.access key := by
  induction rest generalizing index lastMerged with
  | nil => simp
  | cons o rest ih =>
    have hh : early.mark index = .dirty := hdirty index (by simp)
    have hdirty' : ∀ i < index + 1 + rest.length, early.mark i = .dirty := fun i hi =>
      hdirty i (by rw [length_cons]; omega)
    rw [cons_subset] at hops
    cases o with
    | put key value | delete key =>
      simp only [judgeOps, hh, forall_mem_cons] at hp
      refine forall_mem_cons.mpr ⟨?_, ih hops.2 hdirty' hm hp.2⟩
      simp only [pointKey?, access, Option.mem_some_iff, forall_eq']
      exact h.writeHolds (by simp) hp.1
    | deleteRange start stop =>
      simp only [judgeOps, forall_mem_cons] at hp
      refine forall_mem_cons.mpr ⟨?_, ih hops.2 hdirty' hm hp.2⟩
      simp [pointKey?]
    | merge key operand =>
      simp only [judgeOps, hh, forall_mem_cons] at hp
      have hf : key ∉ checks.exempt → checks.readStandsFor key = false →
          WriteHolds op view ceiling checks ops observedSeq .merge key := by
        by_cases hrepeat : lastMerged = some key
        · exact hm key hrepeat
        · rw [if_neg hrepeat] at hp
          exact h.writeHolds (fun _ => ⟨operand, hops.1⟩) hp.1
      refine forall_mem_cons.mpr ⟨?_, ih hops.2 hdirty' ?_ hp.2⟩
      · simpa only [pointKey?, access, Option.mem_some_iff, forall_eq'] using hf
      · simpa only [Option.mem_some_iff, forall_eq'] using hf

omit h

theorem passes_of_validate_accept (hdirty : early.AllDirty (checks.items ops))
    (hacc : validate op checks ops early view ceiling = .ok (.accept commuted elided)) :
    (∀ check ∈ checks.reads, Passes (judgeRead op early view ceiling check .dirty)) ∧
    (∀ range ∈ checks.ranges, Passes (judgeRange early view ceiling range .dirty)) ∧
    ∀ observedSeq ∈ checks.writesAt, ∀ v ∈ judgeOps checks ops early view ceiling observedSeq
      (checks.reads.length + checks.ranges.length) none ops, Passes v := by
  have hp := passes_of_accept hacc
  simp only [itemVerdicts, mem_append, or_imp, forall_and] at hp
  obtain ⟨⟨hrds, hrgs⟩, hws⟩ := hp
  refine ⟨fun check hc => ?_, fun range hr => ?_, fun observedSeq ho => ?_⟩
  · obtain ⟨i, hi, rfl⟩ := getElem_of_mem hc
    have := hrds _ (mem_mapIdx.mpr ⟨i, hi, rfl⟩)
    rwa [hdirty i (by rw [ValidationSet.items]; omega)] at this
  · obtain ⟨i, hi, rfl⟩ := getElem_of_mem hr
    have := hrgs _ (mem_mapIdx.mpr ⟨i, hi, rfl⟩)
    rwa [hdirty _ (by rw [ValidationSet.items]; omega)] at this
  · rwa [Option.mem_def.mp ho] at hws

/-- An accepted commit is serializable at its slot exactly if no presence check it passed
rests on a version that shares its sequence with a tombstone over the key. -/
theorem serializable_iff_of_validate_accept (h : view.SettledAt ceiling)
    (hdirty : early.AllDirty (checks.items ops)) {commuted elided : Nat}
    (haccept : validate op checks ops early view ceiling = .ok (.accept commuted elided)) :
    Serializable op checks ops view ceiling ↔ ∀ check ∈ checks.reads,
      check.presenceOnly = true → HadValue op view check → ¬ view.Tied check.key ceiling := by
  obtain ⟨hrds, hrgs, hws⟩ := passes_of_validate_accept hdirty haccept
  constructor
  · intro hser check hchk hpres hhad htied
    have hhld := hser.reads check hchk
    rw [ReadHolds, if_pos hpres] at hhld
    exact not_present_of_tied htied (hhld hhad)
  · intro huntied
    refine ⟨fun check hchk => ?_, fun range hrng => h.rangeHolds (hrgs range hrng),
      fun observedSeq hobs => ?_⟩
    · cases hpres : check.presenceOnly with
      | false => exact h.readHolds hpres (hrds check hchk)
      | true =>
        rw [ReadHolds, if_pos hpres]
        intro hhad
        exact (h.present_or_tied hpres (hrds check hchk) hhad).resolve_right
          (huntied check hchk hpres hhad)
    · exact h.writesHold (.refl _) (fun i hi => hdirty i hi) (by simp) (hws observedSeq hobs)

end Pass

def tiedBase : LiveSst :=
  ⟨2, ⟨1, [1], [1], 100, 1, none, none⟩, ⟨[⟨[1], 2, .value, [7]⟩], .fromVec []⟩⟩

/-- An ingested table: its entry and its tombstone read at one sequence. -/
def tiedIngested : LiveSst :=
  ⟨5, ⟨2, [0], [2], 100, 1, some 5, none⟩, ⟨[⟨[1], 5, .value, [9]⟩], .fromVec [⟨[0], [2], 5⟩]⟩⟩

def tiedView (files : List LiveSst) : ReadView := ⟨.new 0, [], .levelZero files 5⟩

theorem tiedBase_sound : tiedBase.Sound :=
  LiveSst.sound_of_bounds (by decide)

theorem tiedView_settled : (tiedView [tiedBase, tiedIngested]).SettledAt 5 where
  ordered :=
    ⟨Version.wellFormed_levelZero (by simpa using
      ⟨tiedBase_sound, LiveSst.sound_of_bounds (by decide)⟩) (by decide),
      by decide, by decide, by decide, by decide⟩
  within := by decide
  proper := by decide
  ceiling := by decide

def dirtyEarly (items : Nat) : Early := ⟨0, List.replicate items .dirty⟩

theorem dirtyEarly_allDirty (items : Nat) : (dirtyEarly items).AllDirty items := fun i hi => by
  simp [Early.mark, dirtyEarly, getD_eq_getElem?_getD, hi]

/-- A transaction that found the key `[1]` at 3, and relies on its presence. -/
def tiedChecks : ValidationSet where
  reads := [⟨[1], 3, .readPresence, .seq⟩]
  writesAt := some 3
  blindMergesCommute := false
  exempt := []
  ranges := [⟨[3], [4], 3⟩]
  reads_sorted := by decide
  exempt_sorted := noneExempt_sorted

def tiedOps : List WriteBatchOp := [.put [5] [1]]

/-- The check passes, and a read of the key finds nothing. -/
theorem not_serializable_of_tied_ingest : (tiedView [tiedBase, tiedIngested]).SettledAt 5 ∧
    (dirtyEarly 3).AllDirty (tiedChecks.items tiedOps) ∧ validate none tiedChecks tiedOps
    (dirtyEarly 3) (tiedView [tiedBase, tiedIngested]) 5 =
      .ok (.accept 0 0) ∧
    (tiedView [tiedBase, tiedIngested]).readValueAt none [1] 5 = .ok none ∧
    ¬ Serializable none tiedChecks tiedOps (tiedView [tiedBase, tiedIngested]) 5 := by
  refine ⟨tiedView_settled, dirtyEarly_allDirty 3, by decide +kernel, by decide +kernel, fun h => ?_⟩
  have hread := h.reads ⟨[1], 3, .readPresence, .seq⟩ mem_cons_self
  obtain ⟨e, es, hvis, -, hlt⟩ := hread ⟨[7], by decide +kernel⟩
  have htied : (tiedView [tiedBase, tiedIngested]).visible [1] 5 =
      [⟨[1], 5, .value, [9]⟩, ⟨[1], 2, .value, [7]⟩] := by decide +kernel
  obtain ⟨rfl, -⟩ := List.cons.inj (hvis.symm.trans htied)
  exact absurd hlt (by decide +kernel)

theorem tiedBase_settled : (tiedView [tiedBase]).SettledAt 5 where
  ordered :=
    ⟨Version.wellFormed_levelZero (by simpa using tiedBase_sound) (by decide),
      by decide, by decide, by decide, by decide⟩
  within := by decide
  proper := by decide
  ceiling := by decide

/-- Without the ingested table the same commit is serializable. -/
theorem serializable_without_tied_ingest :
    Serializable none tiedChecks tiedOps (tiedView [tiedBase]) 5 := by
  have hacc : validate none tiedChecks tiedOps (dirtyEarly 3) (tiedView [tiedBase]) 5 =
      .ok (.accept 0 0) := by decide +kernel
  refine (serializable_iff_of_validate_accept tiedBase_settled (dirtyEarly_allDirty 3) hacc).mpr ?_
  rintro check hchk - - ⟨e, es, hvis, -, heq⟩
  obtain rfl := mem_singleton.mp hchk
  have hbase : (tiedView [tiedBase]).visible [1] 5 = [⟨[1], 2, .value, [7]⟩] := by decide +kernel
  obtain ⟨rfl, -⟩ := List.cons.inj (hvis.symm.trans hbase)
  exact absurd heq (by decide +kernel)

end RegolithStore
