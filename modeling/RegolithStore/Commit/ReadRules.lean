import RegolithStore.Commit.Landed
import RegolithStore.Store.Lookup

/-! The judgement of a read whose key was written after it (`read_rule.rs`,
`read_rules.rs`): by sequence, by presence, by value, or by the parts of the value the read
was of. The engine's callbacks run contained; an operator that declines is the read's
error. -/

namespace RegolithStore

open Lib List WriteKind Option

/-- The operator as a commit uses it: `touches` says whether an operand changes one of the
parts. -/
structure CommitOperator extends MergeOperator where
  touches : Key → Value → List UInt32 → Bool

inductive Access
  | read
  | readParts
  | readPresence
  | readForUpdate
  | scannedThenWrote
  | scannedRange
  | put
  | delete
  | merge
  deriving DecidableEq

structure Conflict where
  key : Key
  mine : Access
  theirs : WriteKind
  observedSeq : Seq
  latestSeq : Seq
  deriving DecidableEq

/-- What makes a newer version of a key a change to a read of it. -/
inductive ReadRule
  | seq
  | value
  | parts (parts : List UInt32)
  deriving DecidableEq

/-- A key a commit validates because the transaction read it. -/
structure ConflictKey where
  key : Key
  observedSeq : Seq
  access : Access
  rule : ReadRule

def ConflictKey.presenceOnly (check : ConflictKey) : Bool := check.access = .readPresence

/-- How one source's visit of a key's entries above a floor ended. -/
inductive Above (ρ : Type)
  | broke (result : ρ)
  | floor
  | exhausted

def visitAbove {ρ : Type} (floor : Seq) (visit : Entry → Option ρ) : List Entry → Above ρ
  | [] => .exhausted
  | e :: es =>
    if e.seq ≤ floor then .floor
    else match visit e with
      | some result => .broke result
      | none => visitAbove floor visit es

/-- The newest write above a floor that changes the parts a read named. -/
inductive Decisive
  | operand (seq : Seq)
  | replaced (seq : Seq) (kind : WriteKind) (value : Option Value)

section PartsDecisive

variable (op : Option CommitOperator) (k : Key) (parts : List UInt32)

/-- Without an operator every operand touches the parts. -/
def touchesParts (operand : Value) : Bool := op.all fun op => op.touches k operand parts

def decisiveOf (e : Entry) : Option Decisive :=
  match e.valueType with
  | .merge => if touchesParts op k parts e.value then some (.operand e.seq) else none
  | .value => some (.replaced e.seq .put (some e.value))
  | .deletion => some (.replaced e.seq .delete none)

/-- A tombstone above the floor is the last replacement there was. -/
def rangeDeleteAbove (floor maxRtSeq : Seq) : Option Decisive :=
  if floor < maxRtSeq then some (.replaced maxRtSeq .rangeDelete none) else none

def partsVisit (floor ceil maxRtSeq : Seq) (_ : Unit) (s : Source) :
    Except (Option Decisive) Unit :=
  match visitAbove (max floor maxRtSeq) (decisiveOf op k parts) (s.visible k ceil) with
  | .broke decisive => .error (some decisive)
  | .floor => .error (rangeDeleteAbove floor maxRtSeq)
  | .exhausted => .ok ()

end PartsDecisive

namespace ReadView

variable (view : ReadView) (op : Option CommitOperator)

def partsDecisive (k : Key) (floor ceil : Seq) (parts : List UInt32) : Option Decisive :=
  match view.walkNewestFirst k ceil (partsVisit op k parts floor ceil) () with
  | .error decisive => decisive
  | .ok ((), maxRtSeq) => rangeDeleteAbove floor maxRtSeq

def readValueAt (k : Key) (seq : Seq) : Except ReadError (Option Value) :=
  view.lookupLoaded k seq (op.map CommitOperator.toMergeOperator)

/-- The value rule: the newest version is a put leaving the bytes read, or a delete where
nothing was read. -/
def valueChanged (check : ConflictKey) (latest : Seq × WriteKind) (old : Option Value) (ceil : Seq) :
    Except ReadError (Option (Seq × WriteKind)) :=
  match latest.2 with
  | .merge => .ok (some latest)
  | .delete | .rangeDelete => .ok (if old = none then none else some latest)
  | .put => do
    let current ← view.readValueAt op check.key ceil
    return if old = current then none else some latest

/-- The write that makes the read stale, or `none` where the newer versions leave it as it
was. -/
def readChanged (check : ConflictKey) (latest : Seq × WriteKind) (ceil : Seq) :
    Except ReadError (Option (Seq × WriteKind)) :=
  if check.presenceOnly then .ok (if latest.2.isDeletion then some latest else none)
  else match check.rule with
  | .seq => .ok (some latest)
  | .value => do
    -- an operand on top is a change whatever it folds to
    let old ← if latest.2 = .merge then pure none
      else view.readValueAt op check.key check.observedSeq
    view.valueChanged op check latest old ceil
  | .parts parts => do
    let old ← view.readValueAt op check.key check.observedSeq
    if old = none then view.valueChanged op check latest none ceil
    else match view.partsDecisive op check.key check.observedSeq ceil parts with
    | none => return none
    | some (.operand seq) => return some (seq, .merge)
    | some (.replaced seq kind value) =>
      return if kind = .put ∧ value = old then none else some (seq, kind)

end ReadView

section PartsOf

variable {op : Option CommitOperator} {k : Key} {parts : List UInt32} {floor ceil rt : Seq}
  {es : List Entry}

private def partsStep (op : Option CommitOperator) (k : Key) (parts : List UInt32) (floor m : Seq)
    (_ : Unit) (e : Entry) : Except (Option Decisive) Unit :=
  if e.seq ≤ max floor m then .error (rangeDeleteAbove floor m)
  else match decisiveOf op k parts e with
    | some decisive => .error (some decisive)
    | none => .ok ()

private theorem partsStep_steady : Steady Entry.seq (partsStep op k parts floor) := by
  intro m m' u e h h'
  have hle : ∀ {q : Seq}, q < e.seq → (e.seq ≤ max floor q ↔ e.seq ≤ floor) := fun hq => by
    rw [le_max_iff, or_iff_left hq.not_ge]
  by_cases hf : e.seq ≤ floor
  · have hn : ∀ {q : Seq}, q < e.seq → rangeDeleteAbove floor q = none := fun hq =>
      if_neg (lt_asymm (hq.trans_le hf))
    simp only [partsStep, hle h, hle h', hf, if_true, hn h, hn h']
  · simp only [partsStep, hle h, hle h', hf, if_false]

private theorem partsVisit_eq (m : Seq) (u : Unit) (s : Source) :
    partsVisit op k parts floor ceil m u s =
      (s.visible k ceil).foldlM (partsStep op k parts floor m) u := by
  rw [partsVisit]
  generalize s.visible k ceil = es
  induction es with
  | nil => rfl
  | cons e es ih =>
    rw [visitAbove, foldlM_cons, partsStep]
    split_ifs with hf
    · rfl
    · cases decisiveOf op k parts e with
      | some decisive => rfl
      | none => exact ih

/-- The first of the entries above the floor and the tombstone `rt` that changes a part. -/
def partsOf (op : Option CommitOperator) (k : Key) (parts : List UInt32) (floor rt : Seq) :
    List Entry → Option Decisive
  | [] => rangeDeleteAbove floor rt
  | e :: es =>
    if e.seq ≤ max floor rt then rangeDeleteAbove floor rt
    else match decisiveOf op k parts e with
      | some decisive => some decisive
      | none => partsOf op k parts floor rt es

theorem ReadView.LsmOrdered.partsDecisive_eq {view : ReadView} (h : view.LsmOrdered) :
    view.partsDecisive op k floor ceil parts =
      partsOf op k parts floor (view.coveringSeq k ceil) (view.visible k ceil) := by
  rw [partsDecisive, h.walkNewestFirst_eq partsVisit_eq partsStep_steady
    fun s => List.Subset.refl _, ← ReadView.visible]
  generalize view.visible k ceil = es
  induction es with
  | nil => rfl
  | cons e es ih =>
    rw [foldlM_cons, partsStep, partsOf]
    split_ifs with hf
    · rfl
    · cases decisiveOf op k parts e with
      | some decisive => rfl
      | none => exact ih

/-- An operand the operator says touches none of the parts. -/
def Spared (op : Option CommitOperator) (k : Key) (parts : List UInt32) (e : Entry) : Prop :=
  e.valueType = .merge ∧ touchesParts op k parts e.value = false

theorem decisiveOf_eq_none {e : Entry} : decisiveOf op k parts e = none ↔ Spared op k parts e := by
  rw [decisiveOf, Spared]
  cases e.valueType <;> simp

/-- Nothing touches the parts when only spared operands lie above the floor. -/
theorem partsOf_eq_none (hes : es.Pairwise fun a b => b.seq < a.seq)
    (h : partsOf op k parts floor rt es = none) :
    rt ≤ floor ∧ ∃ operands rest, es = operands ++ rest ∧
      (∀ e ∈ operands, Spared op k parts e ∧ floor < e.seq) ∧ ∀ e ∈ rest, e.seq ≤ floor := by
  have hn : rangeDeleteAbove floor rt = none → rt ≤ floor := fun h => by
    rw [rangeDeleteAbove] at h
    split_ifs at h with hrt
    exact not_lt.mp hrt
  induction es with
  | nil => exact ⟨hn h, [], [], rfl, by simp, by simp⟩
  | cons e es ih =>
    obtain ⟨hnewest, htail⟩ := pairwise_cons.mp hes
    rw [partsOf] at h
    split_ifs at h with hf
    · have hrt := hn h
      rw [max_eq_left hrt] at hf
      exact ⟨hrt, [], e :: es, rfl, by simp, forall_mem_cons.mpr
        ⟨hf, fun e' he' => (hnewest e' he').le.trans hf⟩⟩
    · cases hd : decisiveOf op k parts e with
      | some d => rw [hd] at h; simp at h
      | none =>
        rw [hd] at h
        obtain ⟨hrt, operands, rest, rfl, hops, hr⟩ := ih htail h
        have hlt : floor < e.seq := not_le.mp fun hle => hf (hle.trans (le_max_left _ _))
        exact ⟨hrt, e :: operands, rest, rfl,
          forall_mem_cons.mpr ⟨⟨decisiveOf_eq_none.mp hd, hlt⟩, hops⟩, hr⟩

theorem partsOf_eq_put {seq : Seq} {value : Option Value}
    (h : partsOf op k parts floor rt es = some (.replaced seq .put value)) :
    ∃ operands put rest, es = operands ++ put :: rest ∧
      (∀ e ∈ operands, Spared op k parts e ∧ floor < e.seq) ∧ put.valueType = .value ∧
      rt < put.seq ∧ value = some put.value := by
  have hnot : rangeDeleteAbove floor rt ≠ some (.replaced seq .put value) := by
    rw [rangeDeleteAbove]
    split_ifs <;> simp
  induction es with
  | nil => exact absurd h hnot
  | cons e es ih =>
    rw [partsOf] at h
    split_ifs at h with hf
    · exact absurd h hnot
    · cases hd : decisiveOf op k parts e with
      | some d =>
        rw [hd] at h
        obtain rfl : d = .replaced seq .put value := some.inj h
        have htype : e.valueType = .value ∧ value = some e.value := by
          rw [decisiveOf] at hd
          cases ht : e.valueType <;> simp [ht] at hd
          exact ⟨rfl, hd.2.symm⟩
        exact ⟨[], e, es, rfl, by simp, htype.1,
          (le_max_right _ _).trans_lt (not_le.mp hf), htype.2⟩
      | none =>
        rw [hd] at h
        obtain ⟨operands, put, rest, rfl, hops, hput⟩ := ih h
        have hlt : floor < e.seq := not_le.mp fun hle => hf (hle.trans (le_max_left _ _))
        exact ⟨e :: operands, put, rest, rfl,
          forall_mem_cons.mpr ⟨⟨decisiveOf_eq_none.mp hd, hlt⟩, hops⟩, hput⟩

end PartsOf

namespace ReadView

variable {view : ReadView} {op : Option CommitOperator} {k : Key} {r ceil : Seq}
  {latest : Seq × WriteKind}

/-- The key is there at `r`: its newest version is no deletion, and no tombstone hides it. -/
def Present (view : ReadView) (k : Key) (r : Seq) : Prop :=
  ∃ e es, view.visible k r = e :: es ∧ e.valueType ≠ .deletion ∧ view.coveringSeq k r < e.seq

/-- The key's newest version is no deletion and shares its sequence with a tombstone over the
key. -/
def Tied (view : ReadView) (k : Key) (r : Seq) : Prop :=
  ∃ e es, view.visible k r = e :: es ∧ e.valueType ≠ .deletion ∧ view.coveringSeq k r = e.seq

/-- The versions of the key since the read are spared operands, on the base that was read or
on a put of the value that was read. -/
def PartsKept (view : ReadView) (op : Option CommitOperator) (check : ConflictKey)
    (parts : List UInt32) (ceil : Seq) : Prop :=
  ∃ operands rest, view.visible check.key ceil = operands ++ rest ∧
    (∀ e ∈ operands, Spared op check.key parts e ∧ check.observedSeq < e.seq) ∧
    ((view.coveringSeq check.key ceil ≤ check.observedSeq ∧
        ∀ e ∈ rest, e.seq ≤ check.observedSeq) ∨
      ∃ put older, rest = put :: older ∧ put.valueType = .value ∧
        view.coveringSeq check.key ceil < put.seq ∧
        view.readValueAt op check.key check.observedSeq = .ok (some put.value))

section

variable (h : view.LsmOrdered)

include h

theorem LsmOrdered.readValueAt_eq_none (hn : ∀ e es, view.visible k r = e :: es →
      e.valueType = .deletion ∨ e.seq ≤ view.coveringSeq k r) :
    view.readValueAt op k r = .ok none := by
  cases op with
  | none =>
    refine congrArg Except.ok ?_
    cases hv : view.visible k r with
    | nil => exact h.lookupInView_of_nil hv
    | cons e es =>
      rcases hn e es hv with hdel | hseq
      · rw [h.lookupInView_of_cons hv (by simp [hdel]), Entry.answer, if_pos hdel, ite_self]
      · rw [h.lookupInView_eq]
        cases hanswer : view.answering k r with
        | nil => rfl
        | cons a as =>
          -- what answers is no newer than the newest version, which is hidden
          have ha : a ∈ e :: es :=
            hv ▸ answering_sublist.subset (hanswer ▸ mem_cons_self)
          have hd : (e :: es).Pairwise fun a b => b.seq < a.seq :=
            hv ▸ h.visible_descending
          have hle : a.seq ≤ e.seq := by
            rcases mem_cons.mp ha with rfl | ha
            · exact le_rfl
            · exact ((pairwise_cons.mp hd).1 a ha).le
          exact if_neg (not_lt.mpr (hle.trans hseq))
  | some op =>
    refine (h.getWithMerge_eq op.toMergeOperator).trans ?_
    cases hv : view.visible k r with
    | nil => rfl
    | cons e es =>
      by_cases hseq : view.coveringSeq k r < e.seq
      · have hdel := (hn e es hv).resolve_right hseq.not_ge
        have hm : e.valueType ≠ .merge := by simp [hdel]
        rw [takeWhile_cons_of_pos (by simpa using hseq), resolve_eq, chainBase_cons hm,
          chainOperands_cons hm, baseOf, if_neg (by simp [hdel])]
        rfl
      · rw [takeWhile_cons_of_neg (by simpa using hseq)]
        rfl

theorem LsmOrdered.present_of_readValueAt {v : Value}
    (hr : view.readValueAt op k r = .ok (some v)) : view.Present k r := by
  by_contra hnot
  refine absurd hr ?_
  rw [h.readValueAt_eq_none fun e es hv => ?_]
  · simp
  · by_contra hcontra
    obtain ⟨hdel, hseq⟩ := not_or.mp hcontra
    exact hnot ⟨e, es, hv, hdel, not_le.mp hseq⟩

variable (hlat : view.latestVersionUpto k ceil = some latest)

include hlat

theorem LsmOrdered.readValueAt_of_deletion (hdel : latest.2.isDeletion = true) :
    view.readValueAt op k ceil = .ok none := by
  refine h.readValueAt_eq_none fun e es hv => ?_
  rw [h.latestVersionUpto_eq, hv, newestOf, some.injEq] at hlat
  by_cases hseq : e.seq < view.coveringSeq k ceil
  · exact .inr hseq.le
  · rw [if_neg hseq] at hlat
    left
    cases ht : e.valueType <;> simp_all [← hlat, ValueType.writeKind, isDeletion]

theorem LsmOrdered.readValueAt_of_not_merge (hm : latest.2 ≠ .merge) :
    view.readValueAt op k ceil = .ok (view.lookupInView k ceil) := by
  by_cases hdel : latest.2.isDeletion = true
  · have hn : view.readValueAt none k ceil = .ok none := h.readValueAt_of_deletion hlat hdel
    rw [h.readValueAt_of_deletion hlat hdel, ← hn]
    rfl
  cases op with
  | none => rfl
  | some op =>
    refine (h.getWithMerge_eq op.toMergeOperator).trans ?_
    rw [h.latestVersionUpto_eq] at hlat
    cases hv : view.visible k ceil with
    | nil => rw [h.lookupInView_of_nil hv]; rfl
    | cons e es =>
      rw [hv, newestOf, some.injEq] at hlat
      have hseq : ¬ e.seq < view.coveringSeq k ceil := fun hlt => by
        rw [if_pos hlt] at hlat
        exact hdel (hlat ▸ rfl)
      rw [if_neg hseq] at hlat
      have htype : e.valueType = .value := by
        cases ht : e.valueType with
        | value => rfl
        | deletion => exact absurd (by rw [← hlat, ht]; rfl) hdel
        | merge => exact absurd (by rw [← hlat, ht]; rfl) hm
      have hne : e.valueType ≠ .merge := by simp [htype]
      rw [h.lookupInView_of_cons hv hne]
      by_cases hlt : view.coveringSeq k ceil < e.seq
      · rw [takeWhile_cons_of_pos (by simpa using hlt), if_pos hlt, resolve_eq,
          chainBase_cons hne, chainOperands_cons hne, baseOf, if_pos htype, Entry.answer,
          if_neg (by simp [htype])]
        rfl
      · rw [takeWhile_cons_of_neg (by simpa using hlt), if_neg hlt]
        rfl

/-- What is accepted as present is there, unless it shares its sequence with a tombstone. -/
theorem LsmOrdered.present_or_tied (hdel : latest.2.isDeletion = false) :
    view.Present k ceil ∨ view.Tied k ceil := by
  rw [h.latestVersionUpto_eq] at hlat
  cases hv : view.visible k ceil with
  | nil =>
    rw [hv, newestOf] at hlat
    split_ifs at hlat
    rw [← some.inj hlat] at hdel
    exact absurd hdel (by simp [isDeletion])
  | cons e es =>
    rw [hv, newestOf, some.injEq] at hlat
    split_ifs at hlat with hseq
    · rw [← hlat] at hdel
      exact absurd hdel (by simp [isDeletion])
    · have htype : e.valueType ≠ .deletion := fun ht => by
        rw [← hlat, ht] at hdel
        exact absurd hdel (by simp [isDeletion, ValueType.writeKind])
      rcases (not_lt.mp hseq).lt_or_eq with hlt | heq
      · exact .inl ⟨e, es, hv, htype, hlt⟩
      · exact .inr ⟨e, es, hv, htype, heq⟩

end

theorem not_present_of_tied (h : view.Tied k r) : ¬ view.Present k r := by
  rintro ⟨e, es, hv, -, hlt⟩
  obtain ⟨e', es', hvisible', -, heq⟩ := h
  obtain ⟨rfl, -⟩ := List.cons.inj (hvisible'.symm.trans hv)
  exact absurd heq hlt.ne

/-- A read the value rule passes finds the value it found. -/
theorem LsmOrdered.valueChanged_eq_none (h : view.LsmOrdered) {check : ConflictKey}
    {old : Option Value} (hlat : view.latestVersionUpto check.key ceil = some latest)
    (hs : view.valueChanged op check latest old ceil = .ok none) :
    view.readValueAt op check.key ceil = .ok old ∧ latest.2 ≠ .merge := by
  obtain ⟨seq, kind⟩ := latest
  have hdeleted : kind.isDeletion = true → old = none →
      view.readValueAt op check.key ceil = .ok old := fun hdel hold =>
    hold ▸ h.readValueAt_of_deletion hlat hdel
  cases kind with
  | merge => simp [valueChanged] at hs
  | delete | rangeDelete =>
    refine ⟨hdeleted rfl ?_, by simp⟩
    by_contra hold
    simp [valueChanged, hold] at hs
  | put =>
    refine ⟨?_, by simp⟩
    simp only [valueChanged] at hs
    cases hr : view.readValueAt op check.key ceil with
    | error e => simp [hr, bind, Except.bind] at hs
    | ok current =>
      simp only [hr, bind, Except.bind, pure, Except.pure, Except.ok.injEq] at hs
      by_cases hold : old = current
      · rw [hold]
      · simp [hold] at hs

end ReadView

end RegolithStore
