import RegolithStore.Compaction.ReadsPreserved
import RegolithStore.Store.Committed
import RegolithStore.Txn.WriteBuffer

/-! A transaction commits what it read of itself. A read folds a key's buffered writes onto
what the database held when the transaction began; a commit splits the same writes into point
writes and operands, partially merges the operands, and a later read folds what it stored. -/

namespace RegolithStore

open Lib List

variable {k : Key} {ps : List (Key × Option Value)} {xs ys : List Value}

section ValuesOf

variable {α : Type} {l : List (Key × α)}

theorem valuesOf_nil : valuesOf k ([] : List (Key × α)) = [] := rfl

theorem valuesOf_cons (n : Key × α) (l : List (Key × α)) :
    valuesOf k (n :: l) = if n.1 = k then n.2 :: valuesOf k l else valuesOf k l := by
  by_cases h : n.1 = k <;> simp [h, valuesOf]

theorem valuesOf_append (l l' : List (Key × α)) :
    valuesOf k (l ++ l') = valuesOf k l ++ valuesOf k l' := by
  rw [valuesOf, filter_append, map_append, valuesOf, valuesOf]

theorem valuesOf_reverse (l : List (Key × α)) : valuesOf k l.reverse = (valuesOf k l).reverse := by
  rw [valuesOf, filter_reverse, map_reverse, valuesOf]

theorem valuesOf_stableSort (l : List (Key × α)) :
    valuesOf k (stableSort Prod.fst l) = valuesOf k l := by
  have hself : stableSort Prod.fst (l.filter fun n => decide (n.1 = k)) =
      l.filter fun n => decide (n.1 = k) := by
    refine stableSort_eq_self (pairwise_of_forall_mem_list fun a ha b hb => ?_)
    rw [of_decide_eq_true (mem_filter.mp ha).2, of_decide_eq_true (mem_filter.mp hb).2]
  rw [valuesOf, ← stableSort_filter, hself, valuesOf]

theorem valuesOf_eq_nil (h : ∀ n ∈ l, n.1 ≠ k) : valuesOf k l = [] := by
  rw [valuesOf, map_eq_nil_iff, filter_eq_nil_iff]
  exact fun n hn => by simpa using h n hn

theorem valuesOf_eq_nil_iff : valuesOf k l = [] ↔ k ∉ l.map Prod.fst := by
  rw [valuesOf, map_eq_nil_iff, filter_eq_nil_iff]
  simp only [decide_eq_true_eq, mem_map, not_exists, not_and]

end ValuesOf

variable (points : List (Key × Option Value)) {value : Option Value}

namespace WriteBuffer

/-- The point writes in key order, one a key. -/
def Ascending : Prop := points.Pairwise fun p q => p.1 < q.1

theorem mem_orInsert {key : Key} {p : Key × Option Value}
    (h : p ∈ orInsert key value ps) : p = (key, value) ∨ p ∈ ps := by
  induction ps with
  | nil => exact .inl (mem_singleton.mp h)
  | cons q ps ih =>
    rw [orInsert] at h
    split_ifs at h
    · rcases mem_cons.mp h with rfl | h
      · exact .inr mem_cons_self
      · exact (ih h).imp_right (mem_cons_of_mem _)
    · exact .inr h
    · exact mem_cons.mp h

theorem Ascending.orInsert (h : Ascending ps) (key : Key) (value : Option Value) :
    Ascending (orInsert key value ps) := by
  induction ps with
  | nil => exact pairwise_singleton _ _
  | cons p ps ih =>
    obtain ⟨hp, hps⟩ := pairwise_cons.mp h
    rw [WriteBuffer.orInsert]
    split_ifs with hlt heq
    · refine .cons (fun q hq => ?_) (ih hps)
      rcases mem_orInsert hq with rfl | hq
      · exact hlt
      · exact hp q hq
    · exact h
    · have hkey : key < p.1 := lt_of_le_of_ne (not_lt.mp hlt) (Ne.symm heq)
      refine .cons (fun q hq => ?_) h
      rcases mem_cons.mp hq with rfl | hq
      · exact hkey
      · exact hkey.trans (hp q hq)

theorem valuesOf_orInsert (h : Ascending ps) (key : Key)
    (value : Option Value) (k : Key) : valuesOf k (orInsert key value ps) =
      if key = k ∧ valuesOf k ps = [] then [value] else valuesOf k ps := by
  induction ps with
  | nil =>
    rw [orInsert, valuesOf_cons]
    by_cases hk : key = k <;> simp [hk, valuesOf]
  | cons p ps ih =>
    obtain ⟨hp, hps⟩ := pairwise_cons.mp h
    rw [orInsert]
    by_cases hlt : p.1 < key
    · rw [if_pos hlt, valuesOf_cons, ih hps, valuesOf_cons]
      by_cases hpk : p.1 = k
      · have hne : key ≠ k := fun h => hlt.ne (hpk.trans h.symm)
        rw [if_pos hpk, if_pos hpk, if_neg fun h => hne h.1, if_neg fun h => hne h.1]
      · rw [if_neg hpk, if_neg hpk]
    rw [if_neg hlt]
    by_cases heq : p.1 = key
    · have hkeep : ¬(key = k ∧ valuesOf k (p :: ps) = []) := fun h => by
        rw [valuesOf_cons, if_pos (heq.trans h.1)] at h
        exact absurd h.2 (cons_ne_nil _ _)
      rw [if_pos heq, if_neg hkeep]
    · have hkey : key < p.1 := lt_of_le_of_ne (not_lt.mp hlt) (Ne.symm heq)
      rw [if_neg heq, valuesOf_cons]
      by_cases hk : key = k
      · have hnil : valuesOf k (p :: ps) = [] := valuesOf_eq_nil fun n hn => by
          rcases mem_cons.mp hn with rfl | hn
          · exact (hk ▸ hkey).ne'
          · exact (hk ▸ hkey.trans (hp n hn)).ne'
        rw [if_pos hk, if_pos ⟨hk, hnil⟩, hnil]
      · rw [if_neg hk, if_neg fun h => hk h.1]

end WriteBuffer

namespace KeyWrites

theorem foldFrom_eq (operands : List Value) (chain : List Write) :
    foldFrom operands chain = ⟨(fold chain).base, (fold chain).operands ++ operands⟩ := by
  induction chain generalizing operands with
  | nil => rfl
  | cons w chain ih =>
    cases w with
    | put value | delete => rfl
    | merge operand =>
      rw [fold, foldFrom, foldFrom, ih, ih [operand]]
      simp

theorem fold_merge (operand : Value) (chain : List Write) : fold (.merge operand :: chain) =
    ⟨(fold chain).base, (fold chain).operands ++ [operand]⟩ := foldFrom_eq [operand] chain

end KeyWrites

namespace WriteBuffer

/-- What the writes of `k` not drained yet add to what is settled of it. -/
def SettlesFrom (k : Key) (drained : List (Key × Write)) (ps : List (Key × Option Value))
    (os : List (Key × Value)) : Prop :=
  valuesOf k (drained.foldl settleStep (ps, os)).1 =
      (if valuesOf k ps = [] then (KeyWrites.fold (valuesOf k drained)).base.toList
        else valuesOf k ps) ∧
    valuesOf k (drained.foldl settleStep (ps, os)).2 = valuesOf k os ++
      if valuesOf k ps = [] then (KeyWrites.fold (valuesOf k drained)).operands.reverse else []

variable {key : Key} {drained : List (Key × Write)} {os : List (Key × Value)}

theorem SettlesFrom.replace {w : Write} (hps : Ascending ps)
    (hs : settleStep (ps, os) (key, w) = (orInsert key value ps, os))
    (hfold : ∀ chain, KeyWrites.fold (w :: chain) = ⟨some value, []⟩)
    (h : SettlesFrom k drained (orInsert key value ps) os) :
    SettlesFrom k ((key, w) :: drained) ps os := by
  rw [SettlesFrom, valuesOf_orInsert hps] at h
  rw [SettlesFrom, foldl_cons, hs, valuesOf_cons]
  by_cases hk : key = k
  · rw [if_pos hk, hfold]
    by_cases hnil : valuesOf k ps = [] <;> simpa [hk, hnil] using h
  · simpa [hk] using h

theorem SettlesFrom.merge {operand : Value}
    (h : ∀ os, SettlesFrom k drained ps os) : SettlesFrom k ((key, .merge operand) :: drained) ps os := by
  have hs : settleStep (ps, os) (key, .merge operand) =
    if key ∈ ps.map Prod.fst then (ps, os) else (ps, os ++ [(key, operand)]) := rfl
  rw [SettlesFrom, foldl_cons, hs, valuesOf_cons]
  by_cases hmem : key ∈ ps.map Prod.fst
  · rw [if_pos hmem]
    by_cases hk : key = k
    · have hne : valuesOf k ps ≠ [] := fun hnil => valuesOf_eq_nil_iff.mp hnil (hk ▸ hmem)
      have hr := h os
      rw [SettlesFrom, if_neg hne, if_neg hne] at hr
      rwa [if_neg hne, if_neg hne]
    · rw [if_neg hk]
      exact h os
  · rw [if_neg hmem]
    have hr := h (os ++ [(key, operand)])
    rw [SettlesFrom, valuesOf_append, valuesOf_cons] at hr
    by_cases hk : key = k
    · have hnil : valuesOf k ps = [] := valuesOf_eq_nil_iff.mpr (hk ▸ hmem)
      rw [if_pos hk, KeyWrites.fold_merge]
      simpa [hk, hnil, valuesOf_nil] using hr
    · simpa [hk, valuesOf_nil] using hr

theorem settlesFrom (k : Key) (drained : List (Key × Write))
    (hps : Ascending ps) (os : List (Key × Value)) : SettlesFrom k drained ps os := by
  induction drained generalizing ps os with
  | nil =>
    rw [SettlesFrom]
    by_cases hnil : valuesOf k ps = [] <;>
      simp [hnil, valuesOf_nil, KeyWrites.fold, KeyWrites.foldFrom]
  | cons n drained ih =>
    obtain ⟨key, w⟩ := n
    cases w with
    | merge operand => exact .merge fun os => ih hps os
    | put value => exact .replace hps rfl (fun _ => rfl) (ih (hps.orInsert key (some value)) os)
    | delete => exact .replace hps rfl (fun _ => rfl) (ih (hps.orInsert key none) os)

theorem settle_valuesOf (k : Key) (drained : List (Key × Write)) :
    valuesOf k (settle drained).1 = (KeyWrites.fold (valuesOf k drained)).base.toList ∧
      valuesOf k (settle drained).2 = (KeyWrites.fold (valuesOf k drained)).operands := by
  have h := settlesFrom k drained .nil []
  refine ⟨h.1, ?_⟩
  rw [settle, valuesOf_reverse, h.2]
  simp [valuesOf_nil]

end WriteBuffer

variable (op : MergeOperator)

namespace MergeOperator

/-- Operands `ys` stand for operands `xs` of `k`, wherever they lie among others. -/
def Stands (k : Key) (xs ys : List Value) : Prop :=
  (ys = [] ↔ xs = []) ∧ ∀ base pre post,
    op.fullMerge k base (pre ++ (ys ++ post)) = op.fullMerge k base (pre ++ (xs ++ post))

variable {op : MergeOperator}

theorem Stands.refl (xs : List Value) : op.Stands k xs xs := ⟨Iff.rfl, fun _ _ _ => rfl⟩

theorem Stands.append {xs' ys' : List Value} (h : op.Stands k xs ys)
    (h' : op.Stands k xs' ys') : op.Stands k (xs ++ xs') (ys ++ ys') := by
  refine ⟨by rw [append_eq_nil_iff, append_eq_nil_iff, h.1, h'.1], fun base pre post => ?_⟩
  rw [append_assoc, h.2, ← append_assoc, h'.2, append_assoc, append_assoc]

theorem Stands.foldOnto (h : op.Stands k xs ys) (base : Option Value)
    (pre : List Value) : foldOnto op k base (pre ++ ys) = foldOnto op k base (pre ++ xs) := by
  have hf := h.2 base pre []
  rw [append_nil, append_nil] at hf
  simp only [RegolithStore.foldOnto, append_eq_nil_iff, h.1, hf]

theorem PartialMergeAgrees.stands_combine (h : op.PartialMergeAgrees) {limit : Nat}
    {l r combined : Value} (hc : combine op limit k l r = some combined) :
    op.Stands k [l, r] [combined] := by
  rw [combine] at hc
  split_ifs at hc
  obtain ⟨hm, -⟩ := Option.filter_eq_some_iff.mp hc
  exact ⟨by simp, fun base pre post => (h k l r combined hm base pre post).symm⟩

theorem PartialMergeAgrees.stands_joinHalves (h : op.PartialMergeAgrees) (limit : Nat)
    (left right : List Value) : op.Stands k (left ++ right) (joinHalves op limit k left right) := by
  rw [joinHalves.eq_def]
  split
  · split
    · exact h.stands_combine ‹_›
    · exact .refl _
  · exact .refl _

theorem Stands.trans {zs : List Value} (h : op.Stands k xs ys) (h' : op.Stands k ys zs) :
    op.Stands k xs zs := ⟨h'.1.trans h.1, fun base pre post => (h'.2 base pre post).trans (h.2 ..)⟩

theorem PartialMergeAgrees.stands_foldRun (h : op.PartialMergeAgrees) (limit : Nat)
    (operands : List Value) : op.Stands k operands (foldRun op limit k operands) := by
  -- by the halves the run is folded in
  fun_induction foldRun op limit k operands with
  | case1 operands _ => exact .refl _
  | case2 operands _ ihl ihr =>
    have hhalves := ihl.append ihr
    rw [take_append_drop] at hhalves
    exact hhalves.trans (h.stands_joinHalves limit _ _)

end MergeOperator

/-- Folding leaves each key's run to itself. -/
theorem valuesOf_foldMerges (limit : Nat) (merges : List (Key × Value))
    (k : Key) : valuesOf k (foldMerges op limit merges) = foldRun op limit k (valuesOf k merges) := by
  have hmake : ∀ g ∈ runsOf Prod.fst (stableSort Prod.fst merges), ∀ b ∈ foldKeyRun op limit g,
      ∃ a ∈ g, b.1 = a.1 := by
    intro g _ b hb
    cases g with
    | nil => exact absurd hb not_mem_nil
    | cons p g =>
      obtain ⟨v, -, rfl⟩ := mem_map.mp hb
      exact ⟨p, mem_cons_self, rfl⟩
  have hf := filter_flatMap_groups Prod.fst (foldKeyRun op limit) rfl
    (fun g => ne_nil_of_mem_runsOf) (fun g hg a ha b hb => eq_of_mem_runsOf hg ha hb)
    (runsOf_pairwise_lt (pairwise_stableSort merges)) hmake k
  rw [flatten_runsOf] at hf
  rw [valuesOf, foldMerges, hf, ← valuesOf_stableSort merges, valuesOf]
  cases hrun : (stableSort Prod.fst merges).filter fun n => decide (n.1 = k) with
  | nil => simp [foldKeyRun, foldRun]
  | cons p g =>
    have hp : p.1 = k :=
      of_decide_eq_true (mem_filter.mp (hrun ▸ mem_cons_self :
        p ∈ (stableSort Prod.fst merges).filter fun n => decide (n.1 = k))).2
    rw [foldKeyRun, map_map, hp]
    exact map_id _

theorem drainWrites_spec {op : MergeOperator} (h : op.PartialMergeAgrees) (limit : Nat)
    (writes : TxnBuffer Write) (k : Key) : valuesOf k (drainWrites (some op) limit writes).1 =
        (KeyWrites.fold (writes.chain k)).base.toList ∧
      op.Stands k (KeyWrites.fold (writes.chain k)).operands
        (valuesOf k (drainWrites (some op) limit writes).2) := by
  obtain ⟨hp, hmerges⟩ := WriteBuffer.settle_valuesOf k writes.nodes
  rw [TxnBuffer.chain, ← hp, ← hmerges]
  simp only [drainWrites]
  split_ifs
  · refine ⟨rfl, ?_⟩
    rw [valuesOf_foldMerges]
    exact h.stands_foldRun limit _
  · exact ⟨rfl, .refl _⟩

def pointVersion : Option Value → ValueType × Value
  | some value => (.value, value)
  | none => (.deletion, [])

theorem filterMap_versionOf_map {α : Type} {f : Key × α → WriteBatchOp} {g : α → ValueType × Value} (h : ∀ n, (f n).versionOf k = if n.1 = k then some (g n.2) else none)
    (l : List (Key × α)) :
    (l.map f).filterMap (WriteBatchOp.versionOf k) = (valuesOf k l).map g := by
  induction l with
  | nil => rfl
  | cons n l ih =>
    rw [map_cons, valuesOf_cons, filterMap_cons, h]
    by_cases hk : n.1 = k <;> simp [hk, ih]

theorem versionOf_groupedBatchOps (merges : List (Key × Value))
    (k : Key) : (groupedBatchOps points [] merges).filterMap (WriteBatchOp.versionOf k) =
      (valuesOf k points).map pointVersion ++ (valuesOf k merges).map fun v => (.merge, v) := by
  have hpoint : ∀ n : Key × Option Value, (pointOp n).versionOf k =
      if n.1 = k then some (pointVersion n.2) else none := by
    rintro ⟨key, _ | value⟩ <;> rfl
  rw [groupedBatchOps, map_nil, append_nil, filterMap_append,
    filterMap_versionOf_map hpoint, filterMap_versionOf_map
      fun n => rfl, valuesOf_stableSort]

theorem opTombstones_groupedBatchOps (merges : List (Key × Value)) (next : Seq) :
    opTombstones (groupedBatchOps points [] merges) next = [] := by
  rw [opTombstones, filterMap_eq_nil_iff]
  intro p hp
  have hmem := mem_of_mem_sequenced hp
  rw [groupedBatchOps, map_nil, append_nil, mem_append, mem_map, mem_map] at hmem
  rcases hmem with ⟨⟨key, _ | value⟩, -, hop⟩ | ⟨n, -, hop⟩ <;> rw [← hop] <;> rfl

/-- Operands over what replaced the key, or where nothing did over the chain. -/
def foldOver (k : Key) (chain : List Entry) (operands : List Value) :
    Option (Option Value) → Except ReadError (Option Value)
  | some value => foldOnto op k value operands
  | none => foldOnto op k (chainBase chain) (chainOperands chain ++ operands)

/-- What a commit stores of a key resolves as its settled writes. -/
theorem resolve_ownVersions {points : List (Key × Option Value)}
    {base : Option (Option Value)} (hp : valuesOf k points = base.toList) (op : MergeOperator)
    (merges : List (Key × Value)) (next : Seq) (chain : List Entry) :
    resolve op k (ownVersions k (groupedBatchOps points [] merges) next ++ chain) =
      foldOver op k chain (valuesOf k merges) base := by
  have hmap := map_ownVersions k (groupedBatchOps points [] merges) next
  rw [versionOf_groupedBatchOps, hp, reverse_append, ← map_reverse] at hmap
  obtain ⟨operands, rest, hown, hoperands, hr⟩ := map_eq_append_iff.mp hmap
  have hm : ∀ e ∈ operands, e.valueType = .merge := fun e he => by
    have hmem : (e.valueType, e.value) ∈ operands.map fun e => (e.valueType, e.value) :=
      mem_map_of_mem he
    rw [hoperands] at hmem
    obtain ⟨v, -, hv⟩ := mem_map.mp hmem
    exact (congrArg Prod.fst hv).symm
  have hvalues : operands.reverse.map Entry.value = valuesOf k merges := by
    have h : operands.map Entry.value = (valuesOf k merges).reverse := by
      simpa [Function.comp_def] using congrArg (List.map Prod.snd) hoperands
    rw [map_reverse, h, reverse_reverse]
  rw [hown, append_assoc, resolve_eq, chainBase_append hm, chainOperands_append hm, hvalues]
  cases base with
  | none =>
    have hnil : rest = [] := by simpa using hr
    rw [hnil, nil_append, foldOver]
  | some value =>
    obtain ⟨e, rfl, he⟩ := map_eq_singleton_iff.mp hr
    cases value with
    | none | some value =>
      obtain ⟨htype, hvalue⟩ := Prod.mk.inj he
      have hne : e.valueType ≠ .merge := by rw [htype]; decide
      rw [singleton_append, chainBase_cons hne, chainOperands_cons hne, baseOf, htype, foldOver]
      simp [hvalue]

/-- The buffered writes of a transaction and the lengths its savepoints keep, the newest
first. -/
structure TxnWrites where
  writes : TxnBuffer Write
  savepoints : List Nat := []

inductive WriteCall
  | put (key : Key) (value : Value)
  | delete (key : Key)
  | merge (key : Key) (operand : Value)
  | setSavepoint
  | rollbackToSavepoint
  | releaseSavepoint

namespace TxnWrites

variable (t : TxnWrites)

def buffer (key : Key) (w : Write) : TxnWrites :=
  { t with writes := t.writes.insert (prefixKey defaultCfId key) w }

/-- A call on the writes; one that is refused leaves them as they are. -/
def call (op : Option MergeOperator) (t : TxnWrites) : WriteCall → TxnWrites
  | .put key value => t.buffer key (.put value)
  | .delete key => t.buffer key .delete
  | .merge key operand => if op.isSome then t.buffer key (.merge operand) else t
  | .setSavepoint => { t with savepoints := t.writes.len :: t.savepoints }
  | .rollbackToSavepoint => match t.savepoints with
    | mark :: savepoints => ⟨t.writes.truncate mark, savepoints⟩
    | [] => t
  | .releaseSavepoint => { t with savepoints := t.savepoints.tail }

/-- The writes after the calls of a transaction whose buffer is indexed past `spillAt`
entries. -/
def run (op : Option MergeOperator) (spillAt : Nat) (calls : List WriteCall) : TxnWrites :=
  calls.foldl (call op) { writes := { spillAt } }

/-- `Transaction::get` over what `committed` reads of the key. -/
def get (op : Option MergeOperator) (key : Key)
    (committed : Except ReadError (Option Value)) : Except ReadError (Option Value) :=
  (readBuffered t.writes op key committed).bind fun own =>
    match own with
    | some own => .ok own
    | none => committed

def batch (op : Option MergeOperator) (maxValueSize : Nat) : List WriteBatchOp :=
  let (points, merges) := drainWrites op maxValueSize t.writes
  groupedBatchOps points [] merges

/-- A transaction's read, by what it buffered of the key. -/
theorem get_eq (op : MergeOperator) (k : Key)
    (committed : Except ReadError (Option Value)) : t.get (some op) k committed =
      match (KeyWrites.fold (t.writes.chain k)).base with
      | some value => foldOnto op k value (KeyWrites.fold (t.writes.chain k)).operands
      | none => committed.bind fun value =>
          foldOnto op k value (KeyWrites.fold (t.writes.chain k)).operands := by
  rw [get, readBuffered]
  obtain ⟨base, operands⟩ := KeyWrites.fold (t.writes.chain k)
  by_cases hnil : operands = []
  · subst hnil
    cases base <;> cases committed <;> rfl
  · simp only [if_neg hnil, foldOnto, merged, applyMerge]
    cases base with
    | some value =>
      dsimp only
      cases op.fullMerge k value operands <;> rfl
    | none =>
      cases committed with
      | error e => rfl
      | ok value =>
        simp only [Except.bind]
        cases op.fullMerge k value operands <;> rfl

end TxnWrites

namespace MergeOperator

/-- Folding operands in two parts is folding them at once, failures included. -/
def FullMergeSplits : Prop :=
  ∀ k base xs ys, xs ≠ [] → ys ≠ [] → op.fullMerge k base (xs ++ ys) =
    (op.fullMerge k base xs).bind fun v => op.fullMerge k (some v) ys

theorem FullMergeSplits.foldOnto_append {op : MergeOperator} (h : op.FullMergeSplits) (k : Key)
    (base : Option Value) (xs ys : List Value) :
    ((foldOnto op k base xs).bind fun v => foldOnto op k v ys) = foldOnto op k base (xs ++ ys) := by
  by_cases hxs : xs = []
  · subst hxs
    rfl
  by_cases hys : ys = []
  · subst hys
    rw [append_nil]
    cases foldOnto op k base xs <;> rfl
  · have hne : xs ++ ys ≠ [] := by simp [hxs]
    simp only [foldOnto, if_neg hxs, if_neg hys, if_neg hne, h k base xs ys hxs hys]
    cases op.fullMerge k base xs <;> rfl

end MergeOperator

/-- What a transaction reads of a key just before it commits is what a point read finds right
after the commit, applied alone on the state the transaction began in. -/
theorem lookupLoaded_commit_batch {op : MergeOperator} (hpart : op.PartialMergeAgrees)
    (hsplits : op.FullMergeSplits) {view : ReadView} (hview : view.LsmOrdered) {S next r : Seq}
    (hupto : view.AtMost S) (hlt : S < next) (spillAt maxValueSize : Nat) (calls : List WriteCall)
    (hfits : next.Fits ((TxnWrites.run (some op) spillAt calls).batch (some op)
      maxValueSize).length)
    (hr : next.toNat + ((TxnWrites.run (some op) spillAt calls).batch (some op)
      maxValueSize).length ≤ r.toNat + 1) (key : Key) :
    (TxnWrites.run (some op) spillAt calls).get (some op) (prefixKey defaultCfId key)
        (view.lookupLoaded (prefixKey defaultCfId key) S (some op)) =
      (view.commit ((TxnWrites.run (some op) spillAt calls).batch (some op) maxValueSize)
        next).lookupLoaded (prefixKey defaultCfId key) r (some op) := by
  generalize TxnWrites.run (some op) spillAt calls = t at hfits hr ⊢
  generalize prefixKey defaultCfId key = k
  obtain ⟨hpts, hstd⟩ := drainWrites_spec hpart maxValueSize t.writes k
  obtain ⟨chain, hbef, haft⟩ := view.getWithMerge_commit hview hupto hlt hfits hr
    (opTombstones_groupedBatchOps _ _ next) op k
  rw [ReadView.lookupLoaded, ReadView.lookupLoaded, hbef, haft, t.get_eq, TxnWrites.batch,
    resolve_ownVersions hpts]
  cases (KeyWrites.fold (t.writes.chain k)).base with
  | some value => exact (hstd.foldOnto value []).symm
  | none =>
    rw [resolve_eq, foldOver, hstd.foldOnto]
    exact hsplits.foldOnto_append k _ _ _

/-- A store that holds one operand of the key `[107]` and nothing under it. -/
def pendingView : ReadView :=
  ⟨⟨0, [⟨prefixKey defaultCfId [107], 1, .merge, [1]⟩], [], none, none⟩, [], .levelZero [] 0⟩

theorem pendingView_ordered : pendingView.LsmOrdered :=
  ⟨Version.wellFormed_levelZero nofun nofun, by decide, by decide, by decide, by decide⟩

/-- A delete rolled back, then an operand. -/
def mergeOverPending : List WriteCall :=
  [.setSavepoint, .delete [107], .rollbackToSavepoint, .merge [107] [2]]

theorem appendOperator_partialMergeAgrees : appendOperator.PartialMergeAgrees := by
  intro k x y z hz base pre post
  cases hz
  simp [appendOperator]

/-- A delete rolled back, then an operand. -/
theorem lookupLoaded_commit_batch_append :
    (TxnWrites.run (some appendOperator) 16 mergeOverPending).get (some appendOperator)
        (prefixKey defaultCfId [107])
        (pendingView.lookupLoaded (prefixKey defaultCfId [107]) 1 (some appendOperator)) =
      (pendingView.commit ((TxnWrites.run (some appendOperator) 16 mergeOverPending).batch
        (some appendOperator) 1000) 2).lookupLoaded (prefixKey defaultCfId [107]) 2
        (some appendOperator) :=
  lookupLoaded_commit_batch appendOperator_partialMergeAgrees
    (fun k base xs ys _ _ => by simp [appendOperator]) pendingView_ordered (by decide) (by decide)
    16 1000 mergeOverPending (by decide +kernel) (by decide +kernel) [107]

/-- The transaction's own read folds the pending operand first and its own onto the result;
after the commit both are folded at once. -/
theorem get_counts_apart :
    countingOperator.PartialMergeAgrees ∧ pendingView.LsmOrdered ∧ pendingView.AtMost 1 ∧
    (TxnWrites.run (some countingOperator) 16 mergeOverPending).get (some countingOperator)
        (prefixKey defaultCfId [107])
        (pendingView.lookupLoaded (prefixKey defaultCfId [107]) 1 (some countingOperator)) =
      .ok (some [1]) ∧
    (pendingView.commit ((TxnWrites.run (some countingOperator) 16 mergeOverPending).batch
        (some countingOperator) 1000) 2).lookupLoaded (prefixKey defaultCfId [107]) 2
        (some countingOperator) = .ok (some [2]) :=
  ⟨fun k x y z hz => (by cases hz), pendingView_ordered, by decide, by decide +kernel,
    by decide +kernel⟩

end RegolithStore
