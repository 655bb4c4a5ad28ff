import RegolithStore.Lib.Grouping
import RegolithStore.Store.Read

/-! Snapshot stripes (`compaction/stripes.rs`): the entries between two live snapshots, which
every protected reader sees whole or not at all. A pass reduces each stripe of a key to its newest
state, the leading operands folded onto what is under them where the operator allows. The user's
filter is a parameter, and sees the engine's keys. -/

namespace RegolithStore

open Lib List Entry

inductive CompactionDecision
  | keep
  | change (value : Value)
  | remove

structure CompactionFilter where
  filterValue : Nat → Key → Value → CompactionDecision
  filterRangeDelete : Nat → Key → Key → CompactionDecision

/-- The reader boundaries and user hooks one pass reduces each key against. -/
structure Stripes where
  live : List Seq
  filter : Option CompactionFilter
  merge : Option MergeOperator
  level : Nat

/-- The one entry a stripe's leading operands fold into, with the value or deletion under
them when `kept` ends in one. -/
def fold (merge : MergeOperator) (kept : List Entry) (operands : Nat) : Option Entry :=
  if operands = 0 then none
  else match kept with
  | [] => none
  | newest :: _ =>
    let oldestFirst := ((kept.take operands).reverse).map Entry.value
    match kept[operands]? with
    | some terminator =>
      let folded (base : Option Value) : Option Entry :=
        (merge.fullMerge newest.userKey base oldestFirst).map
          fun merged => ⟨newest.userKey, newest.seq, .value, merged⟩
      match terminator.valueType with
      | .value => folded (some terminator.value)
      | .deletion => folded none
      | .merge => none
    | none =>
      match oldestFirst with
      | oldest :: next :: rest =>
        ((next :: rest).foldlM (fun acc v => merge.partialMerge newest.userKey acc v) oldest).map
          fun merged => ⟨newest.userKey, newest.seq, .merge, merged⟩
      | _ => none

theorem descending_of_sublist {es es' : List Entry} (h : es.Pairwise fun a b => b.seq < a.seq)
    (hsub : (es'.map Entry.seq).Sublist (es.map Entry.seq)) :
    es'.Pairwise fun a b => b.seq < a.seq := by
  have hseqs : (es.map Entry.seq).Pairwise (· > ·) := pairwise_map.mpr h
  exact pairwise_map.mp (hseqs.sublist hsub)

namespace Stripes

variable (s : Stripes) {stripe : List Entry} {x : Entry} {group : List Entry}

/-- The smallest live snapshot at or above `seq`, or `u64::MAX` for the top stripe. -/
def top (seq : Seq) : Seq :=
  (s.live[partitionPoint (fun snapshot => decide (snapshot < seq)) s.live]?).getD ⊤

/-- Whether a tombstone the entry's own stripe can see covers it with a greater sequence. -/
def shadowed (tombstones : RangeTombstoneSet) (e : Entry) : Bool :=
  !tombstones.isEmpty && decide (e.seq < tombstones.maxCoveringSeq e.userKey (s.top e.seq))

/-- The user filter's judgment of a value; a removed one leaves a deletion. -/
def filterValue (e : Entry) : Entry :=
  match s.filter with
  | none => e
  | some filter =>
    if e.valueType = .value then
      match filter.filterValue s.level e.userKey e.value with
      | .keep => e
      | .change changed => { e with value := changed }
      | .remove => { e with valueType := .deletion, value := [] }
    else e

/-- The newest state of a stripe: its leading operands and what ends them, filtered. -/
def keptOf (stripe : List Entry) : List Entry :=
  (stripe.take (leadingOperands stripe + 1)).modify (leadingOperands stripe) s.filterValue

def reduceStripe (stripe : List Entry) : List Entry :=
  let kept := s.keptOf stripe
  match s.merge.bind fun op => fold op kept (leadingOperands stripe) with
  | some folded => [folded]
  | none => kept

/-- Reduce one key's versions, newest first, a stripe at a time. -/
def reduceGroup (group : List Entry) : List Entry :=
  if group.length < 2 ∧ s.filter.isNone then group
  else (runsOf (fun e => s.top e.seq) group).flatMap s.reduceStripe

@[simp] theorem reduceGroup_nil : s.reduceGroup [] = [] := by
  unfold reduceGroup
  split_ifs <;> rfl

@[simp] theorem filterValue_userKey (e : Entry) : (s.filterValue e).userKey = e.userKey := by
  unfold filterValue
  split
  · rfl
  · split_ifs
    · split <;> rfl
    · rfl

@[simp] theorem filterValue_seq (e : Entry) : (s.filterValue e).seq = e.seq := by
  unfold filterValue
  split
  · rfl
  · split_ifs
    · split <;> rfl
    · rfl

theorem fold_head {merge : MergeOperator} {kept : List Entry} {operands : Nat}
    (h : fold merge kept operands = some x) :
    ∃ newest rest, kept = newest :: rest ∧ x.userKey = newest.userKey ∧ x.seq = newest.seq ∧
      x.valueType ≠ .deletion := by
  unfold fold at h
  split_ifs at h
  split at h
  · cases h
  · rename_i newest rest
    refine ⟨newest, rest, rfl, ?_⟩
    dsimp only at h
    split at h
    · split at h
      · obtain ⟨merged, -, rfl⟩ := Option.map_eq_some_iff.mp h
        exact ⟨rfl, rfl, by simp⟩
      · obtain ⟨merged, -, rfl⟩ := Option.map_eq_some_iff.mp h
        exact ⟨rfl, rfl, by simp⟩
      · cases h
    · split at h
      · obtain ⟨merged, -, rfl⟩ := Option.map_eq_some_iff.mp h
        exact ⟨rfl, rfl, by simp⟩
      · cases h

theorem keptOf_of_merges (h : ∀ e ∈ stripe, e.valueType = .merge) : s.keptOf stripe = stripe := by
  rw [keptOf, leadingOperands_of_merges h, take_of_length_le (Nat.le_succ _), modify_eq_self (le_refl _)]

theorem keptOf_append {operands rest : List Entry} {last : Entry}
    (h : ∀ e ∈ operands, e.valueType = .merge) (hl : last.valueType ≠ .merge) :
    s.keptOf (operands ++ last :: rest) = operands ++ [s.filterValue last] := by
  have ht : (operands ++ last :: rest).take (operands.length + 1) = operands ++ [last] := by
    rw [take_length_add_append, take_succ_cons, take_zero]
  rw [keptOf, leadingOperands_append h hl, ht]
  clear h ht
  induction operands with
  | nil => rfl
  | cons a operands ih => simpa using ih

theorem reduceStripe_cases (stripe : List Entry) : s.reduceStripe stripe = s.keptOf stripe ∨ ∃ op x,
    s.merge = some op ∧ fold op (s.keptOf stripe) (leadingOperands stripe) = some x ∧
      s.reduceStripe stripe = [x] := by
  unfold reduceStripe
  cases hm : s.merge with
  | none => exact .inl rfl
  | some op =>
    cases hf : fold op (s.keptOf stripe) (leadingOperands stripe) with
    | none => exact .inl (by simp [hf])
    | some x => exact .inr ⟨op, x, rfl, hf, by simp [hf]⟩

theorem mem_keptOf (h : x ∈ s.keptOf stripe) :
    ∃ e ∈ stripe, x.userKey = e.userKey ∧ x.seq = e.seq := by
  rcases chain_cases stripe with hs | ⟨operands, last, rest, rfl, hs, hl⟩
  · rw [s.keptOf_of_merges hs] at h
    exact ⟨x, h, rfl, rfl⟩
  · rw [s.keptOf_append hs hl] at h
    rcases mem_append.mp h with h | h
    · exact ⟨x, mem_append_left _ h, rfl, rfl⟩
    · rw [mem_singleton.mp h]
      exact ⟨last, by simp, s.filterValue_userKey last, s.filterValue_seq last⟩

theorem mem_reduceStripe (h : x ∈ s.reduceStripe stripe) :
    ∃ e ∈ stripe, x.userKey = e.userKey ∧ x.seq = e.seq := by
  rcases s.reduceStripe_cases stripe with hr | ⟨op, y, -, hf, hr⟩
  · exact s.mem_keptOf (hr ▸ h)
  · rw [hr] at h
    obtain ⟨newest, rest, hkept, hk, hs, -⟩ := fold_head hf
    obtain ⟨e, he, hk', hs'⟩ := s.mem_keptOf (hkept ▸ mem_cons_self)
    rw [mem_singleton.mp h]
    exact ⟨e, he, hk.trans hk', hs.trans hs'⟩

theorem mem_reduceGroup (h : x ∈ s.reduceGroup group) :
    ∃ e ∈ group, x.userKey = e.userKey ∧ x.seq = e.seq := by
  unfold reduceGroup at h
  split_ifs at h
  · exact ⟨x, h, rfl, rfl⟩
  · obtain ⟨stripe, hs, hx⟩ := mem_flatMap.mp h
    obtain ⟨e, he, hx⟩ := s.mem_reduceStripe hx
    refine ⟨e, ?_, hx⟩
    rw [← flatten_runsOf (f := fun e => s.top e.seq) group]
    exact mem_flatten.mpr ⟨stripe, hs, he⟩

theorem reduceStripe_seq_sublist (stripe : List Entry) :
    ((s.reduceStripe stripe).map Entry.seq).Sublist (stripe.map Entry.seq) := by
  rcases s.reduceStripe_cases stripe with hr | ⟨op, x, -, hf, hr⟩
  · rw [hr]
    rcases chain_cases stripe with hs | ⟨operands, last, rest, rfl, hs, hl⟩
    · rw [s.keptOf_of_merges hs]
    · rw [s.keptOf_append hs hl]
      simp only [map_append, map_cons, map_nil, filterValue_seq]
      exact List.Sublist.append_left (cons_sublist_cons.mpr (nil_sublist _)) _
  · obtain ⟨e, he, -, hs⟩ := s.mem_reduceStripe (hr ▸ mem_singleton_self x)
    rw [hr, map_singleton, singleton_sublist, hs]
    exact mem_map_of_mem he

theorem reduceGroup_seq_sublist (group : List Entry) :
    ((s.reduceGroup group).map Entry.seq).Sublist (group.map Entry.seq) := by
  unfold reduceGroup
  split_ifs
  · exact List.Sublist.refl _
  · conv_rhs => rw [← flatten_runsOf (f := fun e => s.top e.seq) group]
    induction runsOf (fun e => s.top e.seq) group with
    | nil => exact .slnil
    | cons g gs ih =>
      rw [flatMap_cons, flatten_cons, map_append, map_append]
      exact (s.reduceStripe_seq_sublist g).append ih

theorem top_eq (seq : Seq) :
    s.top seq = (s.live.dropWhile fun snapshot => decide (snapshot < seq)).head?.getD ⊤ := by
  rw [top, ← drop_partitionPoint, head?_drop]

theorem top_mem (seq : Seq) : s.top seq ∈ s.live ∨ s.top seq = ⊤ := by
  rw [top_eq]
  cases h : s.live.dropWhile fun snapshot => decide (snapshot < seq) with
  | nil => exact .inr rfl
  | cons a rest => exact .inl ((dropWhile_suffix _).subset (h ▸ mem_cons_self))

theorem le_top (seq : Seq) : seq ≤ s.top seq := by
  rw [top_eq]
  cases h : s.live.dropWhile fun snapshot => decide (snapshot < seq) with
  | nil => exact OrderTop.le_top _
  | cons a rest =>
    have hne : s.live.dropWhile (fun snapshot => decide (snapshot < seq)) ≠ [] := by simp [h]
    have hh := head_dropWhile_not (fun snapshot => decide (snapshot < seq)) hne
    simp only [h, head_cons, decide_eq_false_iff_not, not_lt] at hh
    exact hh

theorem top_le (hl : s.live.Pairwise (· ≤ ·)) {seq r : Seq} (hr : r ∈ s.live) (h : seq ≤ r) :
    s.top seq ≤ r := by
  have hs : Split (fun snapshot => decide (snapshot < seq)) s.live :=
    hl.imp fun hab => by simpa using fun hb => hab.trans_lt hb
  have hmem := hs.mem_dropWhile.mpr ⟨hr, by simpa using h⟩
  have hpw := hl.sublist (dropWhile_sublist fun snapshot => decide (snapshot < seq))
  rw [top_eq]
  cases hd : s.live.dropWhile fun snapshot => decide (snapshot < seq) with
  | nil => simp [hd] at hmem
  | cons a rest =>
    rw [hd] at hmem hpw
    rcases mem_cons.mp hmem with rfl | hmem
    · exact le_refl _
    · exact (pairwise_cons.mp hpw).1 r hmem

theorem top_mono (hl : s.live.Pairwise (· ≤ ·)) {a b : Seq} (hab : a ≤ b) : s.top a ≤ s.top b := by
  rcases s.top_mem b with hb | hb
  · exact s.top_le hl hb (hab.trans (s.le_top b))
  · rw [hb]
    exact OrderTop.le_top _

theorem before_filterValue {a e : Entry} (ha : a.valueType = .merge) (h : a.Before e) :
    a.Before (s.filterValue e) := by
  rcases h with h | ⟨hk, h | ⟨-, h⟩⟩
  · exact .inl (by simpa using h)
  · exact .inr ⟨by simpa using hk, .inl (by simpa using h)⟩
  · rw [ha] at h
    exact absurd h (by cases e.valueType <;> decide)

theorem keptOf_sorted (h : stripe.Pairwise Before) : (s.keptOf stripe).Pairwise Before := by
  rcases chain_cases stripe with hs | ⟨operands, last, rest, rfl, hs, hl⟩
  · rwa [s.keptOf_of_merges hs]
  · rw [s.keptOf_append hs hl]
    obtain ⟨hops, -, hcross⟩ := pairwise_append.mp h
    refine pairwise_append.mpr ⟨hops, pairwise_singleton _ _, fun a ha b hb => ?_⟩
    rw [mem_singleton.mp hb]
    exact s.before_filterValue (hs a ha) (hcross a ha last mem_cons_self)

theorem reduceStripe_sorted (h : stripe.Pairwise Before) :
    (s.reduceStripe stripe).Pairwise Before := by
  rcases s.reduceStripe_cases stripe with hr | ⟨op, y, -, -, hr⟩
  · exact hr ▸ s.keptOf_sorted h
  · exact hr ▸ pairwise_singleton _ _

/-- Reduced versions stay in order. -/
theorem reduceGroup_sorted (hl : s.live.Pairwise (· ≤ ·))
    (h : group.Pairwise Before) (hkey : ∀ a ∈ group, ∀ b ∈ group, a.userKey = b.userKey) :
    (s.reduceGroup group).Pairwise Before := by
  unfold reduceGroup
  split_ifs
  · exact h
  · -- the tops descend along the group, so two stripes never share a sequence
    have htops : group.Pairwise fun a b => s.top b.seq ≤ s.top a.seq :=
      h.imp_of_mem fun ha hb hab => s.top_mono hl (hab.seq_le (hkey _ ha _ hb))
    have hstripes := runsOf_pairwise_gt htops
    have hmem : ∀ stripe ∈ runsOf (fun e => s.top e.seq) group, ∀ e ∈ stripe, e ∈ group := by
      intro stripe hs e he
      rw [← flatten_runsOf (f := fun e => s.top e.seq) group]
      exact mem_flatten.mpr ⟨stripe, hs, he⟩
    have hcross : (runsOf (fun e => s.top e.seq) group).Pairwise fun g g' =>
        ∀ x ∈ s.reduceStripe g, ∀ y ∈ s.reduceStripe g', x.Before y := by
      refine hstripes.imp_of_mem fun {g g'} hg hg' hlt => ?_
      intro x hx y hy
      obtain ⟨a, ha, hak, has⟩ := s.mem_reduceStripe hx
      obtain ⟨b, hb, hbk, hbs⟩ := s.mem_reduceStripe hy
      have hab : b.seq < a.seq :=
        not_le.mp fun hab => absurd (hlt a ha b hb) (not_lt.mpr (s.top_mono hl hab))
      refine .inr ⟨?_, .inl ?_⟩
      · rw [hak, hbk]
        exact hkey a (hmem g hg a ha) b (hmem g' hg' b hb)
      · rwa [has, hbs]
    rw [← flatten_runsOf (f := fun e => s.top e.seq) group] at h
    exact pairwise_flatMap.mpr ⟨fun stripe hs =>
      s.reduceStripe_sorted ((pairwise_flatten.mp h).1 stripe hs), hcross⟩

variable {s} {e : Entry}

end Stripes

end RegolithStore
