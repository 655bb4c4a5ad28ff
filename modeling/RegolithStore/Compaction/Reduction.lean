import RegolithStore.Compaction.Outputs
import RegolithStore.Store.ReadOrder

/-! Reducing a key's versions is invisible to every protected read: one at a live
snapshot, or at or above everything the pass reads. The versions such a read sees of
the pass's inputs are whole stripes, and a stripe resolves as what it is reduced to,
under anything newer and over anything older, as long as the operator's folds compose. -/

namespace RegolithStore

open Lib List RangeTombstoneSet

variable {op : MergeOperator} {k : Key} {s : Stripes} {x : Entry} {older : List Entry}

namespace MergeOperator

/-- A partial merge stands for the two operands it replaces. -/
def PartialMergeAgrees (op : MergeOperator) : Prop :=
  ∀ k x y z, op.partialMerge k x y = some z → ∀ base pre post,
    op.fullMerge k base (pre ++ x :: y :: post) = op.fullMerge k base (pre ++ z :: post)

/-- Folding some operands and then the rest is folding all of them. -/
def FullMergeComposes (op : MergeOperator) : Prop :=
  ∀ k base xs ys v, xs ≠ [] → ys ≠ [] → op.fullMerge k base xs = some v →
    op.fullMerge k (some v) ys = op.fullMerge k base (xs ++ ys)

variable {base : Option Value} {xs : List Value}

theorem FullMergeComposes.foldOnto (h : op.FullMergeComposes) {v : Value} (hxs : xs ≠ []) (hv : op.fullMerge k base xs = some v)
    (ys : List Value) : foldOnto op k (some v) ys = foldOnto op k base (xs ++ ys) := by
  rcases eq_or_ne ys [] with rfl | hys
  · simp [RegolithStore.foldOnto, hxs, hv]
  · simp [RegolithStore.foldOnto, hxs, hys, h k base xs ys v hxs hys hv]

theorem PartialMergeAgrees.foldOnto (h : op.PartialMergeAgrees) {x z : Value} (hz : xs.foldlM (op.partialMerge k) x = some z) (pre post : List Value) :
    foldOnto op k base (pre ++ z :: post) = foldOnto op k base (pre ++ x :: (xs ++ post)) := by
  induction xs generalizing x with
  | nil =>
    cases hz
    rfl
  | cons y xs ih =>
    obtain ⟨w, hw, hz⟩ := Option.bind_eq_some_iff.mp hz
    rw [ih hz]
    simp only [RegolithStore.foldOnto, append_eq_nil_iff, reduceCtorEq, and_false, if_false,
      cons_append, h k x y w hw]

end MergeOperator

variable {stripe : List Entry}

theorem fold_of_merges
    (h : fold op stripe stripe.length = some x) (hkey : ∀ e ∈ stripe, e.userKey = k) :
    x.valueType = .merge ∧ ∃ oldest newer, stripe.reverse.map Entry.value = oldest :: newer ∧
      newer.foldlM (op.partialMerge k) oldest = some x.value := by
  cases stripe with
  | nil => simp [fold] at h
  | cons newest rest =>
    rw [← hkey newest (by simp)]
    simp only [fold, length_cons, Nat.add_one_ne_zero, if_false, take_succ_cons,
      take_length, getElem?_cons_succ, getElem?_length] at h
    split at h
    · rename_i oldest next more heq
      obtain ⟨merged, hm, rfl⟩ := Option.map_eq_some_iff.mp h
      exact ⟨rfl, oldest, next :: more, heq, hm⟩
    · cases h

theorem fold_of_terminated {operands : List Entry} {last : Entry}
    (h : fold op (operands ++ [last]) operands.length = some x)
    (hkey : ∀ e ∈ operands, e.userKey = k) (hl : last.valueType ≠ .merge) :
    x.valueType = .value ∧ operands ≠ [] ∧
      op.fullMerge k (baseOf [last]) (operands.reverse.map Entry.value) = some x.value := by
  cases operands with
  | nil => simp [fold] at h
  | cons newest operands =>
    rw [← hkey newest (by simp)]
    cases hv : last.valueType with
    | merge => exact absurd hv hl
    | value | deletion =>
      simp only [fold, length_cons, Nat.add_one_ne_zero, if_false, cons_append,
        getElem?_cons_succ, getElem?_concat_length, hv, take_succ_cons,
        take_left] at h
      obtain ⟨merged, hm, rfl⟩ := Option.map_eq_some_iff.mp h
      exact ⟨rfl, by simp, by simpa [baseOf, hv] using hm⟩

namespace Stripes

variable (hflt : s.filter = none)

include hflt

/-- What a stripe is reduced to, by what ends its operands. -/
theorem reduceStripe_shape
    (hkey : ∀ e ∈ stripe, e.userKey = k) : ((∀ e ∈ stripe, e.valueType = .merge) ∧
      (s.reduceStripe stripe = stripe ∨ ∃ m x, s.merge = some m ∧ s.reduceStripe stripe = [x] ∧
        stripe.head?.map Entry.seq = some x.seq ∧ x.valueType = .merge ∧
        ∃ oldest newer, stripe.reverse.map Entry.value = oldest :: newer ∧
          newer.foldlM (m.partialMerge k) oldest = some x.value)) ∨
    ∃ operands last rest, stripe = operands ++ last :: rest ∧
      (∀ e ∈ operands, e.valueType = .merge) ∧ last.valueType ≠ .merge ∧
      (s.reduceStripe stripe = operands ++ [last] ∨ ∃ m x, s.merge = some m ∧
        s.reduceStripe stripe = [x] ∧ stripe.head?.map Entry.seq = some x.seq ∧
        x.valueType = .value ∧ operands ≠ [] ∧
        m.fullMerge k (baseOf [last]) (operands.reverse.map Entry.value) = some x.value) := by
  rcases chain_cases stripe with h | ⟨operands, last, rest, rfl, h, hl⟩
  · refine .inl ⟨h, ?_⟩
    have hk := s.keptOf_of_merges h
    rcases s.reduceStripe_cases stripe with hr | ⟨m, x, hm, hfold, hr⟩
    · exact .inl (hr.trans hk)
    · obtain ⟨newest, rest, hh, -, hseq, -⟩ := fold_head hfold
      rw [hk] at hfold hh
      rw [leadingOperands_of_merges h] at hfold
      exact .inr ⟨m, x, hm, hr, by rw [hh, hseq]; rfl, fold_of_merges hfold hkey⟩
  · refine .inr ⟨operands, last, rest, rfl, h, hl, ?_⟩
    have hk : s.keptOf (operands ++ last :: rest) = operands ++ [last] := by
      rw [s.keptOf_append h hl, filterValue, hflt]
    rcases s.reduceStripe_cases (operands ++ last :: rest) with hr | ⟨m, x, hm, hfold, hr⟩
    · exact .inl (hr.trans hk)
    · obtain ⟨newest, more, hh, -, hseq, -⟩ := fold_head hfold
      rw [hk] at hfold hh
      rw [leadingOperands_append h hl] at hfold
      obtain ⟨hx, hne, hv⟩ := fold_of_terminated hfold
        (fun e he => hkey e (mem_append_left _ he)) hl
      refine .inr ⟨m, x, hm, hr, ?_, hx, hne, hv⟩
      obtain ⟨first, operands, rfl⟩ := exists_cons_of_ne_nil hne
      cases hh
      rw [hseq]
      rfl

section

variable (hmrg : ∀ m ∈ s.merge, m = op) (hfull : op.FullMergeComposes)
  (hpart : op.PartialMergeAgrees)

include hmrg hfull hpart

/-- A stripe resolves as what it is reduced to, wherever it stands in a chain. -/
theorem resolve_reduceStripe (hkey : ∀ e ∈ stripe, e.userKey = k) (newer older : List Entry)
    : resolve op k (newer ++ (stripe ++ older)) =
      resolve op k (newer ++ (s.reduceStripe stripe ++ older)) := by
  rcases reduceStripe_shape hflt hkey with ⟨h, hr | ⟨m, x, hm, hr, -, hx, oldest, more, hvals, hz⟩⟩ |
    ⟨operands, last, rest, rfl, h, hl, hr | ⟨m, x, hm, hr, -, hx, hne, hv⟩⟩
  · rw [hr]
  · -- the operands alone, merged in parts
    cases hmrg m hm
    rw [hr]
    refine resolve_congr (fun ys => ?_) newer
    have hx' : ∀ e ∈ [x], e.valueType = .merge := by simpa using hx
    rw [chainBase_append h, chainBase_append hx', chainOperands_append h,
      chainOperands_append hx', hvals]
    simpa using (hpart.foldOnto hz (chainOperands older) ys).symm
  · rw [hr]
    simpa using resolve_cut hl (newer ++ operands) (rest ++ older) older
  · -- the operands folded onto what ends them
    cases hmrg m hm
    rw [hr]
    refine resolve_congr (fun ys => ?_) newer
    have hx' : x.valueType ≠ .merge := by simp [hx]
    have hbase : baseOf [x] = some x.value := by simp [baseOf, hx]
    rw [append_assoc, cons_append, chainBase_append h, chainOperands_append h,
      chainBase_cons hl, chainOperands_cons hl, singleton_append,
      chainBase_cons hx', chainOperands_cons hx', hbase, nil_append, nil_append]
    exact (hfull.foldOnto (by simpa using hne) hv ys).symm

/-- Reducing whole stripes changes no answer. -/
theorem resolve_reduceGroup {group : List Entry}
    (hkey : ∀ e ∈ group, e.userKey = k) {w : Seq → Bool}
    (hwhl : ∀ a ∈ group, ∀ b ∈ group, s.top a.seq = s.top b.seq → w a.seq = w b.seq)
    (newer older : List Entry) :
    resolve op k (newer ++ (group.filter (fun e => w e.seq) ++ older)) =
      resolve op k (newer ++ ((s.reduceGroup group).filter (fun e => w e.seq) ++ older)) := by
  unfold reduceGroup
  split_ifs
  · rfl
  · have hs : ∀ g ∈ runsOf (fun e => s.top e.seq) group,
        ∀ a ∈ g, ∀ b ∈ g, s.top a.seq = s.top b.seq := fun g hg a ha b hb => eq_of_mem_runsOf hg ha hb
    rw [← flatten_runsOf (f := fun e => s.top e.seq) group] at hkey hwhl
    conv_lhs => rw [← flatten_runsOf (f := fun e => s.top e.seq) group]
    generalize runsOf (fun e => s.top e.seq) group = gs at hkey hwhl hs
    induction gs generalizing newer with
    | nil => rfl
    | cons g gs ih =>
      rw [forall_mem_cons] at hs
      simp only [flatten_cons, forall_mem_append] at hkey hwhl
      have hih := fun newer => ih newer hkey.2 (fun a ha => (hwhl.2 a ha).2) hs.2
      have hmem : ∀ {v}, (∀ e ∈ g, w e.seq = v) → ∀ x ∈ s.reduceStripe g, w x.seq = v := by
        intro v hg x hx
        obtain ⟨e, he, -, hseq⟩ := s.mem_reduceStripe hx
        exact hseq ▸ hg e he
      rw [flatten_cons, flatMap_cons, filter_append, filter_append, append_assoc, append_assoc]
      -- the stripe is seen whole or not at all
      by_cases hin : ∀ e ∈ g, w e.seq = true
      · rw [filter_eq_self.mpr hin, filter_eq_self.mpr (hmem hin),
          resolve_reduceStripe hflt hmrg hfull hpart hkey.1, ← append_assoc, hih,
          append_assoc]
      · obtain ⟨e, he, hw⟩ : ∃ e ∈ g, w e.seq = false := by simpa using hin
        have hout : ∀ a ∈ g, w a.seq = false := fun a ha =>
          ((hwhl.1 a ha).1 e he (hs.1 a ha e he)).trans hw
        have hnil : ∀ l : List Entry, (∀ x ∈ l, w x.seq = false) →
            l.filter (fun x => w x.seq) = [] := fun l hl =>
          filter_eq_nil_iff.mpr fun x hx => by simp [hl x hx]
        rw [hnil g hout, hnil _ (hmem hout), nil_append, nil_append, hih]

end

end Stripes

theorem Stripes.shadowed_iff {s : Stripes} {merged : RangeTombstoneSet} {e : Entry} :
    s.shadowed merged e ↔ ∃ t ∈ merged.tombstones, t.seq ≤ s.top e.seq ∧ t.Covers e.userKey ∧
      e.seq < t.seq := by
  rw [shadowed, Bool.and_eq_true, decide_eq_true_eq, lt_maxCoveringSeq]
  refine ⟨And.right, fun h => ⟨?_, h⟩⟩
  obtain ⟨t, ht, -⟩ := h
  simpa [RangeTombstoneSet.isEmpty] using ne_nil_of_mem ht

/-- What a pass knows of one key's versions and of a read at `r` that it must not disturb. -/
structure Stripes.KeyView (s : Stripes) (merged : RangeTombstoneSet) (k : Key) (r : Seq)
    (group : List Entry) : Prop where
  live : s.live.Pairwise (· ≤ ·)
  key : ∀ e ∈ group, e.userKey = k
  pos : ∀ e ∈ group, 0 < e.seq
  distinct : ∀ e ∈ group, ∀ t ∈ merged.tombstones, t.Covers k → t.seq ≠ e.seq
  protects : r ∈ s.live ∨ (∀ e ∈ group, e.seq ≤ r) ∧ ∀ t ∈ merged.tombstones, t.seq ≤ r

namespace Stripes.KeyView

variable {merged : RangeTombstoneSet} {r : Seq} {group : List Entry} {e : Entry}
  {t : RangeTombstone}

variable (h : s.KeyView merged k r group)

include h

theorem tombstone_le (her : e.seq ≤ r)
    (ht : t ∈ merged.tombstones) (htop : t.seq ≤ s.top e.seq) : t.seq ≤ r := by
  rcases h.protects with hr | ⟨-, hr⟩
  · exact htop.trans (s.top_le h.live hr her)
  · exact hr t ht

theorem hidden_of_shadowed (he : e ∈ group)
    (hs : s.shadowed merged e) : window (merged.maxCoveringSeq k r) r e.seq = false := by
  refine Bool.eq_false_iff.mpr fun hw => ?_
  obtain ⟨hlt, her⟩ := window_iff.mp hw
  obtain ⟨t, ht, htop, hk, het⟩ := Stripes.shadowed_iff.mp hs
  refine lt_asymm hlt (lt_maxCoveringSeq.mpr ?_)
  exact ⟨t, ht, h.tombstone_le her ht htop, h.key e he ▸ hk, het⟩

theorem window_of_top_eq {a b : Entry} (hb : b ∈ group) (hbs : s.shadowed merged b = false)
    (htop : s.top a.seq = s.top b.seq) (ha : window (merged.maxCoveringSeq k r) r a.seq) : window
    (merged.maxCoveringSeq k r) r b.seq := by
  obtain ⟨hca, har⟩ := window_iff.mp ha
  refine window_iff.mpr ⟨maxCoveringSeq_lt.mpr ⟨h.pos b hb, fun t ht htr hk => ?_⟩, ?_⟩
  · by_contra hlt
    have hta := (maxCoveringSeq_lt.mp hca).2 t ht htr hk
    have hbt := lt_of_le_of_ne (not_lt.mp hlt) (h.distinct b hb t ht hk).symm
    exact Bool.eq_false_iff.mp hbs (Stripes.shadowed_iff.mpr
      ⟨t, ht, hta.le.trans (htop ▸ s.le_top a.seq), (h.key b hb).symm ▸ hk, hbt⟩)
  · rcases h.protects with hr | ⟨hr, -⟩
    · exact (s.le_top b.seq).trans (htop ▸ s.top_le h.live hr har)
    · exact hr b hb

omit h

variable {retirement : Retirement}

include h

variable (holdest : retirement.oldestLive = s.live.head?)

include holdest

theorem lt_of_retired
    (ht : t ∈ merged.tombstones) (hk : t.Covers k) (hc : retirement.clearOfSnapshots t.seq)
    (he : e ∈ group) (hs : s.shadowed merged e = false) : t.seq < e.seq := by
  by_contra hlt
  have het := lt_of_le_of_ne (not_lt.mp hlt) (h.distinct e he t ht hk).symm
  refine Bool.eq_false_iff.mp hs (Stripes.shadowed_iff.mpr ⟨t, ht, ?_, (h.key e he).symm ▸ hk, het⟩)
  rcases s.top_mem e.seq with htop | htop
  · exact retirement.le_of_clear h.live holdest hc htop
  · rw [htop]
    exact OrderTop.le_top _

theorem window_carried (he : e ∈ group) (hs : s.shadowed merged e = false) :
    window ((retirement.carriedTombstones merged).maxCoveringSeq k r) r e.seq =
      window (merged.maxCoveringSeq k r) r e.seq := by
  refine decide_eq_decide.mpr (and_congr_left fun _ => ?_)
  simp only [maxCoveringSeq_lt, retirement.mem_carriedTombstones]
  refine and_congr_right fun _ => ⟨fun hlt t ht htr hk => ?_, fun hlt t ht => hlt t ht.1⟩
  by_cases hkeep : retirement.clearOfSnapshots t.seq = false ∨ retirement.neededBelow t
  · exact hlt t ⟨ht, hkeep⟩ htr hk
  · exact h.lt_of_retired holdest ht hk (by simpa using not_or.mp hkeep |>.1) he hs

omit holdest in
omit h in
theorem resolve_retireDeletion {reduced : List Entry} (hkey : ∀ e ∈ reduced, e.userKey = k)
    (holder : older ≠ [] → retirement.keyBelow k) (w : Seq → Bool) (newer : List Entry) :
    resolve op k (newer ++ (reduced.filter (fun e => w e.seq) ++ older)) = resolve op k
      (newer ++ ((retirement.retireDeletion reduced).filter (fun e => w e.seq) ++ older)) := by
  rcases retirement.retireDeletion_eq reduced with hr | ⟨last, hr, hdel, -, hb⟩
  · rw [hr]
  · have hn : older = [] := by
      by_contra hne
      have hl := hkey last (hr ▸ mem_append_right _ (mem_singleton_self _))
      rw [hl, holder hne] at hb
      cases hb
    nth_rewrite 1 [hr]
    rw [hn, append_nil, append_nil, filter_append, ← append_assoc]
    cases hw : w last.seq with
    | true => rw [filter_cons_of_pos (by simpa using hw), filter_nil, resolve_append_deletion hdel]
    | false => rw [filter_cons_of_neg (by simp [hw]), filter_nil, append_nil]

/-- What the pass writes of a key resolves, at a read it must not disturb, as what it read
of it: under anything newer, and over what is older unless something retired for want of it. -/
theorem resolve_written (hflt : s.filter = none) (hmrg : ∀ m ∈ s.merge, m = op)
    (hfull : op.FullMergeComposes) (hpart : op.PartialMergeAgrees) (newer : List Entry) (holder : older ≠ [] → retirement.keyBelow k) : resolve op k (newer ++
        (group.filter (fun e => window (merged.maxCoveringSeq k r) r e.seq) ++ older)) =
      resolve op k (newer ++ ((s.written merged retirement group).filter (fun e =>
        window ((retirement.carriedTombstones merged).maxCoveringSeq k r) r e.seq) ++ older)) := by
  have hmem : ∀ {e}, e ∈ group.filter (fun e => !s.shadowed merged e) →
      e ∈ group ∧ s.shadowed merged e = false := fun he => by
    rw [mem_filter] at he
    exact ⟨he.1, by simpa using he.2⟩
  have hseen : group.filter (fun e => window (merged.maxCoveringSeq k r) r e.seq) =
      (group.filter fun e => !s.shadowed merged e).filter
        fun e => window (merged.maxCoveringSeq k r) r e.seq := by
    rw [filter_filter]
    refine filter_congr fun e he => ?_
    cases hs : s.shadowed merged e with
    | true => simp [h.hidden_of_shadowed he hs]
    | false => simp
  have hkey : ∀ x ∈ s.reduceGroup (group.filter fun e => !s.shadowed merged e), x.userKey = k := by
    intro x hx
    obtain ⟨e, he, hkey, -⟩ := s.mem_reduceGroup hx
    exact hkey.trans (h.key e (hmem he).1)
  have hcarried : ∀ x ∈ s.reduceGroup (group.filter fun e => !s.shadowed merged e),
      window (merged.maxCoveringSeq k r) r x.seq =
        window ((retirement.carriedTombstones merged).maxCoveringSeq k r) r x.seq := by
    intro x hx
    obtain ⟨e, he, -, hseq⟩ := s.mem_reduceGroup hx
    rw [hseq, h.window_carried holdest (hmem he).1 (hmem he).2]
  have hw : ∀ a ∈ group.filter (fun e => !s.shadowed merged e),
      ∀ b ∈ group.filter (fun e => !s.shadowed merged e), s.top a.seq = s.top b.seq →
        window (merged.maxCoveringSeq k r) r a.seq = window (merged.maxCoveringSeq k r) r b.seq := by
    intro a ha b hb htop
    exact Bool.eq_iff_iff.mpr ⟨h.window_of_top_eq (hmem hb).1 (hmem hb).2 htop,
      h.window_of_top_eq (hmem ha).1 (hmem ha).2 htop.symm⟩
  rw [hseen, Stripes.resolve_reduceGroup hflt hmrg hfull hpart
    (fun e he => h.key e (hmem he).1) hw, filter_congr hcarried]
  exact resolve_retireDeletion hkey holder _ newer

end Stripes.KeyView

end RegolithStore
