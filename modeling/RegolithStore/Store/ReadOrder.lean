import Mathlib.Data.List.Pairwise
import RegolithStore.Lib.AgeOrder
import RegolithStore.Store.Read

/-! What a read computes when sources are newest first: the walk's early stop and its running
maximum make no difference, and a read is the fold of every visible entry above the newest visible
tombstone over the key, wherever either sits. -/

namespace RegolithStore

open Lib List LiveSst

namespace LiveSst

/-- At `k`, everything in `a` is newer than everything in `b`. -/
structure Newer (k : Key) (a b : LiveSst) : Prop where
  entries : ∀ e ∈ a.entriesOf k, ∀ e' ∈ b.entriesOf k, e'.seq < e.seq
  entry_tombstone : ∀ e ∈ a.entriesOf k, ∀ t ∈ b.tombstones, t.Covers k → t.seq < e.seq
  tombstone_entry : ∀ t ∈ a.tombstones, t.Covers k → ∀ e ∈ b.entriesOf k, e.seq < t.seq

/-- At `k`, sequences start at 1 and only two tombstones may share one. -/
structure Distinct (k : Key) (f : LiveSst) : Prop where
  entries : (f.entriesOf k).Pairwise fun a b => b.seq < a.seq
  tombstones : ∀ e ∈ f.entriesOf k, ∀ t ∈ f.tombstones, t.Covers k → t.seq ≠ e.seq
  pos : ∀ e ∈ f.entriesOf k, 0 < e.seq

theorem coveringSeq_lt {f : LiveSst} {k : Key} {r q : Seq} :
    f.coveringSeq k r < q ↔ 0 < q ∧ ∀ t ∈ f.tombstones, t.seq ≤ r → t.Covers k → t.seq < q :=
  RangeTombstoneSet.maxCoveringSeq_lt

end LiveSst

/-- Tables in the order a read walks them, at `k`. -/
structure NewestFirst (k : Key) (ts : List LiveSst) : Prop where
  newer : ts.Pairwise (Newer k)
  distinct : ∀ f ∈ ts, f.Distinct k

section Spec

variable (op : MergeOperator) (k : Key) (r : Seq)

/-- The entries a read at `r` shows: visible, and above every visible tombstone. -/
def shown (ts : List LiveSst) : List Entry :=
  (ts.flatMap fun f => f.visible k r).filter fun e => decide (gather k r 0 ts < e.seq)

/-- Seen at `r` and above the tombstone at `c`. -/
def window (c r q : Seq) : Bool := decide (c < q ∧ q ≤ r)

def readTables (ts : List LiveSst) : Except ReadError (Option Value) :=
  resolve op k (shown k r ts)

end Spec

variable {op : MergeOperator} {k : Key} {r : Seq} {ts : List LiveSst} {f : LiveSst}

theorem window_iff {c r q : Seq} : window c r q ↔ c < q ∧ q ≤ r := decide_eq_true_iff

theorem gather_lt {m q : Seq} : gather k r m ts < q ↔ m < q ∧ ∀ f ∈ ts, f.coveringSeq k r < q :=
  raise_lt

variable (m : Seq) {t : RangeTombstone} {e : Entry}

theorem gather_append (ts us : List LiveSst) :
    gather k r m (ts ++ us) = gather k r (gather k r m ts) us := raise_append

def chainStep (k : Key) (m : Seq) (chain : List Entry) (e : Entry) :
    Except (List Entry) (List Entry) :=
  if e.seq ≤ m then .error (chain ++ [⟨k, m, .deletion, []⟩])
  else if e.valueType = .merge then .ok (chain ++ [e]) else .error (chain ++ [e])

theorem chainStep_steady : Steady Entry.seq (chainStep k) := fun m m' s e h h' => by
  rw [chainStep, chainStep, if_neg h.not_ge, if_neg h'.not_ge]

theorem extendChain_cons {m : Seq} (hm : m < e.seq)
    (hmrg : e.valueType = .merge) (chain found : List Entry) :
    extendChain k m chain (e :: found) = extendChain k m (chain ++ [e]) found := by
  rw [extendChain, extendChain, dropWhile_cons_of_pos (by simpa using hm),
    takeWhile_cons_of_pos (by simpa using hm)]
  simp [hmrg]

/-- Extending a chain is one step an entry. -/
theorem extendChain_eq (chain es : List Entry) :
    extendChain k m chain (es.take (leadingOperands es + 1)) = es.foldlM (chainStep k m) chain := by
  induction es generalizing chain with
  | nil => simp [extendChain]; rfl
  | cons e es ih =>
    rw [foldlM_cons, take_succ_cons, chainStep]
    by_cases hm : e.seq ≤ m
    · rw [if_pos hm, extendChain, dropWhile_cons_of_neg (by simpa using hm),
        takeWhile_cons_of_neg (by simpa using hm), append_nil]
      rfl
    rw [if_neg hm]
    have hlt : m < e.seq := not_le.mp hm
    by_cases hmrg : e.valueType = .merge
    · have hlead : leadingOperands (e :: es) = leadingOperands es + 1 := by
        simp [leadingOperands, hmrg]
      rw [if_pos hmrg, hlead, extendChain_cons hlt hmrg]
      exact ih (chain ++ [e])
    · have hlead : leadingOperands (e :: es) = 0 := by simp [leadingOperands, hmrg]
      rw [if_neg hmrg, hlead, take_zero, extendChain]
      simp [hlt, hmrg, bind, Except.bind]

theorem extendChain_table (chain : List Entry) (f : LiveSst) :
    extendChain k m chain (f.collectMergeChain k r) =
      (f.visible k r).foldlM (chainStep k m) chain := extendChain_eq m chain _

/-- The chain, whether or not the walk came to its end, folds as the entries above the
tombstone do. -/
theorem resolve_foldlM_chainStep (op : MergeOperator) (rt : Seq) (chain es : List Entry) :
    resolve op k (match (es.foldlM (chainStep k rt) chain).map fun chain => (chain, rt) with
      | .error chain => chain
      | .ok (chain, _) => chain) =
    resolve op k (chain ++ es.takeWhile fun e => decide (rt < e.seq)) := by
  induction es generalizing chain with
  | nil => simp; rfl
  | cons e es ih =>
    rw [foldlM_cons, chainStep]
    by_cases hm : e.seq ≤ rt
    · rw [if_pos hm, takeWhile_cons_of_neg (by simpa using hm), append_nil]
      exact resolve_append_deletion rfl
    rw [if_neg hm, takeWhile_cons_of_pos (by simpa using hm)]
    split_ifs with hmrg
    · have := ih (chain ++ [e])
      rwa [append_assoc] at this
    · exact resolve_cut hmrg chain [] _

theorem NewestFirst.descending (h : NewestFirst k ts) :
    (ts.flatMap fun f => f.entriesOf k).Pairwise fun a b => b.seq < a.seq :=
  pairwise_flatMap.mpr ⟨fun f hf => (h.distinct f hf).entries, h.newer.imp LiveSst.Newer.entries⟩

theorem NewestFirst.visible_descending (h : NewestFirst k ts) (r : Seq) :
    (ts.flatMap fun f => f.visible k r).Pairwise fun a b => b.seq < a.seq := by
  have heq : (ts.flatMap fun f => f.visible k r) =
      (ts.flatMap fun f => f.entriesOf k).filter fun e => decide (e.seq ≤ r) := by
    simp [visible, filter_flatMap]
  rw [heq]
  exact h.descending.sublist filter_sublist

theorem NewestFirst.sublist {ts us : List LiveSst} (h : NewestFirst k ts) (hs : us.Sublist ts) :
    NewestFirst k us :=
  ⟨h.newer.sublist hs, fun f hf => h.distinct f (hs.subset hf)⟩

theorem shown_eq_window (k : Key) (r : Seq) (ts : List LiveSst) :
    shown k r ts = (ts.flatMap fun f => f.entriesOf k).filter
      fun e => window (gather k r 0 ts) r e.seq := by
  simp only [shown, visible, window, ← filter_flatMap, filter_filter, Bool.decide_and]

theorem NewestFirst.tombstone_ne (h : NewestFirst k ts) {f g : LiveSst} (hf : f ∈ ts) (hg : g ∈ ts) (he : e ∈ f.entriesOf k) (ht : t ∈ g.tombstones)
    (hk : t.Covers k) : t.seq ≠ e.seq := by
  rcases pairwise_either h.newer hf hg with rfl | hn | hn
  · exact (h.distinct f hf).tombstones e he t ht hk
  · exact (hn.entry_tombstone e he t ht hk).ne
  · exact (hn.tombstone_entry t ht hk e he).ne'

/-- Outputs with nothing newer than the inputs keep the order. -/
theorem NewestFirst.replace {ts us vs ws : List LiveSst} (h : NewestFirst k (ts ++ (us ++ vs)))
    (hnew : NewestFirst k ws)
    (hents : ∀ o ∈ ws, ∀ e ∈ o.entriesOf k, ∃ f ∈ us, ∃ e' ∈ f.entriesOf k, e.seq = e'.seq)
    (htombs : ∀ o ∈ ws, ∀ t ∈ o.tombstones, t.Covers k →
      ∃ f ∈ us, ∃ t' ∈ f.tombstones, t'.Covers k ∧ t.seq = t'.seq) :
    NewestFirst k (ts ++ (ws ++ vs)) := by
  refine ⟨pairwise_splice h.newer hnew.newer (fun o ho g hfg => ?_) fun o ho g hgf => ?_, ?_⟩
  · refine ⟨fun e he e' he' => ?_, fun e he t ht hk => ?_, fun t ht hk e he => ?_⟩
    · obtain ⟨f, hf, x, hx, hseq⟩ := hents o ho e he
      exact hseq ▸ (hfg f hf).entries x hx e' he'
    · obtain ⟨f, hf, x, hx, hseq⟩ := hents o ho e he
      exact hseq ▸ (hfg f hf).entry_tombstone x hx t ht hk
    · obtain ⟨f, hf, x, hx, hxk, hseq⟩ := htombs o ho t ht hk
      exact hseq ▸ (hfg f hf).tombstone_entry x hx hxk e he
  · refine ⟨fun e he e' he' => ?_, fun e he t ht hk => ?_, fun t ht hk e he => ?_⟩
    · obtain ⟨f, hf, x, hx, hseq⟩ := hents o ho e' he'
      exact hseq ▸ (hgf f hf).entries e he x hx
    · obtain ⟨f, hf, x, hx, hxk, hseq⟩ := htombs o ho t ht hk
      exact hseq ▸ (hgf f hf).entry_tombstone e he x hx hxk
    · obtain ⟨f, hf, x, hx, hseq⟩ := hents o ho e he
      exact hseq ▸ (hgf f hf).tombstone_entry t ht hk x hx
  · simp only [forall_mem_append]
    have hd := h.distinct
    simp only [forall_mem_append] at hd
    exact ⟨hd.1, hnew.distinct, hd.2.2⟩

/-- A tombstone in the newer tables hides all the older show. -/
theorem NewestFirst.shown_append {ts us : List LiveSst} (h : NewestFirst k (ts ++ us)) (r : Seq) :
    shown k r (ts ++ us) =
      shown k r ts ++ if gather k r 0 ts = 0 then shown k r us else [] := by
  have hcross := (pairwise_append.mp h.newer).2.2
  rw [shown, flatMap_append, filter_append]
  congr 1
  · refine filter_congr fun e he => decide_eq_decide.mpr ?_
    obtain ⟨f, hf, he⟩ := mem_flatMap.mp he
    have he := mem_of_mem_filter he
    have hpos := (h.distinct f (mem_append_left _ hf)).pos e he
    rw [gather_append, gather_lt, and_iff_left_iff_imp]
    exact fun _ g hg => coveringSeq_lt.mpr
      ⟨hpos, fun t ht _ hk => (hcross f hf g hg).entry_tombstone e he t ht hk⟩
  · split_ifs with hz
    · rw [gather_append, hz, shown]
    · refine filter_eq_nil_iff.mpr fun e he hlt => hz ?_
      obtain ⟨g, hg, he⟩ := mem_flatMap.mp he
      have he := mem_of_mem_filter he
      -- a tombstone above would be newer than `e`
      have hn : ∀ f ∈ ts, ∀ t ∈ f.tombstones, t.seq ≤ r → ¬ t.Covers k := by
        intro f hf t ht htr hk
        have hlt := (gather_lt.mp (of_decide_eq_true hlt)).2 f (mem_append_left _ hf)
        have := (coveringSeq_lt.mp hlt).2 t ht htr hk
        exact lt_asymm this ((hcross f hf g hg).tombstone_entry t ht hk e he)
      by_contra hne
      have hpos : 0 < gather k r 0 ts := bot_lt_iff_ne_bot.mpr hne
      exact lt_irrefl _ (gather_lt.mpr ⟨hpos, fun f hf => coveringSeq_lt.mpr
        ⟨hpos, fun t ht htr hk => absurd hk (hn f hf t ht htr)⟩⟩)

instance (f : LiveSst) (k : Key) : Decidable (f.Holds k) :=
  inferInstanceAs (Decidable (_ ∨ _))

def holders (k : Key) (ts : List LiveSst) : List LiveSst := ts.filter fun f => decide (f.Holds k)

theorem LiveSst.entriesOf_eq_nil (h : ¬ f.Holds k) : f.entriesOf k = [] :=
  filter_eq_nil_iff.mpr fun e he hk => h (.inl ⟨e, he, by simpa using hk⟩)

theorem LiveSst.coveringSeq_eq_zero (h : ¬ f.Holds k) : f.coveringSeq k r = 0 := by
  by_contra hne
  obtain ⟨t, ht, -, hk, -⟩ := RangeTombstoneSet.lt_maxCoveringSeq.mp (bot_lt_iff_ne_bot.mpr hne)
  exact h (.inr ⟨t, ht, hk⟩)

theorem flatMap_filter_of_nil {α β : Type*} {p : α → Bool} {g : α → List β} {l : List α}
    (h : ∀ a ∈ l, p a = false → g a = []) : (l.filter p).flatMap g = l.flatMap g := by
  induction l with
  | nil => rfl
  | cons a l ih =>
    rw [forall_mem_cons] at h
    cases hp : p a with
    | true => rw [filter_cons_of_pos hp, flatMap_cons, flatMap_cons, ih h.2]
    | false => rw [filter_cons_of_neg (by simp [hp]), flatMap_cons, h.1 hp, ih h.2, nil_append]

theorem LiveSst.not_covers (h : ¬ f.Holds k) (ht : t ∈ f.tombstones) :
    ¬ t.Covers k := fun hk => h (.inr ⟨t, ht, hk⟩)

theorem NewestFirst.of_holders (h : NewestFirst k (holders k ts)) : NewestFirst k ts := by
  refine ⟨(pairwise_filter.mp h.newer).imp fun {a b} hab => ?_, fun f hf => ?_⟩
  · by_cases ha : a.Holds k
    · by_cases hb : b.Holds k
      · exact hab (by simpa using ha) (by simpa using hb)
      · exact ⟨by simp [entriesOf_eq_nil hb], fun _ _ t ht hk =>
          absurd hk (not_covers hb ht), by simp [entriesOf_eq_nil hb]⟩
    · exact ⟨by simp [entriesOf_eq_nil ha], by simp [entriesOf_eq_nil ha],
        fun t ht hk => absurd hk (not_covers ha ht)⟩
  · by_cases hk : f.Holds k
    · exact h.distinct f (mem_filter.mpr ⟨hf, by simpa using hk⟩)
    · exact ⟨by simp [entriesOf_eq_nil hk], by simp [entriesOf_eq_nil hk],
        by simp [entriesOf_eq_nil hk]⟩

theorem NewestFirst.holders (h : NewestFirst k ts) :
    NewestFirst k (holders k ts) := h.sublist filter_sublist

theorem flatMap_visible_holders (ts : List LiveSst) :
    ((holders k ts).flatMap fun f => f.visible k r) = ts.flatMap fun f => f.visible k r :=
  flatMap_filter_of_nil fun f _ hf => by
    rw [visible, entriesOf_eq_nil (of_decide_eq_false hf), filter_nil]

theorem gather_holders (ts : List LiveSst) : gather k r m (holders k ts) = gather k r m ts := by
  induction ts generalizing m with
  | nil => rfl
  | cons f ts ih =>
    by_cases hf : f.Holds k
    · rw [holders, filter_cons_of_pos (by simpa using hf)]
      exact ih _
    · rw [holders, filter_cons_of_neg (by simpa using hf), ← holders, ih, gather, gather,
        raise, raise, foldl_cons, coveringSeq_eq_zero hf, max_eq_left (show 0 ≤ m from OrderBot.bot_le m)]

theorem shown_holders (ts : List LiveSst) : shown k r (holders k ts) = shown k r ts := by
  rw [shown, shown, flatMap_visible_holders, gather_holders]

theorem readTables_holders (ts : List LiveSst) :
    readTables op k r (holders k ts) = readTables op k r ts := by
  rw [readTables, shown_holders, readTables]

namespace Version

/-- Every table is what its metadata says, and the levels are sorted runs. -/
structure WellFormed (v : Version) : Prop where
  sound : ∀ l, ∀ f ∈ v.levels l, f.Sound
  counted : ∀ l, ∀ f ∈ v.levels l, f.metadata.numEntries = 0 → f.reader.entries = []
  runs : v.SortedRuns

variable {v : Version} {p : List LiveSst × List LiveSst}

variable (hv : v.WellFormed)

include hv

theorem WellFormed.holders_covering {l : Nat} (h1 : 1 ≤ l) (h2 : l < maxLevels)
    (k : Key) : holders k (covering (v.levels l) k) = holders k (v.levels l) := by
  rw [covering, overlapping, (hv.runs l h1 h2).meeting_eq_filter
    (fun f hf => (hv.sound l f hf).ordered) k k, holders, holders, filter_filter]
  refine filter_congr fun f hf => ?_
  by_cases hk : f.Holds k
  · have := (hv.sound l f hf).within k hk
    simp [hk, this.1, this.2]
  · simp [hk]

omit hv in
theorem flatMap_places (v : Version) (k : Key) :
    (v.places k).flatMap Prod.fst = (v.levels 0).reverse ++
      ((List.range maxLevels).drop 1).flatMap fun l => covering (v.levels l) k := by
  rw [places, flatMap_append, flatMap_map, flatMap_map]
  congr 1
  exact flatMap_singleton' _

omit hv in
theorem holders_flatMap (L : List Nat) (g : Nat → List LiveSst) :
    holders k (L.flatMap g) = L.flatMap fun l => holders k (g l) := filter_flatMap

omit hv in
theorem holders_append (ts us : List LiveSst) :
    holders k (ts ++ us) = holders k ts ++ holders k us := filter_append _ _

omit hv in
theorem places_sublist (v : Version) (k : Key) :
    ((v.places k).flatMap Prod.fst).Sublist v.tables := by
  rw [flatMap_places, tables]
  refine (List.Sublist.refl _).append ?_
  induction (List.range maxLevels).drop 1 with
  | nil => exact .slnil
  | cons l L ih => exact (meeting_sublist k k).append ih

theorem WellFormed.flatMap_visited {β : Type*} {g : LiveSst → List β}
    (hg : ∀ f, f.reader.entries = [] → g f = [])
    (hp : p ∈ v.places k) : p.2.flatMap g = p.1.flatMap g := by
  rcases mem_append.mp hp with hp | hp
  · obtain ⟨f, -, rfl⟩ := mem_map.mp hp
    rfl
  · obtain ⟨l, -, rfl⟩ := mem_map.mp hp
    refine flatMap_filter_of_nil fun f hf hz => hg f ?_
    exact hv.counted l f ((meeting_sublist k k).subset hf)
      (le_antisymm (not_lt.mp (of_decide_eq_false hz)) (OrderBot.bot_le _))

/-- A read walks every table that says something about the key. -/
theorem WellFormed.holders_places (k : Key) :
    holders k ((v.places k).flatMap Prod.fst) = holders k v.tables := by
  rw [flatMap_places, tables, holders_append, holders_append, holders_flatMap, holders_flatMap]
  congr 1
  refine flatMap_congr fun l hl => ?_
  obtain ⟨h1, h2⟩ := mem_deeper.mp hl
  exact hv.holders_covering h1 h2 k

/-- Where the sources are newest first, a read is the fold of what is shown of them all. -/
theorem WellFormed.get_eq (ho : NewestFirst k v.tables) :
    v.get op k r = readTables op k r v.tables := by
  have hplaces := ho.sublist (v.places_sublist k)
  have hd : Split (fun e : Entry => decide (gather k r 0 ((v.places k).flatMap Prod.fst) < e.seq))
      (((v.places k).flatMap Prod.fst).flatMap fun f => f.visible k r) :=
    (hplaces.visible_descending r).imp fun hlt hb => decide_eq_true ((of_decide_eq_true hb).trans hlt)
  have habv : AboveLater (fun f => f.coveringSeq k r) Entry.seq (fun f => f.visible k r)
      (v.places k) := (pairwise_flatMap.mp hplaces.newer).2.imp_of_mem
    fun hp _ hn f hf e he g hg => by
      have he := mem_of_mem_filter he
      refine coveringSeq_lt.mpr ⟨?_, fun t ht _ => (hn f hf g hg).entry_tombstone e he t ht⟩
      exact (hplaces.distinct f (mem_flatMap.mpr ⟨_, hp, hf⟩)).pos e he
  rw [get, mergeChain, walkPlaces_eq extendChain_table chainStep_steady
    (fun p => hv.flatMap_visited fun f hf => by simp [visible, entriesOf, hf]) habv, readTables,
    ← shown_holders, ← hv.holders_places, shown_holders, shown, ← hd.takeWhile_eq_filter]
  exact resolve_foldlM_chainStep op _ [] _

omit hv in
/-- Tables of L0 that say nothing about the key do not change its reads. -/
theorem get_of_holders {v' : Version} (hdeep : ∀ l, l ≠ 0 → v'.levels l = v.levels l)
    (hl0 : RegolithStore.holders k (v'.levels 0).reverse =
      RegolithStore.holders k (v.levels 0).reverse) : v'.get op k r = v.get op k r := by
  let keep : List LiveSst × List LiveSst → Bool := fun p => p.1.any fun f => decide (f.Holds k)
  have hskip : ∀ (w : Version), ∀ p ∈ w.places k, keep p = false →
      (∀ f ∈ p.1, ∀ m, f.coveringSeq k r ≤ m) ∧ ∀ f ∈ p.2, ∀ m chain,
        extendChain k m chain (f.collectMergeChain k r) = .ok chain := by
    intro w p hp hn
    have hnot : ∀ f ∈ p.1, ¬ f.Holds k := by simpa [keep] using hn
    have hsub : p.2 ⊆ p.1 := by
      rcases mem_append.mp hp with hp | hp
      · obtain ⟨f, -, rfl⟩ := mem_map.mp hp
        exact List.Subset.refl _
      · obtain ⟨l, -, rfl⟩ := mem_map.mp hp
        exact filter_sublist.subset
    refine ⟨fun f hf m => coveringSeq_eq_zero (hnot f hf) ▸ OrderBot.bot_le m, ?_⟩
    intro f hf m chain
    rw [extendChain_table, visible, entriesOf_eq_nil (hnot f (hsub hf))]
    rfl
  have hplaces : (v'.places k).filter keep = (v.places k).filter keep := by
    have hsingle : ∀ w : Version, ((w.levels 0).reverse.map fun f => ([f], [f])).filter keep =
        (RegolithStore.holders k (w.levels 0).reverse).map fun f => ([f], [f]) := fun w => by
      rw [filter_map, RegolithStore.holders]
      simp [keep, Function.comp_def]
    rw [places, places, filter_append, filter_append, hsingle, hsingle, hl0]
    refine congrArg _ (congrArg _ (map_congr_left fun l hl => ?_))
    rw [hdeep l (Nat.one_le_iff_ne_zero.mp (mem_deeper.mp hl).1)]
  rw [get, get, mergeChain, mergeChain, ← walkPlaces_filter (hskip v'), hplaces,
    walkPlaces_filter (hskip v)]

end Version

def Version.levelZero (files : List LiveSst) (lastSeq : Seq) : Version :=
  { Version.new with levels := fun l => if l = 0 then files else [], lastSeq }

theorem Version.wellFormed_levelZero {files : List LiveSst} {lastSeq : Seq}
    (sound : ∀ f ∈ files, f.Sound)
    (counted : ∀ f ∈ files, f.metadata.numEntries = 0 → f.reader.entries = []) :
    (Version.levelZero files lastSeq).WellFormed := by
  have hmem : ∀ l, ∀ f ∈ (Version.levelZero files lastSeq).levels l, f ∈ files := by
    intro l f hf
    by_cases hl : l = 0
    · simpa [levelZero, hl] using hf
    · simp [levelZero, hl] at hf
  refine ⟨fun l f hf => sound f (hmem l f hf), fun l f hf => counted f (hmem l f hf), ?_⟩
  intro l h1 _
  have hnil : (Version.levelZero files lastSeq).levels l = [] := if_neg (by omega)
  rw [hnil]
  exact .nil

end RegolithStore
