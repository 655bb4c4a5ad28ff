import Mathlib.Order.Bounds.Basic
import RegolithStore.Lib.MarkedWalk
import RegolithStore.Lib.MergeStreams
import RegolithStore.Lib.PrefixMax
import RegolithStore.Lib.StableSort
import RegolithStore.Store.Entry

/-! Range tombstones (`range_tombstone.rs`): a triple deletes every user key of
`[start, stop)` written before its sequence. A set keeps them sorted by start with a
running maximum of their ends, so a coverage query walks back only while an earlier
tombstone can still reach the key. The queries are modelled with that walk and then
characterised by what the tombstones themselves say. -/

namespace RegolithStore

open Lib List

variable {k : Key}

variable {seq : Seq} {start stop : Key}

/-- A range tombstone; `stop` is the source's field `end`. -/
structure RangeTombstone where
  start : Key
  stop : Key
  seq : Seq
  deriving DecidableEq

variable {t a b : RangeTombstone}

namespace RangeTombstone

variable {c : RangeTombstone}

def Covers (t : RangeTombstone) (k : Key) : Prop := t.start ≤ k ∧ k < t.stop

instance (t : RangeTombstone) (k : Key) : Decidable (t.Covers k) :=
  inferInstanceAs (Decidable (_ ∧ _))

def Overlaps (t : RangeTombstone) (start stop : Key) : Prop := t.start < stop ∧ start < t.stop

instance (t : RangeTombstone) (start stop : Key) : Decidable (t.Overlaps start stop) :=
  inferInstanceAs (Decidable (_ ∧ _))

def clipTo (t : RangeTombstone) (start stop : Key) : Option RangeTombstone :=
  if t.Overlaps start stop then
    let clippedStart := if t.start < start then start else t.start
    let clippedStop := if stop < t.stop then stop else t.stop
    if clippedStart < clippedStop then some ⟨clippedStart, clippedStop, t.seq⟩ else none
  else none

theorem clipTo_eq_some : t.clipTo start stop = some c ↔ t.Overlaps start stop ∧
      max t.start start < min stop t.stop ∧ c = ⟨max t.start start, min stop t.stop, t.seq⟩ := by
  have hstrt : (if t.start < start then start else t.start) = max t.start start := by
    split_ifs with h
    · exact (max_eq_right h.le).symm
    · exact (max_eq_left (not_lt.mp h)).symm
  have hs : (if stop < t.stop then stop else t.stop) = min stop t.stop := by
    split_ifs with h
    · exact (min_eq_left h.le).symm
    · exact (min_eq_right (not_lt.mp h)).symm
  simp only [clipTo, hstrt, hs]
  by_cases hov : t.Overlaps start stop
  · by_cases hlt : max t.start start < min stop t.stop
    · rw [if_pos hov, if_pos hlt, Option.some.injEq]
      exact ⟨fun h => ⟨hov, hlt, h.symm⟩, fun h => h.2.2.symm⟩
    · rw [if_pos hov, if_neg hlt]
      exact ⟨fun h => by simp at h, fun h => absurd h.2.1 hlt⟩
  · rw [if_neg hov]
    exact ⟨fun h => by simp at h, fun h => absurd h.1 hov⟩

theorem clipTo_covers {start stop k : Key} (h : t.clipTo start stop = some c) :
    c.Covers k ↔ t.Covers k ∧ start ≤ k ∧ k < stop := by
  obtain ⟨-, -, rfl⟩ := clipTo_eq_some.mp h
  simp only [Covers, max_le_iff, lt_min_iff]
  tauto

theorem clipTo_seq (h : t.clipTo start stop = some c) : c.seq = t.seq := by
  obtain ⟨-, -, rfl⟩ := clipTo_eq_some.mp h
  rfl

theorem exists_clipTo {t : RangeTombstone} {start stop k : Key} (hk : t.Covers k)
    (h1 : start ≤ k) (h2 : k < stop) : ∃ c, t.clipTo start stop = some c := by
  obtain ⟨hs, he⟩ := hk
  refine ⟨_, clipTo_eq_some.mpr ⟨⟨hs.trans_lt h2, h1.trans_lt he⟩, ?_, rfl⟩⟩
  exact (max_le hs h1).trans_lt (lt_min h2 he)

/-- The order tombstones are kept in: by start, by end, newest first. -/
def Le (a b : RangeTombstone) : Prop :=
  a.start < b.start ∨ a.start = b.start ∧
    (a.stop < b.stop ∨ a.stop = b.stop ∧ b.seq ≤ a.seq)

instance : DecidableRel Le := fun _ _ => inferInstanceAs (Decidable (_ ∨ _))

def rank (t : RangeTombstone) : Key ×ₗ Key ×ₗ Seqᵒᵈ :=
  toLex (t.start, toLex (t.stop, OrderDual.toDual t.seq))

theorem le_iff : Le a b ↔ a.rank ≤ b.rank := by
  simp [Le, rank, Prod.Lex.toLex_le_toLex]

instance : Std.Total Le := ⟨fun a b => by simpa only [le_iff] using le_total a.rank b.rank⟩

theorem Le.trans {c : RangeTombstone} (hab : Le a b) (hbc : Le b c) : Le a c :=
  le_iff.mpr ((le_iff.mp hab).trans (le_iff.mp hbc))

instance : IsTrans RangeTombstone Le := ⟨fun _ _ _ => Le.trans⟩

theorem rank_injective : Function.Injective rank := by
  rintro ⟨start, stop, seq⟩ ⟨start', stop', seq'⟩ h
  simpa [rank] using h

theorem strictWeak_rank : StrictWeak fun a b : RangeTombstone => decide (a.rank < b.rank) where
  irrefl a := decide_eq_false (lt_irrefl _)
  trans hab hbc := by
    rw [decide_eq_false_iff_not, not_lt] at *
    exact hab.trans hbc
  asymm hab := decide_eq_false (of_decide_eq_true hab).asymm

theorem Le.start_le (h : Le a b) : a.start ≤ b.start := by
  rcases h with h | ⟨h, -⟩
  · exact h.le
  · exact h.le

end RangeTombstone

open RangeTombstone

variable (ts : List RangeTombstone) {joined : List RangeTombstone}

/-- `sort_dedup_tombstones`: a stable sort, then every repeat dropped. -/
def sortDedupTombstones : List RangeTombstone :=
  dedupBy (fun a b => decide (a = b)) (ts.insertionSort Le)

@[simp] theorem mem_sortDedupTombstones {ts : List RangeTombstone} :
    t ∈ sortDedupTombstones ts ↔ t ∈ ts := by
  rw [sortDedupTombstones, mem_dedupBy_eq, mem_insertionSort]

theorem sortDedupTombstones_start_le :
    (sortDedupTombstones ts).Pairwise fun a b => a.start ≤ b.start :=
  ((pairwise_insertionSort _ ts).sublist (dedupBy_sublist _)).imp Le.start_le

/-- Sorted, and no two the same. -/
theorem sortDedupTombstones_strict :
    (sortDedupTombstones ts).Pairwise fun a b => a.rank < b.rank := by
  have htri : ∀ a b : RangeTombstone, decide (b.rank < a.rank) = false →
      decide (a.rank < b.rank) = true ∨ decide (a = b) = true := by
    intro a b hab
    rw [decide_eq_false_iff_not, not_lt] at hab
    simpa [rank_injective.eq_iff] using hab.lt_or_eq
  refine (dedupBy_strict strictWeak_rank htri ?_).imp of_decide_eq_true
  exact (pairwise_insertionSort _ ts).imp fun hab => decide_eq_false (le_iff.mp hab).not_gt

/-- One step of the loop in `coalesced`: a range that touches or meets the last one of its
sequence extends it. -/
def coalesceInto (joined : List RangeTombstone) (t : RangeTombstone) : List RangeTombstone :=
  match joined.getLast? with
  | some last =>
    if last.seq = t.seq ∧ t.start ≤ last.stop then
      if last.stop < t.stop then joined.dropLast ++ [{ last with stop := t.stop }] else joined
    else joined ++ [t]
  | none => joined ++ [t]

/-- Ranges that share a sequence and touch are one, oldest sequence first. -/
def coalesced : List RangeTombstone :=
  (stableSort RangeTombstone.seq (sortDedupTombstones ts)).foldl coalesceInto []

/-- A tombstone of the list has the sequence and covers the key. -/
def CoveredAt (seq : Seq) (k : Key) : Prop :=
  ∃ t ∈ ts, t.seq = seq ∧ t.Covers k

theorem coveredAt_append {ts us : List RangeTombstone} :
    CoveredAt (ts ++ us) seq k ↔ CoveredAt ts seq k ∨ CoveredAt us seq k := by
  simp only [CoveredAt, mem_append, or_and_right, exists_or]

theorem coveredAt_singleton : CoveredAt [t] seq k ↔ t.seq = seq ∧ t.Covers k := by
  simp [CoveredAt]

/-- One step joins exactly what the new range covers, when the last of its sequence does not
start after it. -/
theorem coveredAt_coalesceInto
    (h : ∀ last, joined.getLast? = some last → last.seq = t.seq → last.start ≤ t.start) :
    CoveredAt (coalesceInto joined t) seq k ↔ CoveredAt joined seq k ∨ CoveredAt [t] seq k := by
  rw [coalesceInto]
  cases hl : joined.getLast? with
  | none => exact coveredAt_append
  | some last =>
    have hs := dropLast_append_getLast? last hl
    dsimp only
    split_ifs with hj hlonger
    · have hstrt := h last hl hj.1
      nth_rewrite 2 [← hs]
      rw [coveredAt_append, coveredAt_append, or_assoc]
      refine or_congr_right ?_
      simp only [coveredAt_singleton, Covers, ← hj.1, ← and_or_left]
      refine and_congr_right fun _ => ?_
      constructor
      · rintro ⟨hlow, hh⟩
        rcases lt_or_ge k last.stop with hin | hout
        · exact .inl ⟨hlow, hin⟩
        · exact .inr ⟨hj.2.trans hout, hh⟩
      · rintro (⟨hlow, hh⟩ | ⟨hlow, hh⟩)
        · exact ⟨hlow, hh.trans hlonger⟩
        · exact ⟨hstrt.trans hlow, hh⟩
    · refine (or_iff_left_of_imp fun hcovered => ?_).symm
      obtain ⟨hseq, hlow, hh⟩ := coveredAt_singleton.mp hcovered
      refine ⟨last, mem_of_getLast? hl, hj.1.trans hseq, ?_, ?_⟩
      · exact (h last hl hj.1).trans hlow
      · exact hh.trans_le (not_lt.mp hlonger)
    · exact coveredAt_append

theorem getLast?_coalesceInto {t last : RangeTombstone}
    (h : (coalesceInto joined t).getLast? = some last) :
    last = t ∨ ∃ before, joined.getLast? = some before ∧ before.seq = t.seq ∧
      last.seq = before.seq ∧ last.start = before.start := by
  rw [coalesceInto] at h
  cases hl : joined.getLast? with
  | none =>
    rw [hl] at h
    exact .inl (by simpa using h.symm)
  | some before =>
    rw [hl] at h
    dsimp only at h
    split_ifs at h with hj hlonger
    · obtain rfl : _ = last := by simpa using h
      exact .inr ⟨before, rfl, hj.1, rfl, rfl⟩
    · obtain rfl : before = last := Option.mem_unique hl h
      exact .inr ⟨before, rfl, hj.1, rfl, rfl⟩
    · exact .inl (by simpa using h.symm)

theorem coveredAt_foldl_coalesceInto {ts joined : List RangeTombstone}
    (hts : ts.Pairwise fun a b => a.seq = b.seq → a.start ≤ b.start)
    (hj : ∀ last, joined.getLast? = some last → ∀ t ∈ ts, last.seq = t.seq →
      last.start ≤ t.start) :
    CoveredAt (ts.foldl coalesceInto joined) seq k ↔ CoveredAt joined seq k ∨ CoveredAt ts seq k := by
  induction ts generalizing joined with
  | nil => simp [CoveredAt]
  | cons t ts ih =>
    obtain ⟨ht, hts⟩ := pairwise_cons.mp hts
    have hn : ∀ last, (coalesceInto joined t).getLast? = some last → ∀ u ∈ ts,
        last.seq = u.seq → last.start ≤ u.start := by
      intro last hl u hu hseq
      rcases getLast?_coalesceInto hl with rfl | ⟨before, hb, -, hseq', hs⟩
      · exact ht u hu hseq
      · rw [hs]
        exact hj before hb u (mem_cons_of_mem t hu) (hseq'.symm.trans hseq)
    have hl := fun last hl => hj last hl t mem_cons_self
    rw [foldl_cons, ih hts hn, coveredAt_coalesceInto hl, or_assoc]
    exact or_congr_right coveredAt_append.symm

theorem coveredAt_coalesced {ts : List RangeTombstone} :
    CoveredAt (coalesced ts) seq k ↔ CoveredAt ts seq k := by
  rw [coalesced, coveredAt_foldl_coalesceInto
    (pairwise_stableSort_of_eq (sortDedupTombstones_start_le ts)) (fun _ h => by simp at h)]
  simp [CoveredAt, mem_stableSort]

/-- Of two ranges of one sequence the second starts past the end of the first. -/
def Gap (a b : RangeTombstone) : Prop := a.seq = b.seq → a.stop < b.start

/-- What the loop keeps: every range but the last one ends before what is still to come. -/
theorem gap_foldl_coalesceInto {ts joined : List RangeTombstone} (hjoined : joined.Pairwise Gap)
    (hseq : ts.Pairwise fun a b => a.seq ≤ b.seq)
    (hts : ts.Pairwise fun a b => a.seq = b.seq → a.start ≤ b.start)
    (hd : ∀ a ∈ joined, ∀ t ∈ ts, a.seq ≤ t.seq) (hgap : ∀ a ∈ joined.dropLast, ∀ t ∈ ts, Gap a t) :
    (ts.foldl coalesceInto joined).Pairwise Gap := by
  induction ts generalizing joined with
  | nil => exact hjoined
  | cons t ts ih =>
    obtain ⟨hseqt, hseq⟩ := pairwise_cons.mp hseq
    obtain ⟨ht, hts⟩ := pairwise_cons.mp hts
    rw [foldl_cons]
    have hpush (hnew : ∀ a ∈ joined, Gap a t) :
        ((joined ++ [t]) |> ts.foldl coalesceInto).Pairwise Gap := by
      refine ih (pairwise_append.mpr ⟨hjoined, pairwise_singleton _ _, by simpa using hnew⟩)
        hseq hts ?_ ?_
      · intro a ha u hu
        rcases mem_append.mp ha with ha | ha
        · exact hd a ha u (mem_cons_of_mem t hu)
        · exact mem_singleton.mp ha ▸ hseqt u hu
      · rw [dropLast_concat]
        intro a ha u hu heq
        have hle := hd a ha t mem_cons_self
        have hat : a.seq = t.seq := le_antisymm hle (heq ▸ hseqt u hu)
        exact (hnew a ha hat).trans_le (ht u hu (hat.symm.trans heq))
    rw [coalesceInto]
    cases hl : joined.getLast? with
    | none =>
      obtain rfl := getLast?_eq_none_iff.mp hl
      exact hpush (by simp)
    | some last =>
      have hs := dropLast_append_getLast? last hl
      dsimp only
      split_ifs with hj hlonger
      · rw [← hs, pairwise_append] at hjoined
        refine ih (pairwise_append.mpr ⟨hjoined.1, pairwise_singleton _ _, ?_⟩) hseq hts ?_ ?_
        · rintro a ha b (_ | ⟨_, ⟨⟩⟩)
          exact hjoined.2.2 a ha last mem_cons_self
        · intro a ha u hu
          rcases mem_append.mp ha with ha | ha
          · exact hd a ((dropLast_sublist joined).subset ha) u (mem_cons_of_mem t hu)
          · obtain rfl := mem_singleton.mp ha
            exact hj.1 ▸ hseqt u hu
        · rw [dropLast_concat]
          exact fun a ha u hu => hgap a ha u (mem_cons_of_mem t hu)
      · exact ih hjoined hseq hts (fun a ha u hu => hd a ha u (mem_cons_of_mem t hu))
          fun a ha u hu => hgap a ha u (mem_cons_of_mem t hu)
      · refine hpush fun a ha hat => ?_
        rw [← hs] at ha
        rcases mem_append.mp ha with ha | ha
        · exact hgap a ha t mem_cons_self hat
        · obtain rfl := mem_singleton.mp ha
          exact not_le.mp fun hle => hj ⟨hat, hle⟩

theorem coalesced_gap : (coalesced ts).Pairwise Gap :=
  gap_foldl_coalesceInto .nil (pairwise_stableSort _)
    (pairwise_stableSort_of_eq (sortDedupTombstones_start_le ts)) (by simp) (by simp)

/-- Tombstones by start, as every set is built; the running maximum of the ends that
the source stores beside them is `prefixMax RangeTombstone.stop tombstones`. -/
structure RangeTombstoneSet where
  tombstones : List RangeTombstone
  sorted : tombstones.Pairwise fun a b => a.start ≤ b.start

namespace RangeTombstoneSet

theorem sorted_nil : ([] : List RangeTombstone).Pairwise fun a b => a.start ≤ b.start := .nil

variable {s : RangeTombstoneSet} {snapshot q : Seq}

def fromVec : RangeTombstoneSet :=
  ⟨sortDedupTombstones ts, sortDedupTombstones_start_le ts⟩

def isEmpty (s : RangeTombstoneSet) : Bool := s.tombstones.isEmpty

/-- The largest sequence of a tombstone covering `k` and visible at `snapshot`, or 0. -/
def maxCoveringSeq (s : RangeTombstoneSet) (k : Key) (snapshot : Seq) : Seq :=
  (visited RangeTombstone.stop (fun t => decide (t.start ≤ k)) k s.tombstones).foldl
    (fun best t => if t.seq ≤ snapshot ∧ t.Covers k ∧ best < t.seq then t.seq else best) 0

/-- Whether one tombstone covers every key of the closed range. -/
def coversWhole (s : RangeTombstoneSet) (first last : Key) : Bool :=
  (visited RangeTombstone.stop (fun t => decide (t.start ≤ first)) last s.tombstones).any
    fun t => decide (last < t.stop)

def clippedOverlaps (s : RangeTombstoneSet) (start stop : Key) : List RangeTombstone :=
  if stop ≤ start then []
  else sortDedupTombstones
    ((visited RangeTombstone.stop (fun t => decide (t.start < stop)) start s.tombstones).filterMap
      fun t => t.clipTo start stop)

@[simp] theorem mem_fromVec {ts : List RangeTombstone} :
    t ∈ (fromVec ts).tombstones ↔ t ∈ ts := mem_sortDedupTombstones

theorem split_start_le (s : RangeTombstoneSet) (k : Key) :
    Split (fun t => decide (t.start ≤ k)) s.tombstones := split_lo_le s.sorted k

theorem split_start_lt (s : RangeTombstoneSet) (k : Key) :
    Split (fun t => decide (t.start < k)) s.tombstones :=
  s.sorted.imp fun hab => by simpa using fun hb => hab.trans_lt hb

theorem mem_of_mem_visited {p : RangeTombstone → Bool} {b : Key}
    (h : t ∈ visited RangeTombstone.stop p b s.tombstones) :
    t ∈ s.tombstones := (takeWhile_sublist p).subset (visited_subset h)

private theorem maxCoveringSeq_eq_raise : s.maxCoveringSeq k snapshot = raise RangeTombstone.seq 0
    ((visited RangeTombstone.stop (fun t => decide (t.start ≤ k)) k s.tombstones).filter
      fun t => decide (t.seq ≤ snapshot ∧ t.Covers k)) := by
  simp only [maxCoveringSeq, raise, foldl_filter, decide_eq_true_eq, max_def_lt, ← ite_and, and_assoc]

/-- The query sees every tombstone of the set, not only those its walk visits. -/
private theorem mem_covering : t ∈ (visited RangeTombstone.stop (fun t => decide (t.start ≤ k)) k
      s.tombstones).filter (fun t => decide (t.seq ≤ snapshot ∧ t.Covers k)) ↔
    t ∈ s.tombstones ∧ t.seq ≤ snapshot ∧ t.Covers k := by
  rw [mem_filter, decide_eq_true_eq]
  refine and_congr_left fun h => ⟨mem_of_mem_visited, fun ht => ?_⟩
  exact mem_visited (s.split_start_le k) ht (decide_eq_true h.2.1) h.2.2

theorem lt_maxCoveringSeq : q < s.maxCoveringSeq k snapshot ↔
      ∃ t ∈ s.tombstones, t.seq ≤ snapshot ∧ t.Covers k ∧ q < t.seq := by
  rw [maxCoveringSeq_eq_raise, lt_raise, or_iff_right (show ¬ q < 0 from not_lt_bot)]
  simp only [mem_covering, and_assoc]

theorem maxCoveringSeq_lt : s.maxCoveringSeq k snapshot < q ↔
      0 < q ∧ ∀ t ∈ s.tombstones, t.seq ≤ snapshot → t.Covers k → t.seq < q := by
  rw [maxCoveringSeq_eq_raise, raise_lt]
  simp only [mem_covering, and_imp]

theorem mem_clippedOverlaps {c : RangeTombstone} :
    c ∈ s.clippedOverlaps start stop ↔ start < stop ∧ ∃ t ∈ s.tombstones, t.clipTo start stop = some
      c := by
  rw [clippedOverlaps]
  split_ifs with h
  · simp [not_lt.mpr h]
  · rw [mem_sortDedupTombstones, mem_filterMap]
    refine ⟨fun ⟨t, ht, hc⟩ => ⟨not_le.mp h, t, mem_of_mem_visited ht, hc⟩, ?_⟩
    rintro ⟨-, t, ht, hc⟩
    have hov := (clipTo_eq_some.mp hc).1
    exact ⟨t, mem_visited (s.split_start_lt stop) ht (by simpa using hov.1) hov.2, hc⟩

theorem coversWhole_iff {first last : Key} : s.coversWhole first last = true ↔
    ∃ t ∈ s.tombstones, t.start ≤ first ∧ last < t.stop := by
  rw [coversWhole, any_eq_true]
  constructor
  · rintro ⟨t, ht, hl⟩
    obtain ⟨ht, hf⟩ := (s.split_start_le first).mem_takeWhile.mp (visited_subset ht)
    exact ⟨t, ht, of_decide_eq_true hf, of_decide_eq_true hl⟩
  · rintro ⟨t, ht, hf, hl⟩
    exact ⟨t, mem_visited (s.split_start_le first) ht (decide_eq_true hf) hl, decide_eq_true hl⟩

theorem isGreatest_maxCoveringSeq :
    IsGreatest (insert 0 {seq | seq ≤ snapshot ∧ CoveredAt s.tombstones seq k})
      (s.maxCoveringSeq k snapshot) := by
  have hle : ∀ t ∈ s.tombstones, t.seq ≤ snapshot → t.Covers k →
      t.seq ≤ s.maxCoveringSeq k snapshot := fun t ht hs hc =>
    not_lt.mp fun hlt => lt_irrefl _ (lt_maxCoveringSeq.mpr ⟨t, ht, hs, hc, hlt⟩)
  constructor
  · by_contra hno
    rw [Set.mem_insert_iff, not_or] at hno
    refine lt_irrefl _ (maxCoveringSeq_lt.mpr ⟨UInt64.pos_iff_ne_zero.mpr hno.1, ?_⟩)
    intro t ht hs hc
    refine (hle t ht hs hc).lt_of_ne fun heq => hno.2 ⟨heq ▸ hs, t, ht, heq, hc⟩
  · rintro seq (rfl | ⟨hs, t, ht, rfl, hc⟩)
    · exact UInt64.zero_le
    · exact hle t ht hs hc

theorem coveredAt_clippedOverlaps : CoveredAt (s.clippedOverlaps start stop) seq k ↔
    start ≤ k ∧ k < stop ∧ CoveredAt s.tombstones seq k := by
  constructor
  · rintro ⟨c, hc, rfl, hk⟩
    obtain ⟨-, t, ht, hclip⟩ := mem_clippedOverlaps.mp hc
    obtain ⟨hcov, hstrt, hs⟩ := (clipTo_covers hclip).mp hk
    exact ⟨hstrt, hs, t, ht, (clipTo_seq hclip).symm, hcov⟩
  · rintro ⟨hstrt, hs, t, ht, rfl, hk⟩
    obtain ⟨c, hclip⟩ := exists_clipTo hk hstrt hs
    exact ⟨c, mem_clippedOverlaps.mpr ⟨hstrt.trans_lt hs, t, ht, hclip⟩, clipTo_seq hclip,
      (clipTo_covers hclip).mpr ⟨hk, hstrt, hs⟩⟩

/-- The queries of a set answer as a scan of the list it was built from, and joining the
ranges of the list changes no answer and leaves none of one sequence that touch. -/
theorem queries_eq_scan :
    (∀ k snapshot, IsGreatest (insert 0 {seq | seq ≤ snapshot ∧ CoveredAt ts seq k})
      ((fromVec ts).maxCoveringSeq k snapshot)) ∧
    (∀ first last, (fromVec ts).coversWhole first last = true ↔
      ∃ t ∈ ts, t.start ≤ first ∧ last < t.stop) ∧
    (∀ first last, first ≤ last → ((fromVec ts).coversWhole first last = true ↔
      ∃ t ∈ ts, ∀ k, first ≤ k → k ≤ last → t.Covers k)) ∧
    (∀ start stop, ((fromVec ts).clippedOverlaps start stop).Pairwise (fun a b => a.rank < b.rank) ∧
      ∀ seq k, CoveredAt ((fromVec ts).clippedOverlaps start stop) seq k ↔
        start ≤ k ∧ k < stop ∧ CoveredAt ts seq k) ∧
    (∀ k snapshot, (fromVec (coalesced ts)).maxCoveringSeq k snapshot =
      (fromVec ts).maxCoveringSeq k snapshot) ∧
    (coalesced ts).Pairwise fun a b => a.seq = b.seq → ¬ (a.start ≤ b.stop ∧ b.start ≤ a.stop) := by
  have hset : ∀ us : List RangeTombstone, ∀ seq k,
      CoveredAt (fromVec us).tombstones seq k ↔ CoveredAt us seq k := by
    simp [CoveredAt]
  have hmax : ∀ us : List RangeTombstone, ∀ k snapshot,
      IsGreatest (insert 0 {seq | seq ≤ snapshot ∧ CoveredAt us seq k})
        ((fromVec us).maxCoveringSeq k snapshot) := by
    intro us k snapshot
    simpa only [hset] using isGreatest_maxCoveringSeq (s := fromVec us)
  have hwhl : ∀ first last, (fromVec ts).coversWhole first last = true ↔
      ∃ t ∈ ts, t.start ≤ first ∧ last < t.stop := by
    simp [coversWhole_iff]
  refine ⟨hmax ts, hwhl, ?_, ?_, ?_, ?_⟩
  · intro first last hle
    rw [hwhl]
    refine exists_congr fun t => and_congr_right fun _ => ⟨?_, ?_⟩
    · exact fun h k hfst hlast => ⟨h.1.trans hfst, hlast.trans_lt h.2⟩
    · exact fun h => ⟨(h first le_rfl hle).1, (h last hle le_rfl).2⟩
  · intro start stop
    refine ⟨?_, fun seq k => by rw [coveredAt_clippedOverlaps, hset]⟩
    rw [clippedOverlaps]
    split_ifs
    · exact .nil
    · exact sortDedupTombstones_strict _
  · intro k snapshot
    have hjoin := hmax (coalesced ts) k snapshot
    simp only [coveredAt_coalesced] at hjoin
    exact hjoin.unique (hmax ts k snapshot)
  · exact (coalesced_gap ts).imp fun hab heq htouch => (hab heq).not_ge htouch.2

end RangeTombstoneSet

end RegolithStore
