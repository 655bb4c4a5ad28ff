import RegolithStore.Store.SourceWalk
import RegolithStore.Wal.Operations

/-! Writing a commit's operations into a memtable (`memtable.rs`, `skiplist/`,
`request.rs`). Each operation takes one sequence, from the commit's first on. An internal key
the memtable already holds keeps its value, and a tombstone it already holds is not listed
again, so a second application adds nothing. -/

namespace RegolithStore

open Lib List WriteBatchOp Entry MemTable

variable {base seq : Seq} {ops : List WriteBatchOp} {e : Entry} {p : WriteBatchOp × Seq}
  {op : WriteBatchOp}

variable {xs : List Entry} {n : Nat} {t : RangeTombstone}

/-- `n` sequences from `base` on, and the one after them, are sequences. -/
def Seq.Fits (base : Seq) (n : Nat) : Prop := base.toNat + n < 2 ^ 64

instance (base : Seq) (n : Nat) : Decidable (Seq.Fits base n) :=
  inferInstanceAs (Decidable (_ < _))

theorem Seq.toNat_add (h : base.Fits n) : (base + UInt64.ofNat n).toNat = base.toNat + n := by
  have hn : n < 2 ^ 64 := lt_of_le_of_lt (Nat.le_add_left _ _) h
  rw [UInt64.toNat_add, UInt64.toNat_ofNat', Nat.mod_eq_of_lt hn, Nat.mod_eq_of_lt h]

theorem Seq.toNat_last (h : base.Fits n) (hpos : 0 < n) :
    (base + UInt64.ofNat n - 1).toNat = base.toNat + n - 1 := by
  have hsum := Seq.toNat_add h
  rw [UInt64.toNat_sub_of_le, hsum]
  · rfl
  · exact UInt64.le_iff_toNat_le.mpr (hsum ▸ Nat.le_add_left_of_le hpos)

theorem Seq.toNat_succ (h : base.Fits (n + 1)) : (base + 1).toNat = base.toNat + 1 :=
  Seq.toNat_add (n := 1) (by rw [Seq.Fits] at h ⊢; omega)

theorem Seq.fits_succ (h : base.Fits (n + 1)) : (base + 1).Fits n := by
  rw [Seq.Fits, Seq.toNat_succ h]
  rw [Seq.Fits] at h
  omega

def sequenced : List WriteBatchOp → Seq → List (WriteBatchOp × Seq)
  | [], _ => []
  | op :: ops, seq => (op, seq) :: sequenced ops (seq + 1)

theorem mem_of_mem_sequenced (h : p ∈ sequenced ops base) : p.1 ∈ ops := by
  induction ops generalizing base with
  | nil => exact absurd h not_mem_nil
  | cons op ops ih =>
    rcases mem_cons.mp h with rfl | h
    · exact mem_cons_self
    · exact mem_cons_of_mem _ (ih h)

theorem bounds_of_mem_sequenced (hfits : base.Fits ops.length) (h : p ∈ sequenced ops base) :
    base.toNat ≤ p.2.toNat ∧ p.2.toNat < base.toNat + ops.length := by
  induction ops generalizing base with
  | nil => exact absurd h not_mem_nil
  | cons op ops ih =>
    rw [length_cons] at hfits ⊢
    rcases mem_cons.mp h with rfl | h
    · exact ⟨le_rfl, Nat.lt_add_of_pos_right (Nat.succ_pos _)⟩
    · have hr := ih (Seq.fits_succ hfits) h
      rw [Seq.toNat_succ hfits] at hr
      omega

theorem sequenced_pairwise (hfits : base.Fits ops.length) :
    (sequenced ops base).Pairwise fun p q => p.2 < q.2 := by
  induction ops generalizing base with
  | nil => exact .nil
  | cons op ops ih =>
    refine .cons (fun q hq => UInt64.lt_iff_toNat_lt.mpr ?_) (ih (Seq.fits_succ hfits))
    have hlo := (bounds_of_mem_sequenced (Seq.fits_succ hfits) hq).1
    rwa [Seq.toNat_succ hfits] at hlo

namespace WriteBatchOp

def pointEntry (seq : Seq) : WriteBatchOp → Option Entry
  | put key value => some ⟨key, seq, .value, value⟩
  | delete key => some ⟨key, seq, .deletion, []⟩
  | merge key operand => some ⟨key, seq, .merge, operand⟩
  | deleteRange .. => none

def tombstone (seq : Seq) : WriteBatchOp → Option RangeTombstone
  | deleteRange start stop => some ⟨start, stop, seq⟩
  | put .. | delete .. | merge .. => none

theorem pointEntry_seq (h : op.pointEntry seq = some e) : e.seq = seq := by
  cases op <;> simp only [pointEntry, Option.some.injEq, reduceCtorEq] at h <;> rw [← h]

theorem tombstone_seq (h : op.tombstone seq = some t) : t.seq = seq := by
  cases op <;> simp only [tombstone, Option.some.injEq, reduceCtorEq] at h
  rw [← h]

end WriteBatchOp

def opEntries (ops : List WriteBatchOp) (base : Seq) : List Entry :=
  (sequenced ops base).filterMap fun p => p.1.pointEntry p.2

def opTombstones (ops : List WriteBatchOp) (base : Seq) : List RangeTombstone :=
  (sequenced ops base).filterMap fun p => p.1.tombstone p.2

section Bounds

variable (hfits : base.Fits ops.length)

include hfits

theorem bounds_of_mem_opEntries (h : e ∈ opEntries ops base) :
    base.toNat ≤ e.seq.toNat ∧ e.seq.toNat < base.toNat + ops.length := by
  obtain ⟨p, hp, hentry⟩ := mem_filterMap.mp h
  rw [pointEntry_seq hentry]
  exact bounds_of_mem_sequenced hfits hp

theorem bounds_of_mem_opTombstones (h : t ∈ opTombstones ops base) :
    base.toNat ≤ t.seq.toNat ∧ t.seq.toNat < base.toNat + ops.length := by
  obtain ⟨p, hp, htomb⟩ := mem_filterMap.mp h
  rw [tombstone_seq htomb]
  exact bounds_of_mem_sequenced hfits hp

theorem opEntries_pairwise : (opEntries ops base).Pairwise fun a b => a.seq < b.seq := by
  refine List.Pairwise.filterMap _ (fun p q hlt a ha b hb => ?_) (sequenced_pairwise hfits)
  rwa [pointEntry_seq ha, pointEntry_seq hb]

end Bounds

/-- An insert keeps the order, and a key the list holds keeps its value. -/
def insertEntry (e : Entry) : List Entry → List Entry
  | [] => [e]
  | x :: xs =>
    if x.Before e then x :: insertEntry e xs
    else if x.SameKey e then x :: xs
    else e :: x :: xs

theorem subset_insertEntry (e : Entry) (xs : List Entry) : xs ⊆ insertEntry e xs := by
  induction xs with
  | nil => exact nil_subset _
  | cons x xs ih =>
    rw [insertEntry]
    split_ifs
    · exact cons_subset_cons _ ih
    · exact List.Subset.refl _
    · exact subset_cons_self _ _

theorem mem_of_mem_insertEntry {e y : Entry} (h : y ∈ insertEntry e xs) : y = e ∨ y ∈ xs := by
  induction xs with
  | nil => exact .inl (mem_singleton.mp h)
  | cons x xs ih =>
    rw [insertEntry] at h
    split_ifs at h
    · rcases mem_cons.mp h with rfl | h
      · exact .inr mem_cons_self
      · exact (ih h).imp id (mem_cons_of_mem _)
    · exact .inr h
    · exact mem_cons.mp h

theorem mem_insertEntry_self (hown : ∀ y ∈ xs, y.SameKey e → y = e) : e ∈ insertEntry e xs := by
  induction xs with
  | nil => exact mem_singleton_self e
  | cons x xs ih =>
    rw [forall_mem_cons] at hown
    rw [insertEntry]
    split_ifs with hb hs
    · exact mem_cons_of_mem _ (ih hown.2)
    · exact mem_cons.mpr (.inl (hown.1 hs).symm)
    · exact mem_cons_self

theorem insertEntry_sorted (h : xs.Pairwise Before) : (insertEntry e xs).Pairwise Before := by
  induction xs with
  | nil => exact pairwise_singleton _ _
  | cons x xs ih =>
    rw [pairwise_cons] at h
    rw [insertEntry]
    split_ifs with hb hs
    · refine .cons (fun y hy => ?_) (ih h.2)
      rcases mem_of_mem_insertEntry hy with rfl | hy
      · exact hb
      · exact h.1 y hy
    · exact .cons h.1 h.2
    · have hlt : e.Before x := by
        rcases before_or_sameKey_or_before x e with h | h | h
        · exact absurd h hb
        · exact absurd h hs
        · exact h
      refine .cons (fun y hy => ?_) (.cons h.1 h.2)
      rcases mem_cons.mp hy with rfl | hy
      · exact hlt
      · exact hlt.trans (h.1 y hy)

namespace MemTable

variable (m : MemTable)

/-- `TombstoneLog::push`. -/
def deleteRange (t : RangeTombstone) : MemTable :=
  if t ∈ m.rangeTombstones then m
  else { m with rangeTombstones := m.rangeTombstones ++ [t] }

/-- `apply_batch_op_to_memtable`. -/
def applyOp (p : WriteBatchOp × Seq) : MemTable :=
  match p.1 with
  | .put key value => { m with entries := insertEntry ⟨key, p.2, .value, value⟩ m.entries }
  | .delete key => { m with entries := insertEntry ⟨key, p.2, .deletion, []⟩ m.entries }
  | .deleteRange start stop => m.deleteRange ⟨start, stop, p.2⟩
  | .merge key operand => { m with entries := insertEntry ⟨key, p.2, .merge, operand⟩ m.entries }

/-- `Ops::apply`. -/
def apply (ops : List WriteBatchOp) (base : Seq) : MemTable :=
  (sequenced ops base).foldl applyOp m

/-- `rebuild_memtable`: what was written at or below `through`, in a memtable of its own. -/
def rebuild (identity : Nat) (through : Seq) : MemTable where
  identity := identity
  entries := m.entries.filter fun e => decide (e.seq ≤ through)
  rangeTombstones := m.rangeTombstones.filter fun t => decide (t.seq ≤ through)
  sealedSeq := none
  sealedWal := none

/-- An entry of the memtable at one of the sequences of the run is the run's own. -/
def Owns (run : List (WriteBatchOp × Seq)) : Prop :=
  ∀ p ∈ run, ∀ e ∈ m.entries, e.seq = p.2 → p.1.pointEntry p.2 = some e

section Apply

variable {m : MemTable} {run : List (WriteBatchOp × Seq)}

theorem entries_applyOp : (m.applyOp p).entries =
    match p.1.pointEntry p.2 with
    | some e => insertEntry e m.entries
    | none => m.entries := by
  obtain ⟨op, seq⟩ := p
  cases op <;> simp only [applyOp, WriteBatchOp.pointEntry]
  rw [deleteRange]
  split_ifs <;> rfl

theorem mem_deleteRange {t u : RangeTombstone} :
    u ∈ (m.deleteRange t).rangeTombstones ↔ u ∈ m.rangeTombstones ∨ u = t := by
  rw [deleteRange]
  split_ifs with h
  · exact ⟨.inl, fun hu => hu.elim id fun heq => heq ▸ h⟩
  · rw [mem_append, mem_singleton]

theorem mem_applyOp_tombstones :
    t ∈ (m.applyOp p).rangeTombstones ↔ t ∈ m.rangeTombstones ∨ p.1.tombstone p.2 = some t := by
  obtain ⟨op, seq⟩ := p
  cases op with
  | deleteRange start stop =>
    exact mem_deleteRange.trans (or_congr_right (eq_comm.trans Option.some_inj.symm))
  | put | delete | merge => exact (or_iff_left nofun).symm

theorem mem_of_mem_applyOp (h : e ∈ (m.applyOp p).entries) :
    e ∈ m.entries ∨ p.1.pointEntry p.2 = some e := by
  rw [entries_applyOp] at h
  cases hp : p.1.pointEntry p.2 with
  | none => rw [hp] at h; exact .inl h
  | some x =>
    rw [hp] at h
    exact (mem_of_mem_insertEntry h).symm.imp id fun heq => by rw [heq]

theorem subset_applyOp : m.entries ⊆ (m.applyOp p).entries := by
  rw [entries_applyOp]
  cases p.1.pointEntry p.2 with
  | none => exact List.Subset.refl _
  | some x => exact subset_insertEntry x _

theorem mem_applyOp_self (hown : ∀ e ∈ m.entries, e.seq = p.2 → p.1.pointEntry p.2 = some e)
    (he : p.1.pointEntry p.2 = some e) : e ∈ (m.applyOp p).entries := by
  rw [entries_applyOp, he]
  refine mem_insertEntry_self fun y hy hs => ?_
  have hseq : y.seq = p.2 := by rw [hs.2.1, pointEntry_seq he]
  exact Option.some.inj ((hown y hy hseq).symm.trans he)

theorem mem_foldl_applyOp (hrun : run.Pairwise fun p q => p.2 < q.2) (hown : m.Owns run) :
    e ∈ (run.foldl applyOp m).entries ↔
      e ∈ m.entries ∨ ∃ p ∈ run, p.1.pointEntry p.2 = some e := by
  induction run generalizing m with
  | nil => simp
  | cons p run ih =>
    rw [pairwise_cons] at hrun
    rw [Owns, forall_mem_cons] at hown
    -- what the first operation added is at a sequence no later one has
    have howns : (m.applyOp p).Owns run := fun q hq x hx hseq => by
      rcases mem_of_mem_applyOp hx with hx | hx
      · exact hown.2 q hq x hx hseq
      · have : p.2 < p.2 := by
          conv_rhs => rw [← pointEntry_seq hx, hseq]
          exact hrun.1 q hq
        exact absurd this (lt_irrefl _)
    rw [foldl_cons, ih hrun.2 howns, exists_mem_cons_iff, ← or_assoc]
    refine or_congr_left ⟨mem_of_mem_applyOp, ?_⟩
    rintro (he | he)
    · exact subset_applyOp he
    · exact mem_applyOp_self hown.1 he

theorem mem_foldl_applyOp_tombstones : t ∈ (run.foldl applyOp m).rangeTombstones ↔
      t ∈ m.rangeTombstones ∨ ∃ p ∈ run, p.1.tombstone p.2 = some t := by
  induction run generalizing m with
  | nil => simp
  | cons p run ih =>
    rw [foldl_cons, ih, mem_applyOp_tombstones, exists_mem_cons_iff, or_assoc]

theorem sorted_foldl_applyOp (h : m.entries.Pairwise Before) :
    (run.foldl applyOp m).entries.Pairwise Before := by
  induction run generalizing m with
  | nil => exact h
  | cons p run ih =>
    refine ih ?_
    rw [entries_applyOp]
    cases p.1.pointEntry p.2 with
    | none => exact h
    | some x => exact insertEntry_sorted h

end Apply

section Commit

variable {m : MemTable}

@[simp] theorem identity_apply : (m.apply ops base).identity = m.identity := by
  rw [apply]
  induction sequenced ops base generalizing m with
  | nil => rfl
  | cons p run ih =>
    rw [foldl_cons, ih]
    obtain ⟨op, seq⟩ := p
    cases op <;> simp only [applyOp]
    rw [deleteRange]
    split_ifs <;> rfl

/-- The memtable holds nothing at the commit's sequences or after them. -/
def Below (base : Seq) : Prop :=
  (∀ e ∈ m.entries, e.seq < base) ∧ ∀ t ∈ m.rangeTombstones, t.seq < base

theorem owns_of_below (hfits : base.Fits ops.length) (h : m.Below base) :
    m.Owns (sequenced ops base) := fun p hp e he hseq => by
  have hlo := (bounds_of_mem_sequenced hfits hp).1
  have hlt := UInt64.lt_iff_toNat_lt.mp (h.1 e he)
  rw [hseq] at hlt
  omega

theorem mem_apply (hfits : base.Fits ops.length) (hb : m.Below base) :
    e ∈ (m.apply ops base).entries ↔ e ∈ m.entries ∨ e ∈ opEntries ops base := by
  rw [apply, mem_foldl_applyOp (sequenced_pairwise hfits) (owns_of_below hfits hb), opEntries,
    mem_filterMap]

theorem mem_of_mem_apply (h : e ∈ (m.apply ops base).entries) :
    e ∈ m.entries ∨ e ∈ opEntries ops base := by
  rw [apply] at h
  rw [opEntries, mem_filterMap]
  generalize sequenced ops base = run at h ⊢
  induction run generalizing m with
  | nil => exact .inl h
  | cons p run ih =>
    rcases ih h with he | ⟨q, hq, he⟩
    · exact (mem_of_mem_applyOp he).imp_right fun he => ⟨p, mem_cons_self, he⟩
    · exact .inr ⟨q, mem_cons_of_mem _ hq, he⟩

theorem mem_apply_tombstones : t ∈ (m.apply ops base).rangeTombstones ↔
    t ∈ m.rangeTombstones ∨ t ∈ opTombstones ops base := by
  rw [apply, mem_foldl_applyOp_tombstones, opTombstones, mem_filterMap]

theorem apply_sorted (h : m.entries.Pairwise Before) :
    (m.apply ops base).entries.Pairwise Before := sorted_foldl_applyOp h

end Commit

end MemTable

namespace ReadView

variable {view : ReadView} {m : MemTable}

theorem sources_active : ({ view with active := m } : ReadView).sources =
    .memtable m :: view.sources.tail := rfl

theorem LsmOrdered.of_active (h : view.LsmOrdered) (hsrt : m.entries.Pairwise Before)
    (hunique : ∀ a ∈ m.entries, ∀ b ∈ m.entries, a.userKey = b.userKey → a.seq = b.seq → a = b)
    (hpos : ∀ e ∈ m.entries, 0 < e.seq)
    (hnewer : ∀ g ∈ view.groups.tail, ∀ u ∈ g, (Source.memtable m).Newer u) :
    ({ view with active := m } : ReadView).LsmOrdered where
  version := h.version
  sorted := fun n hn => by
    rcases mem_cons.mp hn with rfl | hn
    · exact hsrt
    · exact h.sorted n (.tail _ hn)
  pos := fun s hs => by
    rcases mem_cons.mp hs with rfl | hs
    · exact hpos
    · exact h.pos s (.tail _ hs)
  newer := by
    refine .cons (fun g hg s hs u hu => ?_) (pairwise_cons.mp h.newer).2
    rw [mem_singleton.mp hs]
    exact hnewer g hg u hu
  within := fun g hg => by
    rcases mem_cons.mp hg with rfl | hg
    · have he : [Source.memtable m].flatMap Source.entries = m.entries := by
        simp [Source.entries]
      rw [he]
      refine hsrt.imp_of_mem fun {a b} ha hb hbef hk => ?_
      refine lt_of_le_of_ne (hbef.seq_le hk.symm) fun hseq => ?_
      rw [hunique b hb a ha hk hseq] at hbef
      exact hbef.irrefl a
    · exact h.within g (.tail _ hg)

theorem LsmOrdered.unique (h : view.LsmOrdered) {a b : Entry} (ha : a ∈ view.active.entries)
    (hb : b ∈ view.active.entries) (hk : a.userKey = b.userKey) (hseq : a.seq = b.seq) : a = b := by
  have hd : view.active.entries.Pairwise fun a b => b.userKey = a.userKey → b.seq < a.seq := by
    simpa [Source.entries] using h.within _ mem_cons_self
  rcases pairwise_either hd ha hb with heq | hlt | hlt
  · exact heq
  · exact absurd hseq (hlt hk.symm).ne'
  · exact absurd hseq (hlt hk).ne

/-- The view holds nothing at `base` or after it. -/
def Below (view : ReadView) (base : Seq) : Prop :=
  ∀ s ∈ view.sources, (∀ e ∈ s.entries, e.seq < base) ∧ ∀ t ∈ s.tombstones, t.seq < base

theorem Below.active (h : view.Below base) : view.active.Below base :=
  h (.memtable view.active) mem_cons_self

/-- A commit above the view keeps its order. -/
theorem LsmOrdered.apply (h : view.LsmOrdered)
    (hfits : base.Fits ops.length) (hbel : view.Below base) (hpos : 0 < base) :
    ({ view with active := view.active.apply ops base } : ReadView).LsmOrdered := by
  have hge : ∀ e ∈ opEntries ops base, base ≤ e.seq := fun e he =>
    UInt64.le_iff_toNat_le.mpr (bounds_of_mem_opEntries hfits he).1
  have hlt : ∀ e ∈ view.active.entries, e.seq < base := hbel.active.1
  refine h.of_active (apply_sorted (h.sorted _ mem_cons_self)) ?_ ?_ ?_
  · intro a ha b hb hk hseq
    rcases (mem_apply hfits hbel.active).mp ha with ha | ha <;>
      rcases (mem_apply hfits hbel.active).mp hb with hb | hb
    · exact h.unique ha hb hk hseq
    · exact absurd hseq ((hlt a ha).trans_le (hge b hb)).ne
    · exact absurd hseq ((hlt b hb).trans_le (hge a ha)).ne'
    · rcases pairwise_either (opEntries_pairwise hfits) ha hb with heq | hlt | hlt
      · exact heq
      · exact absurd hseq hlt.ne
      · exact absurd hseq hlt.ne'
  · intro e he
    rcases (mem_apply hfits hbel.active).mp he with he | he
    · exact h.pos (.memtable view.active) mem_cons_self e he
    · exact hpos.trans_le (hge e he)
  · intro g hg u hu e he
    have hu' : u ∈ view.sources := mem_sources.mpr ⟨g, mem_of_mem_tail hg, hu⟩
    rcases (mem_apply hfits hbel.active).mp he with he | he
    · exact (pairwise_cons.mp h.newer).1 g hg _ (mem_singleton_self _) u hu e he
    · exact ⟨fun e' he' _ => ((hbel u hu').1 e' he').trans_le (hge e he),
        fun t ht _ => ((hbel u hu').2 t ht).trans_le (hge e he)⟩

theorem LsmOrdered.rebuild (h : view.LsmOrdered) (identity : Nat) (through : Seq) :
    ({ view with active := view.active.rebuild identity through } : ReadView).LsmOrdered := by
  have hsub : (view.active.rebuild identity through).entries.Sublist view.active.entries :=
    filter_sublist
  refine h.of_active ((h.sorted _ mem_cons_self).sublist hsub)
    (fun a ha b hb => h.unique (hsub.subset ha) (hsub.subset hb))
    (fun e he => h.pos (.memtable view.active) mem_cons_self e (hsub.subset he))
    fun g hg u hu e he => ?_
  exact (pairwise_cons.mp h.newer).1 g hg _ (mem_singleton_self _) u hu e (hsub.subset he)

/-- An empty memtable goes before all the others. -/
theorem LsmOrdered.freshActive (h : view.LsmOrdered) (identity : Nat) :
    (⟨.new identity, view.frozen ++ [view.active], view.version⟩ : ReadView).LsmOrdered := by
  have hmems : (⟨.new identity, view.frozen ++ [view.active], view.version⟩ :
      ReadView).memtables = .new identity :: view.memtables := by
    simp [memtables]
  refine ⟨h.version, fun n hn => ?_, fun s hs => ?_, ?_, fun g hg => ?_⟩
  · rw [hmems] at hn
    rcases mem_cons.mp hn with rfl | hn
    · exact .nil
    · exact h.sorted n hn
  · rw [sources, hmems] at hs
    rcases mem_cons.mp hs with rfl | hs
    · exact fun e he => absurd he not_mem_nil
    · exact h.pos s hs
  · rw [groups, hmems]
    refine .cons (fun g hg s hs u hu e he => ?_) h.newer
    rw [mem_singleton.mp hs] at he
    exact absurd he not_mem_nil
  · rw [groups, hmems] at hg
    rcases mem_cons.mp hg with rfl | hg
    · exact .nil
    · exact h.within g hg

theorem LsmOrdered.rotate (h : view.LsmOrdered) (seq : Seq) (wal : Option UInt64) (identity : Nat) :
    (view.rotate seq wal (.new identity)).LsmOrdered := by
  have hsealed : ({ view with
      active := { view.active with sealedSeq := some seq, sealedWal := wal } } :
      ReadView).LsmOrdered :=
    h.of_active (h.sorted view.active mem_cons_self) (fun a ha b hb => h.unique ha hb)
      (h.pos (.memtable view.active) mem_cons_self)
      fun g hg => (pairwise_cons.mp h.newer).1 g hg (.memtable view.active)
        (mem_singleton_self _)
  exact hsealed.freshActive identity

end ReadView

end RegolithStore
