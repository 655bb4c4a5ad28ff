import RegolithStore.Commit.Early
import RegolithStore.Commit.Pipeline

/-! What the published view of a pipeline holds: what the store held at first, what the slots
that stand wrote, and what rollbacks wrote back. The sequences of the slots that stand ascend
in ring order, those published are at or below the read horizon and the others above it. -/

namespace RegolithStore

open Lib

variable {m : MemTable}

inductive Written
  | entry (e : Entry)
  | range (t : RangeTombstone)

variable {w : Written}

def Written.seq : Written → Seq
  | entry e => e.seq
  | range t => t.seq

def MemTable.Has (m : MemTable) : Written → Prop
  | .entry e => e ∈ m.entries
  | .range t => t ∈ m.rangeTombstones

def Source.Has (s : Source) : Written → Prop
  | .entry e => e ∈ s.entries
  | .range t => t ∈ s.tombstones

def ReadView.Has (view : ReadView) (w : Written) : Prop := ∃ s ∈ view.sources, s.Has w

/-- The operations, the first of them at `base`, write it. -/
def OpsWrite (ops : List WriteBatchOp) (base : Seq) : Written → Prop
  | .entry e => e ∈ opEntries ops base
  | .range t => t ∈ opTombstones ops base

section Written

variable {ops : List WriteBatchOp} {base : Seq}

theorem OpsWrite.bounds (hf : base.Fits ops.length) (h : OpsWrite ops base w) :
    base.toNat ≤ w.seq.toNat ∧ w.seq.toNat < base.toNat + ops.length := by
  cases w with
  | entry e => exact bounds_of_mem_opEntries hf h
  | range t => exact bounds_of_mem_opTombstones hf h

theorem OpsWrite.proper (h : ∀ op ∈ ops, op.isProper = true) {t : RangeTombstone}
    (ht : OpsWrite ops base (.range t)) : t.start < t.stop := by
  obtain ⟨⟨op, seq⟩, hp, htomb⟩ := List.mem_filterMap.mp ht
  have hprop := h op (mem_of_mem_sequenced hp)
  cases op <;> simp only [WriteBatchOp.tombstone, Option.some.injEq, reduceCtorEq] at htomb
  subst htomb
  exact of_decide_eq_true hprop

theorem MemTable.has_apply (hf : base.Fits ops.length) (hb : m.Below base) :
    (m.apply ops base).Has w ↔ m.Has w ∨ OpsWrite ops base w := by
  cases w with
  | entry e => exact mem_apply hf hb
  | range t => exact mem_apply_tombstones

theorem MemTable.has_rebuild {identity : Nat} {through : Seq} :
    (m.rebuild identity through).Has w ↔ m.Has w ∧ w.seq ≤ through := by
  cases w <;> simp [Has, rebuild, Written.seq]

end Written

namespace ReadView

variable {view : ReadView}

def HasBelow (view : ReadView) (w : Written) : Prop := ∃ s ∈ view.sources.tail, s.Has w

theorem has_iff : view.Has w ↔ view.active.Has w ∨ view.HasBelow w := by
  have hsource : (Source.memtable view.active).Has w ↔ view.active.Has w := by cases w <;> rfl
  rw [Has, HasBelow, show view.sources = .memtable view.active :: view.sources.tail from rfl,
    List.exists_mem_cons_iff, hsource, List.tail_cons]

theorem has_active : ({ view with active := m } : ReadView).Has w ↔ m.Has w ∨ view.HasBelow w :=
  has_iff

theorem below_iff {base : Seq} : view.Below base ↔ ∀ w, view.Has w → w.seq < base := by
  constructor
  · rintro h w ⟨s, hs, hw⟩
    cases w with
    | entry e => exact (h s hs).1 e hw
    | range t => exact (h s hs).2 t hw
  · exact fun h s hs => ⟨fun e he => h (.entry e) ⟨s, hs, he⟩, fun t ht => h (.range t) ⟨s, hs, ht⟩⟩

theorem tombstonesProper_iff :
    view.TombstonesProper ↔ ∀ t, view.Has (.range t) → t.start < t.stop :=
  ⟨fun h t ⟨s, hs, ht⟩ => h s hs t ht, fun h s hs t ht => h t ⟨s, hs, ht⟩⟩

end ReadView

namespace Slot

variable (slot : Slot)

/-- What of a slot its later stages leave alone. -/
def erased : Slot := { slot with applied := false, written := false }

def Writes (w : Written) : Prop := OpsWrite slot.ops slot.decision.baseSeq w

def first : Nat := slot.decision.baseSeq.toNat

def stop : Nat := slot.first + slot.decision.ops

def Stands : Prop := slot.failed = false ∧ 0 < slot.decision.ops

structure Counted (slot : Slot) : Prop where
  length : slot.decision.ops = slot.ops.length
  fits : slot.decision.baseSeq.Fits slot.decision.ops

theorem Counted.bounds {slot : Slot} (h : slot.Counted) {w : Written} (hw : slot.Writes w) :
    0 < slot.decision.ops ∧ slot.first ≤ w.seq.toNat ∧ w.seq.toNat < slot.stop := by
  have hb := OpsWrite.bounds (h.length ▸ h.fits) hw
  rw [← h.length] at hb
  rw [stop, first]
  omega

end Slot

/-- What of a state its invariant is about: the slots without their flags, and the published
view as it shows. -/
@[ext] structure Outline where
  fates : List Slot
  pending : Option Slot
  published : Nat
  tip : After
  fresh : Nat
  view : LoadedView
  shown : ReadView
  horizon : Seq
  writeBacks : List (List WriteBatchOp × Seq)

def PipelineState.outline (s : PipelineState) : Outline where
  fates := s.slots.map Slot.erased
  pending := s.pending
  published := s.published
  tip := s.tip
  fresh := s.fresh
  view := s.view
  shown := s.readView s.view
  horizon := s.horizon
  writeBacks := s.writeBacks

namespace Outline

/-- It was there at first, a slot that stands wrote it, or a rollback did. -/
def Held (base : ReadView) (o : Outline) (w : Written) : Prop :=
  base.Has w ∨ (∃ slot ∈ o.fates, slot.failed = false ∧ slot.Writes w) ∨
    ∃ back ∈ o.writeBacks, OpsWrite back.1 back.2 w

/-- The slot at the frontier was decided from the tip. -/
structure Next (o : Outline) (slot : Slot) : Prop where
  epoch : slot.decision.after.epoch = o.tip.epoch
  memtable : slot.decision.after.memtable = o.tip.memtable
  baseSeq : 0 < slot.decision.ops → slot.decision.baseSeq = o.tip.nextSeq
  nextSeq : slot.decision.after.nextSeq = o.tip.nextSeq + UInt64.ofNat slot.decision.ops

/-- The slot at the frontier was decided from a state a rollback discarded. -/
structure Doomed (o : Outline) (slot : Slot) : Prop where
  epoch : slot.decision.after.epoch < o.tip.epoch
  memtable : slot.decision.after.memtable ∉ o.view.memtables
  published : o.published = o.fates.length

/-- Memtables are told apart, and a discarded slot's memtable is not shown. -/
structure Placed (o : Outline) : Prop where
  active : o.view.active = o.tip.memtable
  nodup : o.view.memtables.Nodup
  known : ∀ id ∈ o.view.memtables, id < o.fresh
  slotKnown : ∀ slot ∈ o.fates, slot.decision.after.memtable < o.fresh
  retired : ∀ slot ∈ o.fates, slot.failed = true → slot.decision.after.memtable ∉ o.view.memtables
  unpublished : ∀ slot ∈ o.fates.drop o.published, slot.failed = false →
    slot.decision.after.memtable = o.tip.memtable

structure Pending (o : Outline) (slot : Slot) : Prop where
  failed : slot.failed = false
  counted : slot.Counted
  known : slot.decision.after.memtable < o.fresh
  proper : ∀ op ∈ slot.ops, op.isProper
  next : o.Next slot ∨ o.Doomed slot

structure Numbered (o : Outline) : Prop where
  publishedLe : o.published ≤ o.fates.length
  live : ∀ slot ∈ (o.fates.drop o.published).tail, slot.failed = false
  counted : ∀ slot ∈ o.fates, slot.Counted
  ascending : o.fates.Pairwise fun a b => a.Stands → b.Stands → a.stop ≤ b.first
  below : ∀ slot ∈ o.fates, slot.Stands → slot.stop ≤ o.tip.nextSeq.toNat
  behind : ∀ slot ∈ o.fates.take o.published, slot.Stands → slot.stop ≤ o.horizon.toNat + 1
  ahead : ∀ slot ∈ o.fates.drop o.published, slot.Stands → o.horizon.toNat < slot.first
  horizon : o.horizon.toNat < o.tip.nextSeq.toNat

structure Shows (base : ReadView) (o : Outline) : Prop where
  baseLe : ∀ w, base.Has w → w.seq ≤ o.horizon
  backFits : ∀ back ∈ o.writeBacks, back.2.Fits back.1.length
  backLe : ∀ back ∈ o.writeBacks, back.2.toNat + back.1.length ≤ o.horizon.toNat + 1
  contents : ∀ w, o.shown.Has w ↔ o.Held base w ∨
    ∃ slot ∈ o.pending, slot.applied = true ∧ o.Next slot ∧ slot.Writes w
  belowActive : ∀ w, o.shown.HasBelow w → w.seq ≤ o.horizon
  ordered : o.shown.LsmOrdered
  within : o.shown.TablesWithin
  proper : o.shown.TombstonesProper

/-- What every step of the pipeline keeps, of a store that held `base` at first. -/
structure Sound (base : ReadView) (o : Outline) : Prop where
  placed : o.Placed
  numbered : o.Numbered
  pending : ∀ slot ∈ o.pending, o.Pending slot
  shows : o.Shows base

section Held

variable {base : ReadView} {o o' : Outline} {n : Nat}

/-- What slots that end by `n` hold, and rollbacks, lies below `n`. -/
theorem Sound.held_toNat_lt (h : o.Sound base) (hw : o'.Held base w) (hn : o.horizon.toNat < n)
    (hsls : ∀ slot ∈ o'.fates, slot.failed = false → slot ∈ o.fates ∧ (slot.Stands → slot.stop ≤ n))
    (hbacks : o'.writeBacks = o.writeBacks) : w.seq.toNat < n := by
  rcases hw with hw | ⟨slot, hs, hf, hw⟩ | ⟨back, hb, hw⟩
  · exact (UInt64.le_iff_toNat_le.mp (h.shows.baseLe w hw)).trans_lt hn
  · obtain ⟨hmem, hstop⟩ := hsls slot hs hf
    obtain ⟨hpos, -, hlt⟩ := (h.numbered.counted slot hmem).bounds hw
    exact hlt.trans_le (hstop ⟨hf, hpos⟩)
  · rw [hbacks] at hb
    have := (OpsWrite.bounds (h.shows.backFits back hb) hw).2
    have := h.shows.backLe back hb
    omega

theorem Sound.held_lt (h : o.Sound base) (hw : o.Held base w) : w.seq < o.tip.nextSeq :=
  UInt64.lt_iff_toNat_lt.mpr <| h.held_toNat_lt hw h.numbered.horizon
    (fun slot hs _ => ⟨hs, h.numbered.below slot hs⟩) rfl

end Held

end Outline

end RegolithStore
