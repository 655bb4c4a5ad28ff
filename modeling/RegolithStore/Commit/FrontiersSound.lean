import RegolithStore.Commit.Frontiers
import RegolithStore.Lib.Pointwise
import RegolithStore.Lib.Tiling

/-! What is so in every state of an orderly run of the frontiers. The slots that are not discarded
take the sequences and the bytes of each log one after the other; the horizon covers only slots
that are written, and durable where they asked for it; what is durable of a log is in records that
are written. -/

namespace RegolithStore

open Lib List Option RingSlot

variable {slot a b : RingSlot} {slots : List RingSlot} {inFlight : List Nat}

/-! ### Sequences and records -/

namespace RingSlot

variable {log : Nat}

/-- The sequences a slot that is not discarded took. -/
def seqSpan? (slot : RingSlot) : Option (Nat × Nat) :=
  if slot.discarded = false ∧ 0 < slot.ops then some (slot.base, slot.stop) else none

/-- The bytes of a log its record takes, if it is not discarded. -/
def spanIn? (log : Nat) (slot : RingSlot) : Option (Nat × Nat) :=
  if slot.discarded = false ∧ slot.after.log = log then
    slot.place.map fun place => (place.offset, place.stop)
  else none

theorem seqSpan?_of_live (hl : slot.discarded = false) (hops : 0 < slot.ops) :
    slot.seqSpan? = some (slot.base, slot.stop) :=
  if_pos ⟨hl, hops⟩

theorem spanIn?_of_live {place : Place} (hl : slot.discarded = false)
    (hpl : slot.place = some place) :
    slot.spanIn? slot.after.log = some (place.offset, place.stop) := by
  rw [spanIn?, if_pos ⟨hl, rfl⟩, hpl]
  rfl

theorem spanIn?_of_discarded (hd : slot.discarded = true) : slot.spanIn? log = none :=
  if_neg fun h => by simp [hd] at h

theorem spanIn?_eq_some {span : Nat × Nat} (h : slot.spanIn? log = some span) :
    slot.discarded = false ∧ slot.after.log = log ∧
      ∃ place, slot.place = some place ∧ span = (place.offset, place.stop) := by
  obtain ⟨⟨hl, hlog⟩, hmap⟩ := ite_none_right_eq_some.mp h
  obtain ⟨place, hpl, rfl⟩ := map_eq_some_iff.mp hmap
  exact ⟨hl, hlog, place, hpl, rfl⟩

structure Shape (slot : RingSlot) : Prop where
  place : ∀ p ∈ slot.place, 0 < slot.ops ∧ 0 < p.len
  marker : slot.after.marker = false

/-- The slot takes the next sequences and the next bytes of the log. -/
structure Follows (slot : RingSlot) (tip : TipState) : Prop where
  base : 0 < slot.ops → slot.base = tip.nextSeq
  nextSeq : slot.after.nextSeq = tip.nextSeq + slot.ops
  offset : ∀ p ∈ slot.place, p.offset = tip.nextOff ∧ slot.after.nextOff = p.stop
  nextOff : slot.place = none → slot.after.nextOff = tip.nextOff
  log : slot.after.log = tip.log
  memtable : slot.after.memtable = tip.memtable

end RingSlot

namespace TipState

variable (tip : TipState) (ops : Nat) (len : Option Nat) (immediate : Bool)

theorem shape_take (hlen : len.all (fun len => decide (0 < len)) = true) :
    (tip.take ops len immediate).Shape := by
  rw [take]
  split_ifs with hops
  · exact ⟨by simp, rfl⟩
  · refine ⟨fun p hp => ?_, rfl⟩
    obtain ⟨n, rfl, rfl⟩ := map_eq_some_iff.mp hp
    exact ⟨Nat.pos_of_ne_zero hops, of_decide_eq_true hlen⟩

theorem follows_take : (tip.take ops len immediate).Follows tip := by
  rw [take]
  split_ifs with hops
  · exact ⟨fun h => absurd h (lt_irrefl 0), rfl, by simp, fun _ => rfl, rfl, rfl⟩
  · refine ⟨fun _ => rfl, rfl, fun p hp => ?_, fun hn => ?_, rfl, rfl⟩
    · simp only [mem_def] at hp
      simp only [hp, map_some, getD_some, and_true]
      obtain ⟨n, -, rfl⟩ := map_eq_some_iff.mp hp
      rfl
    · simp only at hn
      simp only [hn, map_none, getD_none]

theorem epoch_take : (tip.take ops len immediate).after.epoch = tip.epoch := by
  rw [take]
  split_ifs <;> rfl

theorem flags_take : (tip.take ops len immediate).written = false ∧
    (tip.take ops len immediate).failed = false ∧
    (tip.take ops len immediate).discarded = false := by
  rw [take]
  split_ifs <;> exact ⟨rfl, rfl, rfl⟩

end TipState

namespace RingRound

def holdsTip : RingRound → Bool
  | marked | judging | judged .. | turned .. | cut .. | failed .. => true
  | free | loaded .. | scanning .. | syncing _ | synced | frozen => false

def isDiscarding : RingRound → Bool
  | judged .. | turned .. | cut .. => true
  | free | loaded .. | scanning .. | syncing _ | synced | frozen | marked | judging | failed .. =>
    false

def isCut : RingRound → Bool
  | cut .. | failed .. => true
  | free | loaded .. | scanning .. | syncing _ | synced | frozen | marked | judging | judged ..
  | turned .. => false

/-- The next sequence and the next offset: the first ones handed back once the slots are
judged. -/
def ends (tip : TipState) : RingRound → Nat × Nat
  | judged floor off | turned floor off | cut floor off | failed floor off => (floor, off)
  | free | loaded .. | scanning .. | syncing _ | synced | frozen | marked | judging =>
    (tip.nextSeq, tip.nextOff)

end RingRound

namespace RingState

variable {s s' : RingState} {first : Nat} {thread : Nat} {index : Nat} {i j : Nat} {p : Publisher}
  {d : Decider}

structure Laid (first : Nat) (s : RingState) : Prop where
  shape : ∀ slot ∈ s.slots, slot.Shape
  seqs : Tiles Prod.fst Prod.snd first (s.slots.filterMap seqSpan?)
    (s.round.ends s.tip).1
  records : ∀ log, ∃ e,
    Tiles Prod.fst Prod.snd (s.stampLen log) (s.slots.filterMap (RingSlot.spanIn? log)) e ∧
      s.durable log ≤ e ∧ (log = s.tip.log → e = (s.round.ends s.tip).2)
  log_le : ∀ slot ∈ s.slots, slot.after.log ≤ s.tip.log
  old : ∀ i slot, s.slots[i]? = some slot → slot.discarded = false →
    slot.place.isSome = true → slot.after.log ≠ s.tip.log → i < s.published

/-- Every live record of the log that begins below `x` ends there too and is marked written. -/
def Flagged (s : RingState) (x : Nat) : Prop :=
  ∀ slot ∈ s.slots, slot.discarded = false → slot.after.log = s.tip.log → ∀ p ∈ slot.place,
    p.offset < x → slot.written = true ∧ p.stop ≤ x

structure Flags (s : RingState) : Prop where
  failed : ∀ slot ∈ s.slots, slot.failed = true → slot.discarded = true
  discarded : s.round.isDiscarding = false →
    ∀ slot ∈ s.slots, slot.discarded = true → slot.failed = true
  rests : ∀ slot ∈ s.slots, slot.discarded = false → slot.written = true → slot.rests = true
  inFlight : ∀ i ∈ s.inFlight, i < s.slots.length
  unmarked : ∀ i ∈ s.unmarked, ∃ slot, s.slots[i]? = some slot ∧
    (slot.rests = true ∨ slot.discarded = true)
  epoch : ∀ slot ∈ s.slots, slot.after.epoch ≤ s.tip.epoch
  stale : ∀ slot ∈ s.slots, slot.discarded = true ∨ s.tip.marker = true →
    slot.after.epoch < s.tip.epoch
  marker : s.tip.marker = s.round.holdsTip

structure Covers (s : RingState) : Prop where
  decided_le : s.decided ≤ s.slots.length
  published_le : s.published ≤ s.slots.length
  written : ∀ i slot, s.slots[i]? = some slot → slot.discarded = false →
    0 < slot.ops → i < s.published ∨ slot.lastSeq ≤ s.horizon → slot.isWritten s.durable = true
  reached : ∀ i slot, s.slots[i]? = some slot → slot.discarded = false →
    0 < slot.ops → slot.lastSeq ≤ s.horizon → i ≤ s.published
  visible : ∀ i slot, s.slots[i]? = some slot → slot.discarded = false →
    0 < slot.ops → i < s.published → slot.lastSeq ≤ s.horizon
  apart : ∀ slot ∈ s.slots, slot.discarded = false → 0 < slot.ops →
    slot.lastSeq ≤ s.horizon ∨ s.horizon < slot.base
  below : s.horizon < (s.round.ends s.tip).1

structure PendingOk (s : RingState) (slot : RingSlot) : Prop where
  shape : slot.Shape
  fresh : slot.written = false ∧ slot.failed = false ∧ slot.discarded = false
  log_le : slot.after.log ≤ s.tip.log
  epoch_le : slot.after.epoch ≤ s.tip.epoch
  held : s.tip.marker = true → slot.after.epoch < s.tip.epoch
  next : slot.after.epoch = s.tip.epoch → slot.Follows s.tip

def DeciderOk (s : RingState) : Decider → Prop
  | .idle => True
  | .reading index => index ≤ s.slots.length
  | .holding index tip => index ≤ s.slots.length ∧ tip.log ≤ s.tip.log ∧ tip.epoch ≤ s.tip.epoch ∧
      (s.tip.marker = true → tip.epoch = s.tip.epoch → tip.marker = true) ∧
      (index = s.slots.length → tip.epoch = s.tip.epoch → tip.marker = false → tip = s.tip)

/-- The slot is live and its record is where it has to be. -/
def Ready (s : RingState) (slot : RingSlot) : Prop :=
  slot.discarded = false ∧ slot.isWritten s.durable = true

def PublisherOk (s : RingState) : Publisher → Prop
  | .idle | .unfrozen => True
  | .looking index | .unfailed index => index ≤ s.published
  | .cleared index => index ≤ s.published ∧ ∃ slot, s.slots[index]? = some slot ∧
      (slot.failed = true ∨ slot.ops = 0 ∨ s.Ready slot)
  | .raising index => index ≤ s.published ∧ ∃ slot, s.slots[index]? = some slot ∧
      0 < slot.ops ∧ s.Ready slot
  | .passing index => index ≤ s.published ∧ ∃ slot, s.slots[index]? = some slot ∧
      (slot.failed = true ∨ slot.ops = 0 ∨ s.Ready slot ∧ slot.lastSeq ≤ s.horizon)

/-- The live records before the `last`th slot end at or below `through`, and the others begin
past it. -/
structure Bounds (s : RingState) (last through : Nat) : Prop where
  last_le : last ≤ s.slots.length
  through_le : through ≤ s.tip.nextOff
  split : ∀ i slot, s.slots[i]? = some slot → slot.discarded = false →
    slot.after.log = s.tip.log → ∀ p ∈ slot.place,
      (i < last → p.stop ≤ through) ∧ (last ≤ i → through ≤ p.offset)

def RoundOk (s : RingState) : RingRound → Prop
  | .free | .synced | .frozen | .marked | .judging => True
  | .loaded last through => s.Bounds last through
  | .scanning next last through => s.Bounds last through ∧ next ≤ s.slots.length ∧
      ∀ i slot, s.slots[i]? = some slot → i < next → slot.discarded = false →
        slot.isIn s.tip.log = true → slot.written = true
  | .syncing through => s.Flagged through ∧ through ≤ s.tip.nextOff
  | .judged .. | .turned .. | .cut .. | .failed .. =>
      ∀ i slot, s.slots[i]? = some slot → slot.discarded = false →
        i < s.published

structure Sound (first : Nat) (s : RingState) : Prop where
  laid : s.Laid first
  durable : s.Flagged (s.durable s.tip.log)
  flags : s.Flags
  covers : s.Covers
  pending : ∀ slot ∈ s.pending, s.PendingOk slot
  deciders : ∀ d ∈ s.deciders, s.DeciderOk d
  publishers : ∀ p ∈ s.publishers, s.PublisherOk p
  turned : s.RoundOk (.syncing s.turned)
  forgot : s.round.isCut = true → s.turned = 0
  round : s.RoundOk s.round

theorem sound_new (horizon stampLen deciders publishers : Nat) (synced : Bool) :
    (new horizon stampLen synced deciders publishers).Sound (horizon + 1) where
  laid := by
    refine ⟨by simp [new], rfl, fun log => ⟨stampLen, rfl, ?_, fun _ => rfl⟩, by simp [new],
      by simp [new]⟩
    simp only [new]
    split_ifs <;> omega
  durable := by simp [Flagged, new]
  flags := ⟨by simp [new], by simp [new], by simp [new], by simp [new], by simp [new],
    by simp [new], by simp [new], rfl⟩
  covers := ⟨le_rfl, le_rfl, by simp [new], by simp [new], by simp [new], by simp [new],
    Nat.lt_succ_self horizon⟩
  pending := by simp [new]
  deciders d hd := by
    rw [eq_of_mem_replicate hd]
    trivial
  publishers p hp := by
    rw [eq_of_mem_replicate hp]
    trivial
  turned := ⟨by simp [Flagged, new], Nat.zero_le _⟩
  forgot _ := rfl
  round := trivial

/-! ### Order -/

theorem pairwise_getElem? {α : Type*} {R : α → α → Prop} {xs : List α} (h : xs.Pairwise R) {a b : α}
    (hij : i < j) (ha : xs[i]? = some a) (hb : xs[j]? = some b) : R a b := by
  obtain ⟨hi, rfl⟩ := List.getElem?_eq_some_iff.mp ha
  obtain ⟨hj, rfl⟩ := List.getElem?_eq_some_iff.mp hb
  exact pairwise_iff_getElem.mp h i j hi hj hij

section Spans

variable {f : RingSlot → Option (Nat × Nat)} {o e : Nat} {p q : Nat × Nat}
  (h : Tiles Prod.fst Prod.snd o (slots.filterMap f) e)
  (hpos : ∀ slot ∈ slots, ∀ span ∈ f slot, span.1 < span.2)

include hpos in
theorem filterMap_pos : ∀ span ∈ slots.filterMap f, span.1 < span.2 := fun span hspan => by
  obtain ⟨slot, hs, hf⟩ := mem_filterMap.mp hspan
  exact hpos slot hs span hf

include h hpos

theorem tiles_filterMap_le (hij : i < j) (ha : slots[i]? = some a) (hb : slots[j]? = some b)
    (hp : f a = some p) (hq : f b = some q) : p.2 ≤ q.1 := by
  have hpair := pairwise_filterMap.mp (h.pairwise (filterMap_pos hpos))
  exact pairwise_getElem? hpair hij ha hb p hp q hq

theorem tiles_filterMap_bounds {a : RingSlot} (ha : a ∈ slots) (hp : f a = some p) :
    o ≤ p.1 ∧ p.2 ≤ e :=
  h.bounds (filterMap_pos hpos) (mem_filterMap.mpr ⟨a, ha, hp⟩)

end Spans

theorem seqSpan?_pos (slot : RingSlot) : ∀ span ∈ slot.seqSpan?, span.1 < span.2 := by
  intro span hs
  rw [seqSpan?, mem_def, ite_none_right_eq_some, some.injEq] at hs
  obtain ⟨⟨-, hops⟩, rfl⟩ := hs
  exact Nat.lt_add_of_pos_right hops

theorem spanIn?_pos (h : slot.Shape) (log : Nat) : ∀ span ∈ slot.spanIn? log, span.1 < span.2 := by
  intro span hs
  obtain ⟨-, -, place, hpl, rfl⟩ := spanIn?_eq_some hs
  exact Nat.lt_add_of_pos_right (h.place place hpl).2

theorem Laid.stop_le_base (h : s.Laid first) (hij : i < j) (ha : s.slots[i]? = some a)
    (hb : s.slots[j]? = some b) (hlive : a.discarded = false) (hlive' : b.discarded = false)
    (hops : 0 < a.ops) (hops' : 0 < b.ops) : a.stop ≤ b.base :=
  tiles_filterMap_le h.seqs (fun slot _ => seqSpan?_pos slot) hij ha hb
    (seqSpan?_of_live hlive hops) (seqSpan?_of_live hlive' hops')

theorem Laid.stop_le_nextSeq {a : RingSlot} (h : s.Laid first) (ha : a ∈ s.slots)
    (hl : a.discarded = false) (hops : 0 < a.ops) : a.stop ≤ (s.round.ends s.tip).1 :=
  (tiles_filterMap_bounds h.seqs (fun slot _ => seqSpan?_pos slot) ha
    (seqSpan?_of_live hl hops)).2

theorem Laid.stop_le_offset {p q : Place} (h : s.Laid first) (hij : i < j)
    (ha : s.slots[i]? = some a) (hb : s.slots[j]? = some b) (hlive : a.discarded = false)
    (hlive' : b.discarded = false) (hlog : a.after.log = b.after.log) (hp : a.place = some p)
    (hq : b.place = some q) : p.stop ≤ q.offset := by
  obtain ⟨e, ht, -⟩ := h.records b.after.log
  exact tiles_filterMap_le ht (fun slot hs => spanIn?_pos (h.shape slot hs) _) hij ha hb
    (hlog ▸ spanIn?_of_live hlive hp) (spanIn?_of_live hlive' hq)

theorem Laid.stop_le_nextOff {a : RingSlot} {p : Place} (h : s.Laid first) (ha : a ∈ s.slots)
    (hl : a.discarded = false) (hlog : a.after.log = s.tip.log) (hp : a.place = some p) :
    p.stop ≤ (s.round.ends s.tip).2 := by
  obtain ⟨e, ht, -, he⟩ := h.records s.tip.log
  rw [← he rfl]
  exact (tiles_filterMap_bounds ht (fun slot hs => spanIn?_pos (h.shape slot hs) _) ha
    (hlog ▸ spanIn?_of_live hl hp)).2

theorem lastSeq_add_one (h : 0 < slot.ops) : slot.lastSeq + 1 = slot.stop := by
  rw [lastSeq, RingSlot.stop]
  omega

/-! ### Flags -/

/-- A slot with more flags than it had: failed only where it was discarded, and gone from the log
only then. -/
structure SlotMarks (a b : RingSlot) : Prop where
  base : b.base = a.base
  ops : b.ops = a.ops
  place : b.place = a.place
  immediate : b.immediate = a.immediate
  after : b.after = a.after
  discarded : b.discarded = a.discarded
  failed : b.failed = true → a.failed = true ∨ a.discarded = true
  fails : a.failed = true → b.failed = true
  written : a.written = true → b.written = true
  rests : a.rests = true → b.rests = true ∨ a.discarded = true

theorem SlotMarks.refl (a : RingSlot) : SlotMarks a a :=
  ⟨rfl, rfl, rfl, rfl, rfl, rfl, .inl, id, id, .inl⟩

section Marks

variable (h : SlotMarks a b)

include h

theorem SlotMarks.isWritten {durable : Nat → Nat}
    (ha : a.isWritten durable = true) : b.isWritten durable = true := by
  rw [RingSlot.isWritten, h.place, h.immediate, h.after]
  rw [RingSlot.isWritten] at ha
  cases hpl : a.place with
  | none => rfl
  | some place =>
    rw [hpl] at ha
    simp only [Bool.and_eq_true] at ha ⊢
    exact ⟨h.written ha.1, ha.2⟩

theorem SlotMarks.seqSpan?_eq : a.seqSpan? = b.seqSpan? := by
  rw [seqSpan?, seqSpan?, RingSlot.stop, RingSlot.stop, h.discarded, h.ops, h.base]

theorem SlotMarks.spanIn?_eq (log : Nat) : a.spanIn? log = b.spanIn? log := by
  rw [RingSlot.spanIn?, RingSlot.spanIn?, h.discarded, h.after, h.place]

theorem SlotMarks.lastSeq_eq : b.lastSeq = a.lastSeq := by
  rw [lastSeq, lastSeq, h.base, h.ops]

theorem SlotMarks.shape (ha : a.Shape) : b.Shape :=
  ⟨fun p hp => h.ops ▸ ha.place p (h.place ▸ hp), h.after ▸ ha.marker⟩

omit h

theorem Ready.marks (ha : s.Ready a) (h : SlotMarks a b) : Ready { s with slots } b :=
  ⟨h.discarded.trans ha.1, h.isWritten ha.2⟩

theorem Laid.marks (h : s.Laid first) (hm : Pointwise SlotMarks s.slots slots) :
    Laid first { s with slots } where
  shape := hm.forall_mem h.shape SlotMarks.shape
  seqs := hm.filterMap_eq (fun _ _ hab => hab.seqSpan?_eq) ▸ h.seqs
  records log := by
    obtain ⟨e, ht, hle, he⟩ := h.records log
    exact ⟨e, hm.filterMap_eq (fun _ _ hab => hab.spanIn?_eq log) ▸ ht, hle, he⟩
  log_le := hm.forall_mem h.log_le fun hab ha => hab.after ▸ ha
  old i b hb hl hpl hlog := by
    obtain ⟨a, ha, hab⟩ := hm.get_old hb
    exact h.old i a ha (hab.discarded ▸ hl) (hab.place ▸ hpl) (hab.after ▸ hlog)

theorem Flagged.marks {x : Nat} (h : s.Flagged x) (hm : Pointwise SlotMarks s.slots slots) :
    Flagged { s with slots } x := by
  intro b hb hl hlog p hp hlt
  obtain ⟨a, ha, hab⟩ := hm.mem_old hb
  exact (h a ha (hab.discarded ▸ hl) (hab.after ▸ hlog) p (hab.place ▸ hp) hlt).imp_left hab.written

theorem Covers.marks (h : s.Covers) (hm : Pointwise SlotMarks s.slots slots) :
    Covers { s with slots } where
  decided_le := hm.1 ▸ h.decided_le
  published_le := hm.1 ▸ h.published_le
  written i b hb hl hops hc := by
    obtain ⟨a, ha, hab⟩ := hm.get_old hb
    exact hab.isWritten (h.written i a ha (hab.discarded ▸ hl) (hab.ops ▸ hops)
      (hab.lastSeq_eq ▸ hc))
  reached i b hb hl hops hc := by
    obtain ⟨a, ha, hab⟩ := hm.get_old hb
    exact h.reached i a ha (hab.discarded ▸ hl) (hab.ops ▸ hops) (hab.lastSeq_eq ▸ hc)
  visible i b hb hl hops hlt := by
    obtain ⟨a, ha, hab⟩ := hm.get_old hb
    rw [hab.lastSeq_eq]
    exact h.visible i a ha (hab.discarded ▸ hl) (hab.ops ▸ hops) hlt
  apart b hb hl hops := by
    obtain ⟨a, ha, hab⟩ := hm.mem_old hb
    rw [hab.lastSeq_eq, hab.base]
    exact h.apart a ha (hab.discarded ▸ hl) (hab.ops ▸ hops)
  below := h.below

theorem DeciderOk.marks (h : s.DeciderOk d) (hlen : s.slots.length = slots.length) :
    DeciderOk { s with slots } d := by
  cases d with
  | idle => trivial
  | reading index => exact Nat.le_trans h hlen.le
  | holding index tip =>
    obtain ⟨hle, hlog, hep, hm, hn⟩ := h
    exact ⟨hlen ▸ hle, hlog, hep, hm, fun hi => hn (hi.trans hlen.symm)⟩

/-- What a publisher knows stays so while flags are set, slots that are ready stay so, and the
frontier and the horizon do not fall. -/
theorem PublisherOk.mono (h : s.PublisherOk p)
    (hget : ∀ {i : Nat} {a : RingSlot}, s.slots[i]? = some a →
      ∃ b, s'.slots[i]? = some b ∧ SlotMarks a b ∧ (s.Ready a → s'.Ready b))
    (hpub : s.published ≤ s'.published) (hh : s.horizon ≤ s'.horizon) :
    s'.PublisherOk p := by
  cases p with
  | idle | unfrozen => trivial
  | looking index | unfailed index => exact Nat.le_trans h hpub
  | cleared index =>
    obtain ⟨hle, a, ha, hor⟩ := h
    obtain ⟨b, hb, hab, hrdy⟩ := hget ha
    refine ⟨hle.trans hpub, b, hb, ?_⟩
    rw [hab.ops]
    exact hor.imp hab.fails (Or.imp_right hrdy)
  | raising index =>
    obtain ⟨hle, a, ha, hops, hr⟩ := h
    obtain ⟨b, hb, hab, hrdy⟩ := hget ha
    exact ⟨hle.trans hpub, b, hb, hab.ops ▸ hops, hrdy hr⟩
  | passing index =>
    obtain ⟨hle, a, ha, hor⟩ := h
    obtain ⟨b, hb, hab, hrdy⟩ := hget ha
    refine ⟨hle.trans hpub, b, hb, ?_⟩
    rw [hab.ops, hab.lastSeq_eq]
    exact hor.imp hab.fails (Or.imp_right (And.imp hrdy fun hl => hl.trans hh))

theorem PublisherOk.marks (h : s.PublisherOk p)
    (hm : Pointwise SlotMarks s.slots slots) : PublisherOk { s with slots } p := by
  refine h.mono (fun ha => ?_) le_rfl le_rfl
  obtain ⟨b, hb, hab⟩ := hm.get ha
  exact ⟨b, hb, hab, fun hr => hr.marks hab⟩

theorem PublisherOk.raise {horizon published : Nat} (h : s.PublisherOk p)
    (hh : s.horizon ≤ horizon) (hpub : s.published ≤ published) :
    PublisherOk { s with horizon, published } p :=
  h.mono (fun {_ a} ha => ⟨a, ha, .refl a, id⟩) hpub hh

theorem Bounds.marks {last through : Nat} (h : s.Bounds last through)
    (hm : Pointwise SlotMarks s.slots s'.slots) (htip : s'.tip = s.tip) :
    s'.Bounds last through := by
  refine ⟨hm.1 ▸ h.last_le, htip ▸ h.through_le, fun i b hb hl hlog p hp => ?_⟩
  obtain ⟨a, ha, hab⟩ := hm.get_old hb
  exact h.split i a ha (hab.discarded ▸ hl) (hab.after ▸ htip ▸ hlog) p (hab.place ▸ hp)

theorem RoundOk.marks {r : RingRound} (h : s.RoundOk r) (hm : Pointwise SlotMarks s.slots s'.slots)
    (htip : s'.tip = s.tip) (hpub : s.published ≤ s'.published) : s'.RoundOk r := by
  have hall : (∀ i slot, s.slots[i]? = some slot → slot.discarded = false → i < s.published) → ∀ i
      slot, s'.slots[i]? = some slot → slot.discarded = false → i < s'.published := by
    intro hlt i b hb hl
    obtain ⟨a, ha, hab⟩ := hm.get_old hb
    exact lt_of_lt_of_le (hlt i a ha (hab.discarded ▸ hl)) hpub
  cases r with
  | loaded last through => exact Bounds.marks h hm htip
  | scanning next last through =>
    refine ⟨h.1.marks hm htip, hm.1 ▸ h.2.1, fun i b hb hlt hl hin => ?_⟩
    obtain ⟨a, ha, hab⟩ := hm.get_old hb
    rw [RingSlot.isIn, hab.place, hab.after, htip] at hin
    exact hab.written (h.2.2 i a ha hlt (hab.discarded ▸ hl) hin)
  | syncing through =>
    refine ⟨fun b hb hl hlog => ?_, htip ▸ h.2⟩
    rw [htip] at hlog
    exact h.1.marks hm b hb hl hlog
  | judged | turned | cut | failed => exact hall h
  | _ => trivial

/-- A step that only changes flags of slots, and where the writes and the round stand. -/
theorem Sound.marks {round : RingRound} {unmarked : List Nat} {turned : Nat}
    (h : s.Sound first) (poisoned : Bool) (hm : Pointwise SlotMarks s.slots slots)
    (hends : round.ends s.tip = s.round.ends s.tip) (hh : round.holdsTip = s.round.holdsTip)
    (hdisc : round.isDiscarding = false →
      ∀ slot ∈ slots, slot.discarded = true → slot.failed = true)
    (hrests : ∀ slot ∈ slots, slot.discarded = false → slot.written = true → slot.rests = true)
    (hinFlight : ∀ i ∈ inFlight, i < slots.length)
    (hunmk : ∀ i ∈ unmarked, ∃ slot, slots[i]? = some slot ∧
      (slot.rests = true ∨ slot.discarded = true))
    (ht : RoundOk s (.syncing turned)) (hforgot : round.isCut = true → turned = 0)
    (hr : RoundOk s round) :
    Sound first { s with slots, round, unmarked, inFlight, turned, poisoned } where
  laid := by
    have hlaid := h.laid.marks hm
    exact { hlaid with
      seqs := hends ▸ hlaid.seqs
      records := fun log => by
        obtain ⟨e, htil, hle, he⟩ := hlaid.records log
        exact ⟨e, htil, hle, fun hlog => (he hlog).trans (congrArg Prod.snd hends.symm)⟩ }
  durable := h.durable.marks hm
  flags := by
    refine ⟨hm.forall_mem h.flags.failed fun hab ha hf => ?_, hdisc, hrests, hinFlight,
      hunmk, hm.forall_mem h.flags.epoch fun hab ha => hab.after ▸ ha,
      hm.forall_mem h.flags.stale fun hab ha hd => hab.after ▸ ha (hab.discarded ▸ hd),
      h.flags.marker.trans hh.symm⟩
    exact hab.discarded.trans ((hab.failed hf).elim ha id)
  covers := by
    have hc := h.covers.marks hm
    exact { hc with below := (congrArg Prod.fst hends).symm ▸ hc.below }
  pending := fun slot hs => { h.pending slot hs with }
  deciders := fun d hd => (h.deciders d hd).marks hm.1
  publishers := fun p hp => (h.publishers p hp).marks hm
  turned := ht.marks hm rfl le_rfl
  forgot := hforgot
  round := hr.marks hm rfl le_rfl

end Marks

/-! ### Steps of threads -/

variable (h : s.Sound first)

include h

/-- A step that leaves the slots, the tip and what is published as they are. -/
theorem Sound.threads {decided gateEpoch active fresh : Nat} {pending : Option RingSlot}
    {deciders : List Decider} {publishers : List Publisher} {frozen : List Nat}
    {poisoned : Bool} {contents : Nat → List Nat}
    (hdec : decided ≤ s.slots.length) (hp : ∀ slot ∈ pending, s.PendingOk slot)
    (hdeciders : ∀ d ∈ deciders, s.DeciderOk d)
    (hpublishers : ∀ p ∈ publishers, s.PublisherOk p) :
    Sound first { s with
      decided, pending, deciders, publishers, gateEpoch, poisoned, contents, active, frozen,
      fresh } where
  laid := { h.laid with }
  durable := h.durable
  flags := { h.flags with }
  covers := { h.covers with decided_le := hdec }
  pending := fun slot hs => { hp slot hs with }
  deciders := hdeciders
  publishers := hpublishers
  turned := h.turned.marks (.refl SlotMarks.refl _) rfl le_rfl
  forgot := h.forgot
  round := h.round.marks (.refl SlotMarks.refl _) rfl le_rfl

theorem Sound.setDecider (hd : s.DeciderOk d) : (s.setDecider thread d).Sound first :=
  h.threads h.covers.decided_le h.pending
    (fun e he => (mem_or_eq_of_mem_set he).elim (h.deciders e) fun heq => heq ▸ hd) h.publishers

theorem Sound.setPublisher (hp : s.PublisherOk p) : (s.setPublisher thread p).Sound first :=
  h.threads h.covers.decided_le h.pending h.deciders
    (fun e he => (mem_or_eq_of_mem_set he).elim (h.publishers e) fun heq => heq ▸ hp)

theorem Sound.readDecided (hs : s.readDecided thread = some s') :
    s'.Sound first := by
  obtain ⟨-, rfl⟩ := guarded_eq_some.mp hs
  exact h.setDecider h.covers.decided_le

theorem Sound.loadTip (hs : s.loadTip thread = some s') :
    s'.Sound first := by
  rw [RingState.loadTip] at hs
  split at hs
  case h_1 index ht =>
    cases hs
    have hi : index ≤ s.slots.length := h.deciders _ (mem_of_getElem? ht)
    exact h.setDecider ⟨hi, le_rfl, le_rfl, fun hm _ => hm, fun _ _ _ => rfl⟩
  case h_2 => cases hs

omit h

def installs (s : RingState) : RingAction → Option TipState
  | .install thread .. =>
    match s.deciders[thread]? with
    | some (.holding _ tip) => some tip
    | _ => none
  | _ => none

include h

/-- A decision from the tip is installed. -/
theorem Sound.install {thread ops : Nat} {len : Option Nat} {immediate : Bool}
    (hmkr : ∀ tip ∈ s.installs (.install thread ops len immediate), tip.marker = false)
    (hs : s.install thread ops len immediate = some s') : s'.Sound first := by
  rw [RingState.install] at hs
  split at hs
  case h_2 => cases hs
  case h_1 index tip ht =>
    have htip : tip.marker = false := hmkr tip (by rw [installs, ht]; rfl)
    obtain ⟨-, hlog, hep, hh, hn⟩ : s.DeciderOk (.holding index tip) :=
      h.deciders _ (mem_of_getElem? ht)
    by_cases hg : s.round.freezesDecided = false ∧ s.decided = index ∧
        s.slots.length = index ∧ s.pending.isNone ∧ len.all fun len => decide (0 < len)
    · rw [if_pos hg, some.injEq] at hs
      obtain ⟨-, -, hi, -, hlen⟩ := hg
      subst hs
      refine h.threads h.covers.decided_le ?_
        (fun e he => (mem_or_eq_of_mem_set he).elim (h.deciders e) fun heq => heq ▸ trivial)
        h.publishers
      intro slot hslot
      cases hslot
      have ha := tip.epoch_take ops len immediate
      refine ⟨tip.shape_take ops len immediate hlen, tip.flags_take ops len immediate,
        (tip.follows_take ops len immediate).log ▸ hlog, ha ▸ hep, fun hm => ha ▸ lt_of_le_of_ne hep fun heq => ?_, fun heq => ?_⟩
      · rw [hh hm heq] at htip
        cases htip
      · rw [← hn hi.symm (ha ▸ heq) htip]
        exact tip.follows_take ops len immediate
    · rw [if_neg hg, some.injEq] at hs
      subst hs
      exact h.setDecider trivial

theorem Sound.apply (hs : s.apply = some s') : s'.Sound first := by
  obtain ⟨slot, hslot, rfl⟩ := map_eq_some_iff.mp hs
  refine h.threads h.covers.decided_le (fun next hn => ?_) h.deciders h.publishers
  cases hn
  have hok := h.pending slot hslot
  exact { hok with
    shape := ⟨hok.shape.place, hok.shape.marker⟩
    next := fun heq => { hok.next heq with } }

theorem Sound.applyAgain (hs : s.applyAgain index = some s') :
    s'.Sound first := by
  obtain ⟨slot, -, rfl⟩ := map_eq_some_iff.mp hs
  exact h.threads h.covers.decided_le h.pending h.deciders h.publishers

theorem Sound.passDecided (hs : s.passDecided = some s') :
    s'.Sound first := by
  obtain ⟨⟨hlt, -⟩, rfl⟩ := guarded_eq_some.mp hs
  exact h.threads hlt h.pending h.deciders h.publishers

omit h in
theorem Flags.unmarked_marks (h : s.Flags) (hm : Pointwise SlotMarks s.slots slots) {i : Nat}
    (hi : i ∈ s.unmarked) :
    ∃ slot, slots[i]? = some slot ∧ (slot.rests = true ∨ slot.discarded = true) := by
  obtain ⟨a, ha, hor⟩ := h.unmarked i hi
  obtain ⟨b, hb, hab⟩ := hm.get ha
  refine ⟨b, hb, ?_⟩
  rw [hab.discarded]
  exact hor.elim hab.rests .inr

omit h in
theorem Flags.discarded_marks (h : s.Flags) (hm : Pointwise SlotMarks s.slots slots)
    (hr : s.round.isDiscarding = false) :
    ∀ slot ∈ slots, slot.discarded = true → slot.failed = true :=
  hm.forall_mem (h.discarded hr) fun hab ha hd => hab.fails (ha (hab.discarded ▸ hd))

theorem Sound.setInFlight (poisoned : Bool) (hinFlight : ∀ i ∈ inFlight, i < s.slots.length) :
    Sound first { s with inFlight, poisoned } :=
  h.marks poisoned (.refl SlotMarks.refl _) rfl rfl h.flags.discarded h.flags.rests hinFlight
    h.flags.unmarked h.turned h.forgot h.round

theorem Sound.startWrite (hs : s.startWrite index = some s') :
    s'.Sound first := by
  obtain ⟨slot, hslot, hs⟩ := bind_eq_some_iff.mp hs
  obtain ⟨-, rfl⟩ := guarded_eq_some.mp hs
  refine h.setInFlight s.poisoned fun i hi => ?_
  rcases mem_cons.mp hi with rfl | hi
  · exact lt_of_getElem? hslot
  · exact h.flags.inFlight i hi

theorem Sound.endWrite {fails : Bool} (hs : s.endWrite index fails = some s') : s'.Sound first := by
  obtain ⟨hidx, rfl⟩ := guarded_eq_some.mp hs
  have hinFlight : ∀ i ∈ s.inFlight.erase index, i < s.slots.length := fun i hi =>
    h.flags.inFlight i (mem_of_mem_erase hi)
  cases fails with
  | true => exact h.setInFlight true hinFlight
  | false =>
    have hm : Pointwise SlotMarks s.slots
        (s.slots.modify index fun slot => { slot with rests := true }) :=
      .modify SlotMarks.refl _ _ fun _ =>
        ⟨rfl, rfl, rfl, rfl, rfl, rfl, .inl, id, id, fun _ => .inl rfl⟩
    refine h.marks s.poisoned hm rfl rfl (h.flags.discarded_marks hm) (fun b hb hl hw => ?_)
      (fun i hi => hm.1 ▸ hinFlight i hi) (fun i hi => ?_) h.turned h.forgot h.round
    · obtain ⟨i, a, ha, ⟨-, rfl⟩ | ⟨-, rfl⟩⟩ := mem_modify hb
      · rfl
      · exact h.flags.rests b (mem_of_getElem? ha) hl hw
    · rcases mem_cons.mp hi with rfl | hi
      · have ha := getElem?_eq_getElem (h.flags.inFlight i hidx)
        exact ⟨_, by rw [getElem?_modify_eq, ha, Option.map_eq_map, map_some], .inl rfl⟩
      · exact h.flags.unmarked_marks hm hi

theorem Sound.mark (hs : s.mark index = some s') : s'.Sound first := by
  obtain ⟨hidx, rfl⟩ := guarded_eq_some.mp hs
  have hm : Pointwise SlotMarks s.slots
      (s.slots.modify index fun slot => { slot with written := true }) :=
    .modify SlotMarks.refl _ _ fun _ =>
      ⟨rfl, rfl, rfl, rfl, rfl, rfl, .inl, id, fun _ => rfl, .inl⟩
  refine h.marks s.poisoned hm rfl rfl (h.flags.discarded_marks hm)
    (fun b hb hl hw => ?_) (fun i hi => hm.1 ▸ h.flags.inFlight i hi)
    (fun i hi => h.flags.unmarked_marks hm (mem_of_mem_erase hi)) h.turned h.forgot h.round
  obtain ⟨i, a, ha, ⟨rfl, rfl⟩ | ⟨-, rfl⟩⟩ := mem_modify hb
  · obtain ⟨c, hc, hor⟩ := h.flags.unmarked i hidx
    obtain rfl := mem_unique ha hc
    exact hor.resolve_right fun hd => absurd (hl.symm.trans hd) Bool.false_ne_true
  · exact h.flags.rests b (mem_of_getElem? ha) hl hw

/-! ### Publishing -/

omit h in
theorem commits_eq_true : slot.commits = true ↔ 0 < slot.ops :=
  decide_eq_true_iff

/-- The horizon is raised over a slot that is ready. -/
theorem Sound.setHorizon {i : Nat} (hs : s.slots[i]? = some slot)
    (hle : i ≤ s.published) (hops : 0 < slot.ops) (hr : s.Ready slot) :
    Sound first { s with horizon := max s.horizon slot.lastSeq } := by
  obtain ⟨hl, hwr⟩ := hr
  have hmem := mem_of_getElem? hs
  have hlast := lastSeq_add_one hops
  -- a slot at or below the new horizon was below the old one, or lies at or before this one
  have hcovered : ∀ j b, s.slots[j]? = some b → b.discarded = false →
      0 < b.ops → b.lastSeq ≤ max s.horizon slot.lastSeq → b.lastSeq ≤ s.horizon ∨ j ≤ i := by
    intro j b hb hb' hbops hc
    by_contra hnot
    rw [not_or, not_le, not_le] at hnot
    have ho := h.laid.stop_le_base hnot.2 hs hb hl hb' hops hbops
    have hlastb := lastSeq_add_one hbops
    rw [RingSlot.stop] at hlastb
    omega
  refine ⟨{ h.laid with }, h.durable, { h.flags with }, ⟨h.covers.decided_le,
    h.covers.published_le, fun j b hb hb' hbops hc => ?_, fun j b hb hb' hbops hc => ?_,
    fun j b hb hb' hbops hlt => ?_, fun b hb hb' hbops => ?_, ?_⟩,
    fun next hn => { h.pending next hn with }, h.deciders,
    fun p hp => (h.publishers p hp).raise (le_max_left _ _) le_rfl,
    h.turned.marks (.refl SlotMarks.refl _) rfl le_rfl, h.forgot,
    h.round.marks (.refl SlotMarks.refl _) rfl le_rfl⟩
  · rcases hc with hlt | hc
    · exact h.covers.written j b hb hb' hbops (.inl hlt)
    · rcases hcovered j b hb hb' hbops hc with hold | hji
      · exact h.covers.written j b hb hb' hbops (.inr hold)
      · rcases Nat.lt_or_eq_of_le hji with hlt | rfl
        · exact h.covers.written j b hb hb' hbops (.inl (hlt.trans_le hle))
        · obtain rfl := mem_unique hs hb
          exact hwr
  · rcases hcovered j b hb hb' hbops hc with hold | hji
    · exact h.covers.reached j b hb hb' hbops hold
    · exact hji.trans hle
  · exact (h.covers.visible j b hb hb' hbops hlt).trans (le_max_left _ _)
  · obtain ⟨j, hj⟩ := mem_iff_getElem?.mp hb
    have hlastb := lastSeq_add_one hbops
    rcases h.covers.apart b hb hb' hbops with hold | hold
    · exact .inl (hold.trans (le_max_left _ _))
    · rcases Nat.lt_trichotomy i j with hij | rfl | hij
      · have ho := h.laid.stop_le_base hij hs hj hl hb' hops hbops
        exact .inr (max_lt hold (by omega))
      · obtain rfl := mem_unique hs hj
        exact .inl (le_max_right _ _)
      · have ho := h.laid.stop_le_base hij hj hs hb' hl hbops hops
        refine .inl (le_trans ?_ (le_max_right _ _))
        have hs1 : slot.lastSeq = slot.base + slot.ops - 1 := rfl
        omega
  · have hend := h.laid.stop_le_nextSeq hmem hl hops
    have hlt : slot.lastSeq < (s.round.ends s.tip).1 := by omega
    exact max_lt h.covers.below hlt

/-- The published frontier passes a slot. -/
theorem Sound.setPublished (hlt : s.published < s.slots.length)
    (hs : ∀ slot, s.slots[s.published]? = some slot → slot.discarded = false → 0 < slot.ops →
      slot.isWritten s.durable = true ∧ slot.lastSeq ≤ s.horizon) :
    Sound first { s with published := s.published + 1 } := by
  refine ⟨{ h.laid with old := ?_ }, h.durable, { h.flags with }, ⟨h.covers.decided_le, hlt,
    fun j b hb hb' hbops hc => ?_, fun j b hb hb' hbops hc => ?_,
    fun j b hb hb' hbops hjlt => ?_, h.covers.apart, h.covers.below⟩,
    fun next hn => { h.pending next hn with }, h.deciders,
    fun p hp => (h.publishers p hp).raise le_rfl (Nat.le_succ _),
    h.turned.marks (.refl SlotMarks.refl _) rfl (Nat.le_succ _), h.forgot, ?_⟩
  · intro j b hb hb' hpl hlog
    exact (h.laid.old j b hb hb' hpl hlog).trans (Nat.lt_succ_self _)
  · rcases hc with hjlt | hc
    · rcases Nat.lt_succ_iff_lt_or_eq.mp hjlt with hjlt | rfl
      · exact h.covers.written j b hb hb' hbops (.inl hjlt)
      · exact (hs b hb hb' hbops).1
    · exact h.covers.written j b hb hb' hbops (.inr hc)
  · exact (h.covers.reached j b hb hb' hbops hc).trans (Nat.le_succ _)
  · rcases Nat.lt_succ_iff_lt_or_eq.mp hjlt with hjlt | rfl
    · exact h.covers.visible j b hb hb' hbops hjlt
    · exact (hs b hb hb' hbops).2
  · exact h.round.marks (.refl SlotMarks.refl _) rfl (Nat.le_succ _)

theorem Sound.look (hs : s.look thread = some s') : s'.Sound first := by
  obtain ⟨-, rfl⟩ := guarded_eq_some.mp hs
  exact h.setPublisher trivial

theorem Sound.readPublished (hs : s.readPublished thread = some s') :
    s'.Sound first := by
  obtain ⟨-, rfl⟩ := guarded_eq_some.mp hs
  refine h.setPublisher ?_
  split_ifs
  · exact le_rfl
  · trivial

theorem Sound.readFailed (hs : s.readFailed thread = some s') :
    s'.Sound first := by
  rw [RingState.readFailed] at hs
  split at hs
  case h_1 index ht =>
    obtain ⟨slot, hslot, rfl⟩ := map_eq_some_iff.mp hs
    have hle : index ≤ s.published := h.publishers _ (mem_of_getElem? ht)
    refine h.setPublisher ?_
    split_ifs with hor
    · refine ⟨hle, slot, hslot, ?_⟩
      rw [Bool.or_eq_true, Bool.not_eq_true', commits, decide_eq_false_iff_not] at hor
      exact hor.elim (fun hops => .inr (.inl (Nat.eq_zero_of_not_pos hops))) .inl
    · exact hle
  case h_2 => cases hs

omit h

def finds (s : RingState) : RingAction → Option RingSlot
  | .readWritten thread =>
    match s.publishers[thread]? with
    | some (.unfailed index) => s.slots[index]?.filter fun slot => slot.isWritten s.durable
    | _ => none
  | _ => none

include h

theorem Sound.readWritten
    (hfinds : ∀ slot ∈ s.finds (.readWritten thread), slot.discarded = true → slot.failed = true)
    (hs : s.readWritten thread = some s') : s'.Sound first := by
  rw [RingState.readWritten] at hs
  split at hs
  case h_1 index ht =>
    obtain ⟨slot, hslot, rfl⟩ := map_eq_some_iff.mp hs
    have hle : index ≤ s.published := h.publishers _ (mem_of_getElem? ht)
    refine h.setPublisher ?_
    split_ifs with hwr
    · refine ⟨hle, slot, hslot, ?_⟩
      by_cases hd : slot.discarded = true
      · refine .inl (hfinds slot ?_ hd)
        simp only [finds, ht, mem_def, hslot]
        exact filter_some_pos hwr
      · exact .inr (.inr ⟨Bool.eq_false_iff.mpr hd, hwr⟩)
    · trivial
  case h_2 => cases hs

theorem Sound.readFailedAgain (hs : s.readFailedAgain thread = some s') :
    s'.Sound first := by
  rw [RingState.readFailedAgain] at hs
  split at hs
  case h_1 index ht =>
    obtain ⟨slot, hslot, rfl⟩ := map_eq_some_iff.mp hs
    obtain ⟨hle, a, ha, hcleared⟩ : s.PublisherOk (.cleared index) :=
      h.publishers _ (mem_of_getElem? ht)
    obtain rfl := mem_unique hslot ha
    refine h.setPublisher ?_
    split_ifs with hr
    · rw [Bool.and_eq_true, commits_eq_true, Bool.not_eq_true'] at hr
      refine ⟨hle, slot, hslot, ?_⟩
      rcases hcleared with hf | hops | hrdy
      · rw [hf] at hr
        cases hr.2
      · omega
      · exact ⟨hr.1, hrdy⟩
    · refine ⟨hle, slot, hslot, ?_⟩
      rw [Bool.and_eq_true, commits_eq_true, Bool.not_eq_true', not_and_or, not_lt,
        Bool.not_eq_false] at hr
      exact hr.elim (fun hops => .inr (.inl (Nat.le_zero.mp hops))) .inl
  case h_2 => cases hs

theorem Sound.raise (hs : s.raise thread = some s') : s'.Sound first := by
  rw [RingState.raise] at hs
  split at hs
  case h_1 index ht =>
    obtain ⟨slot, hslot, rfl⟩ := map_eq_some_iff.mp hs
    obtain ⟨hle, a, ha, hops, hr⟩ : s.PublisherOk (.raising index) :=
      h.publishers _ (mem_of_getElem? ht)
    obtain rfl := mem_unique hslot ha
    exact (h.setHorizon hslot hle hops hr).setPublisher
      ⟨hle, slot, hslot, .inr (.inr ⟨hr, le_max_right _ _⟩)⟩
  case h_2 => cases hs

theorem Sound.passPublished (hs : s.passPublished thread = some s') :
    s'.Sound first := by
  rw [RingState.passPublished] at hs
  split at hs
  case h_1 index ht =>
    cases hs
    obtain ⟨-, a, ha, hpassing⟩ : s.PublisherOk (.passing index) :=
      h.publishers _ (mem_of_getElem? ht)
    split_ifs with hp
    · obtain ⟨rfl, -⟩ := hp
      refine (h.setPublished (lt_of_getElem? ha) fun slot hslot hl hops => ?_).setPublisher trivial
      obtain rfl := mem_unique ha hslot
      rcases hpassing with hf | hz | ⟨hr, hle⟩
      · rw [h.flags.failed a (mem_of_getElem? ha) hf] at hl
        cases hl
      · omega
      · exact ⟨hr.2, hle⟩
    · exact h.setPublisher trivial
  case h_2 => cases hs

end RingState

end RegolithStore
