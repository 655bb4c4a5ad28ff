import RegolithStore.Commit.SyncRound
import RegolithStore.Lib.Counting
import RegolithStore.Lib.Pointwise

/-! What is so in every state of the threads that write a log and of the round that syncs it: the
gate counts the writes in flight, a slot that is marked is in the log, and a thread that found a
record not written found it past every offset that is settled or that the gate was turned for. -/

namespace RegolithStore

open Lib List Option Writer

variable {b : LogSlot} {x last through : Nat}

namespace SyncState

variable {s s' : SyncState} {thread : Nat} {slot : LogSlot} {pending : Option LogSlot} {w₀ : Writer}
  {slots : List LogSlot} {r : Round}

/-! ### What the threads and the round know -/

def inflight (s : SyncState) : Nat := s.writers.countP isCounted

def onCount (s : SyncState) (side : Nat) : Nat :=
  s.writers.countP fun w => decide (w.side? = some side)

/-- Every live record that begins below `x` ends there too and is marked written. -/
def Flagged (s : SyncState) (x : Nat) : Prop :=
  x ≤ s.nextOff ∧ ∀ slot ∈ s.slots, slot.discarded = false → slot.place.offset < x →
    slot.written = true ∧ slot.place.stop ≤ x

def Above (s : SyncState) (x : Nat) (is : List Nat) : Prop :=
  ∀ i ∈ is, ∀ slot, s.slots[i]? = some slot → x ≤ slot.place.offset

/-- The live slots before the `last`th end at or below `through`, and the others begin past it. -/
structure Bounds (s : SyncState) (last through : Nat) : Prop where
  last_le : last ≤ s.slots.length
  through_le : through ≤ s.nextOff
  split : ∀ i slot, s.slots[i]? = some slot → slot.discarded = false →
    (i < last → slot.place.stop ≤ through) ∧ (last ≤ i → through ≤ slot.place.offset)

def SettlingOk (s : SyncState) (through : Nat) : Settling → Prop
  | .start => True
  | .waiting turned => turned = s.gate.turned
  | .drained turned => turned = s.gate.turned ∧ s.onCount (1 - currentSide s.gate.sides) = 0
  | .looking | .storing => s.gate.turned = 0
  | .turning => s.gate.turned = through

/-- The published frontier stands before a slot that is neither failed nor discarded. -/
def StopsLive (s : SyncState) : Prop :=
  ∀ slot, s.slots[s.published]? = some slot → slot.failed = false ∧ slot.discarded = false

def RoundOk (s : SyncState) : Round → Prop
  | .free | .synced => s.gate.epoch = s.epoch
  | .loaded last through => s.gate.epoch = s.epoch ∧ s.Bounds last through
  | .scanning next last through => s.gate.epoch = s.epoch ∧ s.Bounds last through ∧
      next ≤ s.slots.length ∧ ∀ i slot, s.slots[i]? = some slot → i < next →
        slot.discarded = false → slot.written = true
  | .settling through pc => s.gate.epoch = s.epoch ∧ 0 < through ∧ s.Flagged through ∧
      s.SettlingOk through pc
  | .settled upto => s.gate.epoch = s.epoch ∧ upto ≤ s.settledTo
  | .rolling => s.gate.epoch + 1 = s.epoch
  | .judged => s.gate.epoch + 1 = s.epoch ∧ s.StopsLive
  | .turned => s.gate.epoch = s.epoch ∧
      (∀ slot ∈ s.slots, slot.place.epoch < s.epoch) ∧
      (∀ slot ∈ s.pending, slot.place.epoch < s.epoch) ∧ s.StopsLive
  | .cut => s.gate.epoch = s.epoch ∧
      (∀ slot ∈ s.slots,
        slot.place.epoch < s.epoch ∧ (slot.discarded = false → slot.written = true)) ∧
      ∀ slot ∈ s.pending, slot.place.epoch < s.epoch

structure WriterOk (s : SyncState) (w : Writer) : Prop where
  live : ∀ i ∈ w.reserved, ∃ slot, s.slots[i]? = some slot ∧ slot.discarded = false
  side_lt : ∀ k, w.side? = some k → k < 2
  settled : s.Above s.settledTo w.kept
  turned : s.round.isTurning = false → w.side? = some (currentSide s.gate.sides) →
    s.Above s.gate.turned w.kept
  landed : ∀ i ∈ w.wrote, ∃ slot, s.slots[i]? = some slot ∧
    (slot.rests = true ∨ slot.discarded = true)

structure SlotsOk (s : SyncState) : Prop where
  pos : ∀ slot ∈ s.slots, slot.place.offset < slot.place.stop
  order : ∀ (i j : Nat) (a b : LogSlot), i < j → s.slots[i]? = some a → s.slots[j]? = some b →
    a.discarded = false → b.discarded = false → a.place.stop ≤ b.place.offset
  within : ∀ slot ∈ s.slots, slot.discarded = false → slot.place.stop ≤ s.nextOff
  epoch_le : ∀ slot ∈ s.slots, slot.place.epoch ≤ s.gate.epoch
  epoch_lt : ∀ slot ∈ s.slots, slot.discarded = true → slot.place.epoch < s.gate.epoch
  rests : ∀ slot ∈ s.slots, slot.discarded = false → slot.written = true → slot.rests = true
  discarded : ∀ slot ∈ s.slots, slot.failed = true → slot.discarded = true
  failed : s.round ≠ .cut → ∀ slot ∈ s.slots, slot.discarded = true → slot.failed = true
  published_le : s.published ≤ s.slots.length
  published : ∀ (i : Nat) (slot : LogSlot), s.slots[i]? = some slot → i < s.published →
    slot.discarded = false → slot.written = true

structure PendingOk (s : SyncState) (slot : LogSlot) : Prop where
  pos : slot.place.offset < slot.place.stop
  epoch_le : slot.place.epoch ≤ s.gate.epoch
  fresh : slot.written = false ∧ slot.failed = false ∧ slot.discarded = false
  next : slot.place.epoch = s.epoch → slot.place.offset = s.nextOff

/-- The gate counts what is in flight, and the side it turned away from is empty while no turn
is outstanding. -/
structure GateOk (s : SyncState) : Prop where
  packs : s.gate.Packs s.gate.epoch s.inflight (currentSide s.gate.sides) s.onCount
  away : s.gate.turned = 0 ∨ s.round.isTurning = true →
    s.onCount (1 - currentSide s.gate.sides) = 0

structure AtRest (s : SyncState) : Prop where
  gate : s.GateOk
  slots : s.SlotsOk
  pending : ∀ slot ∈ s.pending, s.PendingOk slot
  writers : ∀ w ∈ s.writers, s.WriterOk w
  round : s.RoundOk s.round
  settled : s.Flagged s.settledTo
  turned : s.Flagged s.gate.turned

theorem flagged_zero (s : SyncState) : s.Flagged 0 :=
  ⟨Nat.zero_le _, fun _ _ _ h => absurd h (Nat.not_lt_zero _)⟩

theorem writerOk_of_kept_nil {w : Writer} (hk : w.kept = [])
    (hl : ∀ i ∈ w.reserved, ∃ slot, s.slots[i]? = some slot ∧ slot.discarded = false)
    (hs : ∀ k, w.side? = some k → k < 2) (hlnd : ∀ i ∈ w.wrote, ∃ slot, s.slots[i]? = some slot ∧
      (slot.rests = true ∨ slot.discarded = true)) : s.WriterOk w :=
  ⟨hl, hs, by simp [Above, hk], by simp [Above, hk], hlnd⟩

theorem atRest_new (threads stampLen : Nat) (synced : Bool) : (new threads stampLen synced).AtRest := by
  have hc : ∀ p : Writer → Bool, p .idle = false →
      (List.replicate threads Writer.idle).countP p = 0 := fun p hp => by
    rw [countP_eq_zero]
    intro w hw
    rw [eq_of_mem_replicate hw, hp]
    exact Bool.false_ne_true
  have hon : (new threads stampLen synced).onCount = fun _ => 0 := funext fun _ => hc _ rfl
  have hinfl : (new threads stampLen synced).inflight = 0 := hc _ rfl
  refine ⟨⟨?_, fun _ => by rw [hon]⟩, ?_, ?_, ?_, ?_, flagged_zero _, flagged_zero _⟩
  · have hep : (new threads stampLen synced).gate.epoch = 0 := Gate.packs_new.epoch_eq
    have hs : currentSide (new threads stampLen synced).gate.sides = 0 := Gate.packs_new.side_eq
    rw [hon, hinfl, hep, hs]
    exact Gate.packs_new
  · exact ⟨by simp [new], by simp [new], by simp [new], by simp [new], by simp [new], by simp [new],
      by simp [new], by simp [new], by simp [new], by simp [new]⟩
  · simp [new]
  · intro w hw
    rw [eq_of_mem_replicate hw]
    exact writerOk_of_kept_nil rfl nofun nofun nofun
  · exact Gate.packs_new.epoch_eq

/-! ### Marks -/

/-- A slot with more flags than it had, failed only where it was discarded. -/
structure MarkedAs (a b : LogSlot) : Prop where
  place : b.place = a.place
  discarded : b.discarded = a.discarded
  failed : b.failed = true → a.failed = true ∨ a.discarded = true
  fails : a.failed = true → b.failed = true
  written : a.written = true → b.written = true
  rests : a.rests = true → b.rests = true

theorem MarkedAs.refl (a : LogSlot) : MarkedAs a a := ⟨rfl, rfl, .inl, id, id, id⟩

theorem MarkedAs.trans {a c : LogSlot} (h : MarkedAs a b) (h' : MarkedAs b c) : MarkedAs a c where
  place := h'.place.trans h.place
  discarded := h'.discarded.trans h.discarded
  failed hf := (h'.failed hf).elim h.failed fun hd => .inr (h.discarded ▸ hd)
  fails hf := h'.fails (h.fails hf)
  written hw := h'.written (h.written hw)
  rests hr := h'.rests (h.rests hr)

abbrev Marks (xs ys : List LogSlot) : Prop := Pointwise MarkedAs xs ys

variable (xs : List LogSlot)

theorem Marks.refl : Marks xs xs := Pointwise.refl MarkedAs.refl xs

theorem marks_restAll (is : List Nat) : Marks xs (restAll xs is) := by
  induction is generalizing xs with
  | nil => exact .refl xs
  | cons i is ih =>
    have hone : Marks xs (xs.modify i fun slot => { slot with rests := true }) :=
      Pointwise.modify MarkedAs.refl xs i fun _ => ⟨rfl, rfl, .inl, id, id, fun _ => rfl⟩
    exact hone.trans (fun _ _ _ => MarkedAs.trans) (ih _)

theorem map_written_restAll (is : List Nat) :
    (restAll xs is).map LogSlot.written = xs.map LogSlot.written := by
  induction is generalizing xs with
  | nil => rfl
  | cons i is ih =>
    refine (ih _).trans (ext_getElem? fun j => ?_)
    rw [getElem?_map, getElem?_map, getElem?_modify, Option.map_eq_map, Option.map_map]
    congr 1
    funext slot
    split_ifs <;> rfl

theorem rests_restAll {xs : List LogSlot} {is : List Nat} {i : Nat} (hi : i ∈ is)
    (hb : (restAll xs is)[i]? = some b) : b.rests = true := by
  induction is generalizing xs with
  | nil => cases hi
  | cons j is ih =>
    rcases mem_cons.mp hi with rfl | hi
    · obtain ⟨a, ha, hab⟩ := (marks_restAll (xs.modify i fun slot => { slot with rests := true })
        is).get_old hb
      refine hab.rests ?_
      rw [getElem?_modify] at ha
      obtain ⟨c, -, rfl⟩ := map_eq_some_iff.mp ha
      rw [if_pos rfl]
    · exact ih hi hb

theorem Flagged.marks (h : s.Flagged x) (hm : Marks s.slots s'.slots)
    (hn : s'.nextOff = s.nextOff) : s'.Flagged x := by
  refine ⟨hn ▸ h.1, fun b hb hl hlt => ?_⟩
  obtain ⟨a, ha, hab⟩ := hm.mem_old hb
  rw [hab.discarded] at hl
  rw [hab.place] at hlt ⊢
  exact (h.2 a ha hl hlt).imp_left hab.written

theorem SlotsOk.marks (h : s.SlotsOk) (hm : Marks s.slots slots)
    (hrests : ∀ slot ∈ slots, slot.discarded = false → slot.written = true → slot.rests = true) :
    SlotsOk { s with slots } where
  pos := hm.forall_mem h.pos fun hab ha => hab.place ▸ ha
  order i j b b' hij hb hb' hlive hlive' := by
    obtain ⟨a, ha, hab⟩ := hm.get_old hb
    obtain ⟨a', ha', hab'⟩ := hm.get_old hb'
    rw [hab.place, hab'.place]
    exact h.order i j a a' hij ha ha' (hab.discarded ▸ hlive) (hab'.discarded ▸ hlive')
  within := hm.forall_mem h.within fun hab ha hlive => hab.place ▸ ha (hab.discarded ▸ hlive)
  epoch_le := hm.forall_mem h.epoch_le fun hab ha => hab.place ▸ ha
  epoch_lt := hm.forall_mem h.epoch_lt fun hab ha hd => hab.place ▸ ha (hab.discarded ▸ hd)
  rests := hrests
  discarded := hm.forall_mem h.discarded fun hab ha hf =>
    hab.discarded.trans ((hab.failed hf).elim ha id)
  failed hcut := hm.forall_mem (h.failed hcut) fun hab ha hd =>
    hab.fails (ha (hab.discarded ▸ hd))
  published_le := hm.1 ▸ h.published_le
  published i b hb hlt hlive := by
    obtain ⟨a, ha, hab⟩ := hm.get_old hb
    exact hab.written (h.published i a ha hlt (hab.discarded ▸ hlive))

theorem Bounds.marks (h : s.Bounds last through)
    (hm : Marks s.slots s'.slots) (hn : s'.nextOff = s.nextOff) :
    s'.Bounds last through := by
  refine ⟨hm.1 ▸ h.last_le, hn ▸ h.through_le, fun i b hb hl => ?_⟩
  obtain ⟨a, ha, hab⟩ := hm.get_old hb
  rw [hab.place]
  exact h.split i a ha (hab.discarded ▸ hl)

/-! ### Steps of a thread that writes -/

variable (w : Writer) {kept rest : List Nat} {poisoned : Bool} {nextOff : Nat} {side : Nat}

theorem kept_subset_reserved : w.kept ⊆ w.reserved := by
  cases w with
  | checking side kept rest => exact subset_append_left kept rest
  | writing side kept => exact List.Subset.refl kept
  | _ => exact nil_subset _

theorem inFlight_subset_kept : w.inFlight ⊆ w.kept := by
  cases w with
  | writing side kept => exact List.Subset.refl kept
  | _ => exact nil_subset _

theorem WriterOk.marks {w : Writer} (h : s.WriterOk w) (hm : Marks s.slots s'.slots)
    (hsett : s'.settledTo = s.settledTo)
    (ht : s'.round.isTurning = false → s.round.isTurning = false)
    (htrn : s'.gate.turned = s.gate.turned)
    (hs : currentSide s'.gate.sides = currentSide s.gate.sides) : s'.WriterOk w where
  live i hi := by
    obtain ⟨a, ha, hl⟩ := h.live i hi
    obtain ⟨b, hb, hab⟩ := hm.get ha
    exact ⟨b, hb, hab.discarded.trans hl⟩
  side_lt := h.side_lt
  settled i hi b hb := by
    obtain ⟨a, ha, hab⟩ := hm.get_old hb
    rw [hsett, hab.place]
    exact h.settled i hi a ha
  turned hr hk i hi b hb := by
    obtain ⟨a, ha, hab⟩ := hm.get_old hb
    rw [htrn, hab.place]
    exact h.turned (ht hr) (hs ▸ hk) i hi a ha
  landed i hi := by
    obtain ⟨a, ha, hlnd⟩ := h.landed i hi
    obtain ⟨b, hb, hab⟩ := hm.get ha
    exact ⟨b, hb, hlnd.imp hab.rests fun hd => hab.discarded.trans hd⟩

theorem SettlingOk.mono {pc : Settling} (h : s.SettlingOk through pc)
    (ht : s'.gate.turned = s.gate.turned) (ha : s.onCount (1 - currentSide s.gate.sides) = 0 →
      s'.onCount (1 - currentSide s'.gate.sides) = 0) : s'.SettlingOk through pc := by
  cases pc with
  | start => trivial
  | waiting turned => exact h.trans ht.symm
  | drained turned => exact ⟨h.1.trans ht.symm, ha h.2⟩
  | looking | storing | turning => exact ht.trans h

theorem StopsLive.marks (h : s.StopsLive) (hm : Marks s.slots s'.slots)
    (hpub : s'.published = s.published) : s'.StopsLive := by
  intro b hb
  rw [hpub] at hb
  obtain ⟨a, ha, hab⟩ := hm.get_old hb
  obtain ⟨hfail, hdisc⟩ := h a ha
  refine ⟨Bool.eq_false_iff.mpr fun hf => ?_, hab.discarded.trans hdisc⟩
  rcases hab.failed hf with hf | hd
  · cases hf.symm.trans hfail
  · cases hd.symm.trans hdisc

/-- What the round knows survives more marks. -/
theorem RoundOk.marks (h : s.RoundOk r) (hm : Marks s.slots s'.slots) (hep : s'.epoch = s.epoch)
    (hg : s'.gate.epoch = s.gate.epoch) (hn : s'.nextOff = s.nextOff)
    (hp : r.isFrozen = true → s'.pending = s.pending)
    (hpub : r.isFrozen = true → s'.published = s.published) (hsett : s'.settledTo = s.settledTo)
    (ht : s'.gate.turned = s.gate.turned) (haway : s.onCount (1 - currentSide s.gate.sides) = 0 →
      s'.onCount (1 - currentSide s'.gate.sides) = 0) : s'.RoundOk r := by
  have hsls : (∀ slot ∈ s.slots, slot.place.epoch < s.epoch) →
      ∀ slot ∈ s'.slots, slot.place.epoch < s'.epoch := by
    intro hlt b hb
    obtain ⟨a, ha, hab⟩ := hm.mem_old hb
    rw [hab.place, hep]
    exact hlt a ha
  cases r with
  | free | synced => exact hg.trans (h.trans hep.symm)
  | loaded last through =>
    exact ⟨hg.trans (h.1.trans hep.symm), h.2.marks hm hn⟩
  | scanning next last through =>
    obtain ⟨hcur, hbds, hle, hwr⟩ := h
    refine ⟨hg.trans (hcur.trans hep.symm), hbds.marks hm hn, hm.1 ▸ hle, fun i b hb hlt hl => ?_⟩
    obtain ⟨a, ha, hab⟩ := hm.get_old hb
    exact hab.written (hwr i a ha hlt (hab.discarded ▸ hl))
  | settling through pc =>
    obtain ⟨hcur, hpos, hf, hpc⟩ := h
    exact ⟨hg.trans (hcur.trans hep.symm), hpos, hf.marks hm hn, hpc.mono ht haway⟩
  | settled upto => exact ⟨hg.trans (h.1.trans hep.symm), hsett ▸ h.2⟩
  | rolling => exact (congrArg (· + 1) hg).trans (h.trans hep.symm)
  | judged =>
    exact ⟨(congrArg (· + 1) hg).trans (h.1.trans hep.symm), h.2.marks hm (hpub rfl)⟩
  | turned =>
    refine ⟨hg.trans (h.1.trans hep.symm), hsls h.2.1, ?_, h.2.2.2.marks hm (hpub rfl)⟩
    rw [hp rfl, hep]
    exact h.2.2.1
  | cut =>
    refine ⟨hg.trans (h.1.trans hep.symm), fun b hb => ⟨?_, fun hl => ?_⟩, ?_⟩
    · exact hsls (fun slot hs => (h.2.1 slot hs).1) b hb
    · obtain ⟨a, ha, hab⟩ := hm.mem_old hb
      exact hab.written ((h.2.1 a ha).2 (hab.discarded ▸ hl))
    · rw [hp rfl, hep]
      exact h.2.2

theorem inflight_setWriter (h : s.writers[thread]? = some w₀) :
    (s.setWriter thread w).inflight + w₀.isCounted.toNat = s.inflight + w.isCounted.toNat :=
  countP_set_add h

theorem onCount_setWriter (h : s.writers[thread]? = some w₀) (k : Nat) :
    (s.setWriter thread w).onCount k + (decide (w₀.side? = some k)).toNat =
      s.onCount k + (decide (w.side? = some k)).toNat :=
  countP_set_add h

theorem onCount_setWriter_of_eq (h : s.writers[thread]? = some w₀)
    (hs : w.side? = w₀.side?) : (s.setWriter thread w).onCount = s.onCount := by
  funext k
  have hset := onCount_setWriter w h k
  rw [hs] at hset
  omega

theorem onCount_setWriter_update {thread k n : Nat} (w : Writer) (h : s.writers[thread]? = some w₀)
    (hn : (s.setWriter thread w).onCount k = n)
    (hs : ∀ j, j ≠ k → (w.side? = some j ↔ w₀.side? = some j)) :
    (s.setWriter thread w).onCount = Function.update s.onCount k n := by
  funext j
  by_cases hj : j = k
  · rw [hj, Function.update_self, hn]
  · have hset := onCount_setWriter w h j
    simp only [hs j hj] at hset
    rw [Function.update_of_ne hj]
    omega

variable (h : s.AtRest)

include h

/-- A step of the thread `thread`: its own state and the gate's words change, and slots get
flags. -/
theorem AtRest.writerStep {w₀ w : Writer} {gate : Gate}
    (hthr : s.writers[thread]? = some w₀) (hm : Marks s.slots slots)
    (hrests : ∀ slot ∈ slots, slot.discarded = false → slot.written = true → slot.rests = true)
    (hep : gate.epoch = s.gate.epoch) (ht : gate.turned = s.gate.turned)
    (hside : currentSide gate.sides = currentSide s.gate.sides)
    (hp : gate.Packs s.gate.epoch (s.setWriter thread w).inflight (currentSide s.gate.sides)
      (s.setWriter thread w).onCount)
    (ha : w.side? = some (1 - currentSide s.gate.sides) →
      w₀.side? = some (1 - currentSide s.gate.sides))
    (hw : WriterOk { s with slots } w) :
    AtRest { s.setWriter thread w with slots, gate, poisoned } := by
  set s' : SyncState := { s.setWriter thread w with slots, gate, poisoned } with hs'
  have hc : s.onCount (1 - currentSide s.gate.sides) = 0 →
      s'.onCount (1 - currentSide s'.gate.sides) = 0 := by
    intro hz
    rw [show currentSide s'.gate.sides = currentSide s.gate.sides from hside]
    rw [onCount, countP_eq_zero] at hz ⊢
    intro v hv
    rcases mem_or_eq_of_mem_set hv with hv | rfl
    · exact hz v hv
    · intro hon
      have hold := ha (of_decide_eq_true hon)
      exact hz w₀ (mem_of_getElem? hthr) (decide_eq_true hold)
  refine ⟨⟨?_, ?_⟩, ?_, ?_, ?_, ?_, ?_, ?_⟩
  · rw [show currentSide s'.gate.sides = currentSide s.gate.sides from hside,
      show s'.gate.epoch = s.gate.epoch from hep]
    exact hp
  · exact fun hz => hc (h.gate.away (ht ▸ hz))
  · have hsls := h.slots.marks hm hrests
    exact { hsls with
      epoch_le := fun b hb => hep ▸ hsls.epoch_le b hb
      epoch_lt := fun b hb hd => hep ▸ hsls.epoch_lt b hb hd }
  · exact fun slot hslot => ⟨(h.pending slot hslot).pos, hep ▸ (h.pending slot hslot).epoch_le,
      (h.pending slot hslot).fresh, (h.pending slot hslot).next⟩
  · intro v hv
    rcases mem_or_eq_of_mem_set hv with hv | rfl
    · exact (h.writers v hv).marks hm rfl id ht hside
    · exact hw.marks (.refl _) rfl id ht hside
  · exact h.round.marks hm rfl hep rfl (fun _ => rfl) (fun _ => rfl) rfl ht hc
  · exact h.settled.marks hm rfl
  · rw [show s'.gate.turned = s.gate.turned from ht]
    exact h.turned.marks hm rfl

theorem AtRest.writerStay {w₀ w : Writer}
    (ht : s.writers[thread]? = some w₀) (hm : Marks s.slots slots)
    (hrests : ∀ slot ∈ slots, slot.discarded = false → slot.written = true → slot.rests = true)
    (hc : w.isCounted = w₀.isCounted) (hs : w.side? = w₀.side?)
    (hw : WriterOk { s with slots } w) : AtRest { s.setWriter thread w with slots, poisoned } := by
  refine h.writerStep ht hm hrests rfl rfl rfl ?_ (fun hk => hs ▸ hk) hw
  have hinfl := inflight_setWriter w ht
  rw [hc, Nat.add_right_cancel_iff] at hinfl
  rw [hinfl, onCount_setWriter_of_eq w ht hs]
  exact h.gate.packs

theorem AtRest.enter {run : List Nat} (hs : s.enter thread run = some s') :
    s'.AtRest := by
  obtain ⟨⟨ht, hrun⟩, hs⟩ := ite_none_right_eq_some.mp hs
  obtain ⟨gate, hg, rfl⟩ := map_eq_some_iff.mp hs
  obtain ⟨-, hp, htrn⟩ := h.gate.packs.enterWord hg
  refine h.writerStep ht (.refl s.slots) h.slots.rests hp.epoch_eq htrn hp.side_eq ?_ nofun ?_
  · have hinfl := inflight_setWriter (.counted run) ht
    simp only [isCounted, Bool.toNat_false, Bool.toNat_true, Nat.add_zero] at hinfl
    rw [hinfl, onCount_setWriter_of_eq (.counted run) ht rfl]
    exact hp
  · refine writerOk_of_kept_nil rfl (fun i hi => ?_) nofun nofun
    -- a record of the gate's epoch was not discarded
    obtain ⟨slot, hslot, hep⟩ := (Option.any_eq_true ..).mp (all_eq_true.mp hrun i hi)
    refine ⟨slot, hslot, Bool.eq_false_iff.mpr fun hd => ?_⟩
    have hlt := h.slots.epoch_lt slot (mem_of_getElem? hslot) hd
    rw [of_decide_eq_true hep] at hlt
    exact lt_irrefl _ hlt

theorem AtRest.join (hs : s.join thread = some s') : s'.AtRest := by
  rw [SyncState.join] at hs
  split at hs
  case h_1 run ht =>
    obtain ⟨⟨gate, side⟩, hg, rfl⟩ := map_eq_some_iff.mp hs
    obtain ⟨rfl, hp, htrn⟩ := h.gate.packs.enterSide hg
    have hl := (h.writers _ (mem_of_getElem? ht)).live
    refine h.writerStep ht (.refl s.slots) h.slots.rests hp.epoch_eq htrn hp.side_eq ?_ ?_ ?_
    · have hinfl := inflight_setWriter (.checking (currentSide s.gate.sides) [] run) ht
      simp only [isCounted, Nat.add_right_cancel_iff] at hinfl
      rw [hinfl, onCount_setWriter_update _ ht ?_ ?_]
      · exact hp
      · have hset := onCount_setWriter (.checking (currentSide s.gate.sides) [] run) ht
          (currentSide s.gate.sides)
        simpa [side?] using hset
      · intro k hk
        simp [side?, hk.symm]
    · intro hk
      have heq : currentSide s.gate.sides = 1 - currentSide s.gate.sides := some.inj hk
      omega
    · refine writerOk_of_kept_nil rfl hl ?_ nofun
      rintro k ⟨⟩
      exact h.gate.packs.side_lt
  case h_2 => cases hs

omit h in
theorem writerOk_afterChecks
    (h : s.WriterOk (.checking side kept rest)) : s.WriterOk (.afterChecks side kept) := by
  rw [afterChecks]
  split_ifs
  · exact writerOk_of_kept_nil rfl nofun h.side_lt nofun
  · exact ⟨fun i hi => h.live i (mem_append_left rest hi), h.side_lt, h.settled, h.turned,
      by simp [Writer.wrote]⟩

theorem AtRest.endChecks (ht : s.writers[thread]? = some (.checking side kept rest)) :
    (s.setWriter thread (.afterChecks side kept)).AtRest := by
  refine h.writerStay ht (.refl s.slots) h.slots.rests ?_ ?_
    (writerOk_afterChecks (h.writers _ (mem_of_getElem? ht)))
  all_goals
    rw [afterChecks]
    split_ifs <;> rfl

omit h in
theorem Flagged.le_offset (h : s.Flagged x) (hs : slot ∈ s.slots)
    (hl : slot.discarded = false) (hunmk : slot.written = false) : x ≤ slot.place.offset := by
  by_contra hlt
  have hwr := (h.2 slot hs hl (not_le.mp hlt)).1
  rw [hunmk] at hwr
  cases hwr

/-- A thread looks at a record once it is counted in. -/
theorem AtRest.check (hs : s.check thread = some s') : s'.AtRest := by
  rw [SyncState.check] at hs
  split at hs
  case h_1 side kept hthr => exact some.inj hs ▸ h.endChecks hthr
  case h_2 side kept i rest hthr =>
    have hw := h.writers _ (mem_of_getElem? hthr)
    cases hs
    by_cases hd : s.slots[i]?.all LogSlot.isDone = true
    · rw [if_pos hd]
      exact h.endChecks hthr
    · rw [if_neg hd]
      refine h.writerStay hthr (.refl s.slots) h.slots.rests rfl rfl ?_
      obtain ⟨slot, hslot, hl⟩ := hw.live i (by simp [reserved])
      -- looked at after it was counted in: every record below a settled offset was marked
      have hunmk : slot.written = false := by
        rw [hslot, all_some, LogSlot.isDone] at hd
        simpa using (by simpa using hd : _ ∧ _).1
      have habv : ∀ x, s.Flagged x → s.Above x kept → s.Above x (kept ++ [i]) := by
        intro x hx hkept j hj slot' hslot'
        rw [mem_append, mem_singleton] at hj
        rcases hj with hj | rfl
        · exact hkept j hj slot' hslot'
        · obtain rfl := mem_unique hslot hslot'
          exact hx.le_offset (mem_of_getElem? hslot) hl hunmk
      refine ⟨fun j hj => hw.live j (by simpa [reserved] using hj), hw.side_lt,
        habv _ h.settled hw.settled, fun ht hk => habv _ h.turned (hw.turned ht hk),
        by simp [Writer.wrote]⟩
  case h_3 => cases hs

theorem AtRest.wrote {fails : Bool} (hs : s.wrote thread fails = some s') :
    s'.AtRest := by
  rw [SyncState.wrote] at hs
  split at hs
  case h_1 side kept ht =>
    have hw := h.writers _ (mem_of_getElem? ht)
    cases fails with
    | true =>
      cases hs
      exact h.writerStay ht (.refl s.slots) h.slots.rests rfl rfl
        (writerOk_of_kept_nil rfl nofun hw.side_lt nofun)
    | false =>
      cases hs
      have hm := marks_restAll s.slots kept
      refine h.writerStay ht hm ?_ rfl rfl ?_
      · intro b hb hl hwr
        obtain ⟨i, hi⟩ := mem_iff_getElem?.mp hb
        obtain ⟨a, ha, hab⟩ := hm.get_old hi
        have hmap := congrArg (·[i]?) (map_written_restAll s.slots kept)
        simp only [getElem?_map, hi, ha, map_some, some.injEq] at hmap
        exact hab.rests (h.slots.rests a (mem_of_getElem? ha) (hab.discarded ▸ hl) (hmap ▸ hwr))
      · refine writerOk_of_kept_nil rfl nofun hw.side_lt fun i hi => ?_
        obtain ⟨a, ha, -⟩ := hw.live i hi
        obtain ⟨b, hb, -⟩ := hm.get ha
        exact ⟨b, hb, .inl (rests_restAll hi hb)⟩
  case h_2 => cases hs

theorem AtRest.leaveSide (hs : s.leaveSide thread = some s') : s'.AtRest := by
  rw [SyncState.leaveSide] at hs
  split at hs
  case h_1 side wrote ht =>
    cases hs
    have hw := h.writers _ (mem_of_getElem? ht)
    have hlt := hw.side_lt side rfl
    have hset := onCount_setWriter (.leftSide wrote) ht side
    simp only [side?, decide_true, reduceCtorEq, decide_false, Bool.toNat_true, Bool.toNat_false] at hset
    have hp := h.gate.packs.leaveSide hlt (by omega)
    refine h.writerStep ht (.refl s.slots) h.slots.rests hp.epoch_eq rfl
      hp.side_eq ?_ nofun (writerOk_of_kept_nil rfl nofun nofun hw.landed)
    have hinfl := inflight_setWriter (.leftSide wrote) ht
    simp only [isCounted, Nat.add_right_cancel_iff] at hinfl
    rw [hinfl, onCount_setWriter_update (k := side) (n := s.onCount side - 1) _ ht
      (by omega) fun k hk => by simp [side?, hk.symm]]
    exact hp
  case h_2 => cases hs

theorem AtRest.leaveWord (hs : s.leaveWord thread = some s') : s'.AtRest := by
  rw [SyncState.leaveWord] at hs
  split at hs
  case h_1 wrote ht =>
    cases hs
    have hw := h.writers _ (mem_of_getElem? ht)
    have hinfl := inflight_setWriter (.marking wrote) ht
    simp only [isCounted, Bool.toNat_true, Bool.toNat_false, Nat.add_zero] at hinfl
    have hp := h.gate.packs.leaveWord (by omega)
    refine h.writerStep ht (.refl s.slots) h.slots.rests hp.epoch_eq rfl
      hp.side_eq ?_ nofun (writerOk_of_kept_nil rfl nofun nofun hw.landed)
    rw [onCount_setWriter_of_eq (.marking wrote) ht rfl,
      show (s.setWriter thread (.marking wrote)).inflight = s.inflight - 1 by omega]
    exact hp
  case h_2 => cases hs

/-- A record that was written is marked. -/
theorem AtRest.mark (hs : s.mark thread = some s') : s'.AtRest := by
  rw [SyncState.mark] at hs
  split at hs
  case h_1 ht =>
    cases hs
    exact h.writerStay ht (.refl s.slots) h.slots.rests rfl rfl
      (writerOk_of_kept_nil rfl nofun nofun nofun)
  case h_2 i rest ht =>
    cases hs
    have hw := h.writers _ (mem_of_getElem? ht)
    have hm : Marks s.slots (s.slots.modify i fun slot => { slot with written := true }) :=
      Pointwise.modify MarkedAs.refl s.slots i fun _ => ⟨rfl, rfl, .inl, id, fun _ => rfl, id⟩
    refine h.writerStay ht hm ?_ rfl rfl ?_
    · intro b hb hl hwr
      obtain ⟨j, hj⟩ := mem_iff_getElem?.mp hb
      rw [getElem?_modify] at hj
      obtain ⟨a, ha, rfl⟩ := map_eq_some_iff.mp hj
      by_cases hij : i = j
      · subst hij
        rw [if_pos rfl] at hl ⊢
        obtain ⟨c, hc, hlnd⟩ := hw.landed i (by simp [Writer.wrote])
        obtain rfl := mem_unique ha hc
        rcases hlnd with hrests | hd
        · exact hrests
        · cases hd.symm.trans hl
      · rw [if_neg hij] at hl hwr ⊢
        exact h.slots.rests a (mem_of_getElem? ha) hl hwr
    · refine writerOk_of_kept_nil rfl nofun nofun fun j hj => ?_
      obtain ⟨a, ha, hlnd⟩ := hw.landed j (mem_cons_of_mem i hj)
      obtain ⟨b, hb, hab⟩ := hm.get ha
      exact ⟨b, hb, hlnd.imp hab.rests fun hd => hab.discarded.trans hd⟩
  case h_3 => cases hs

/-! ### Deciding and publishing -/

omit h in
theorem RoundOk.epoch_eq (h : s.RoundOk r) (hr : r.isFrozen = false) : s.gate.epoch = s.epoch := by
  cases r with
  | free | synced => exact h
  | loaded | scanning | settling | settled => exact h.1
  | rolling | judged | turned | cut => cases hr

theorem AtRest.install {len : Nat} {immediate : Bool}
    (hr : s.round.isFrozen = false) (hs : s.install len immediate = some s') :
    s'.AtRest := by
  obtain ⟨⟨-, hlen⟩, rfl⟩ := guarded_eq_some.mp hs
  have hep : s.gate.epoch = s.epoch := h.round.epoch_eq hr
  refine { h with
    gate := ⟨h.gate.packs, h.gate.away⟩
    slots := { h.slots with }
    pending := ?_
    writers := fun w hw => { h.writers w hw with }
    round := h.round.marks (.refl _) rfl rfl rfl (by simp [hr]) (fun _ => rfl) rfl rfl id }
  intro slot hslot
  cases hslot
  exact ⟨by simpa [LogSlot.placedAt, Place.stop] using hlen, hep.ge, ⟨rfl, rfl, rfl⟩, fun _ => rfl⟩

omit h

theorem Flagged.append {nextOff : Nat} (h : s.Flagged x) (hn : s.nextOff ≤ nextOff)
    (hl : slot.discarded = false → s.nextOff ≤ slot.place.offset) :
    Flagged { s with slots := s.slots ++ [slot], nextOff, pending } x := by
  refine ⟨h.1.trans hn, fun b hb hb' hlt => ?_⟩
  rcases mem_concat.mp hb with hb | rfl
  · exact h.2 b hb hb' hlt
  · exact absurd (lt_of_lt_of_le hlt h.1) (not_lt.mpr (hl hb'))

theorem Bounds.append {nextOff : Nat} (h : s.Bounds last through)
    (hn : s.nextOff ≤ nextOff) (hl : slot.discarded = false → s.nextOff ≤ slot.place.offset) :
    Bounds { s with slots := s.slots ++ [slot], nextOff, pending } last through := by
  refine ⟨?_, h.through_le.trans hn, fun i b hb hd => ?_⟩
  · rw [length_append]
    exact h.last_le.trans (Nat.le_add_right _ _)
  · rcases getElem?_append_singleton hb with hb | ⟨rfl, rfl⟩
    · exact h.split i b hb hd
    · exact ⟨fun hlt => absurd h.last_le hlt.not_ge, fun _ => h.through_le.trans (hl hd)⟩

theorem RoundOk.append (h : s.RoundOk r) (hr : r.isFrozen = false)
    (hn : s.nextOff ≤ nextOff) (hl : slot.discarded = false → s.nextOff ≤ slot.place.offset) :
    RoundOk { s with slots := s.slots ++ [slot], nextOff, pending } r := by
  cases r with
  | free | synced => exact h
  | loaded last through => exact ⟨h.1, h.2.append hn hl⟩
  | scanning next last through =>
    obtain ⟨hcur, hbds, hle, hwr⟩ := h
    refine ⟨hcur, hbds.append hn hl, ?_, fun i b hb hlt hd => ?_⟩
    · rw [length_append]
      exact hle.trans (Nat.le_add_right _ _)
    · rcases getElem?_append_singleton hb with hb | ⟨rfl, -⟩
      · exact hwr i b hb hlt hd
      · exact absurd hle hlt.not_ge
  | settling through pc =>
    obtain ⟨hcur, hpos, hf, hpc⟩ := h
    exact ⟨hcur, hpos, hf.append hn hl, hpc.mono rfl id⟩
  | settled upto => exact h
  | rolling | judged | turned | cut => cases hr

/-- A decision is settled as the next slot. -/
theorem AtRest.append (slot : LogSlot) (pending : Option LogSlot) (h : s.AtRest)
    (hr : s.round.isFrozen = false) (hnext : s.nextOff ≤ nextOff)
    (hpos : slot.place.offset < slot.place.stop) (hep : slot.place.epoch ≤ s.gate.epoch)
    (hrests : slot.written = true → slot.rests = true) (hl : slot.discarded = false →
      s.nextOff ≤ slot.place.offset ∧ slot.place.stop ≤ nextOff ∧ slot.failed = false)
    (hstale : slot.discarded = true → slot.place.epoch < s.gate.epoch ∧ slot.failed = true)
    (hp : ∀ next ∈ pending, PendingOk { s with nextOff } next) :
    AtRest { s with slots := s.slots ++ [slot], nextOff, pending } := by
  have hmem : ∀ {P : LogSlot → Prop}, (∀ b ∈ s.slots, P b) → P slot →
      ∀ b ∈ s.slots ++ [slot], P b := fun hall hs => forall_mem_concat.mpr ⟨hall, hs⟩
  have hget : ∀ {i b}, s.slots[i]? = some b → (s.slots ++ [slot])[i]? = some b := fun hb =>
    (getElem?_append_left (lt_of_getElem? hb)).trans hb
  have hbeg : slot.discarded = false → s.nextOff ≤ slot.place.offset := fun hd => (hl hd).1
  refine ⟨⟨h.gate.packs, h.gate.away⟩, ?_, fun next hn => { hp next hn with }, ?_,
    h.round.append hr hnext hbeg,
    h.settled.append hnext hbeg, h.turned.append hnext hbeg⟩
  · refine ⟨hmem h.slots.pos hpos, ?_, ?_, hmem h.slots.epoch_le hep, ?_, ?_, ?_, ?_, ?_, ?_⟩
    · intro i j a b hij ha hb ha' hb'
      rcases getElem?_append_singleton hb with hb | ⟨rfl, rfl⟩
      · rcases getElem?_append_singleton ha with ha | ⟨rfl, -⟩
        · exact h.slots.order i j a b hij ha hb ha' hb'
        · have hlt := lt_of_getElem? hb
          omega
      · rcases getElem?_append_singleton ha with ha | ⟨rfl, -⟩
        · exact (h.slots.within a (mem_of_getElem? ha) ha').trans (hl hb').1
        · exact absurd hij (lt_irrefl _)
    · exact hmem (fun b hb hd => (h.slots.within b hb hd).trans hnext) fun hd => (hl hd).2.1
    · exact hmem h.slots.epoch_lt fun hd => (hstale hd).1
    · exact hmem h.slots.rests fun _ => hrests
    · refine hmem h.slots.discarded fun hf => ?_
      by_contra hd
      have hnot := (hl (Bool.eq_false_iff.mpr hd)).2.2
      rw [hf] at hnot
      cases hnot
    · exact fun hcut => hmem (h.slots.failed hcut) fun hd => (hstale hd).2
    · rw [length_append]
      exact h.slots.published_le.trans (Nat.le_add_right _ _)
    · intro i b hb hlt hd
      rcases getElem?_append_singleton hb with hb | ⟨rfl, -⟩
      · exact h.slots.published i b hb hlt hd
      · exact absurd h.slots.published_le hlt.not_ge
  · intro w hw
    have hok := h.writers w hw
    have habv : ∀ x, s.Above x w.kept →
        Above { s with slots := s.slots ++ [slot], nextOff, pending } x w.kept := by
      intro x hx i hi b hb
      obtain ⟨a, ha, -⟩ := hok.live i (kept_subset_reserved w hi)
      obtain rfl := some.inj ((hget ha).symm.trans hb)
      exact hx i hi a ha
    refine ⟨fun i hi => ?_, hok.side_lt, habv _ hok.settled,
      fun ht hk => habv _ (hok.turned ht hk), fun i hi => ?_⟩
    · obtain ⟨a, ha, hd⟩ := hok.live i hi
      exact ⟨a, hget ha, hd⟩
    · obtain ⟨a, ha, hlnd⟩ := hok.landed i hi
      exact ⟨a, hget ha, hlnd⟩

theorem AtRest.decideNext (h : s.AtRest) (hs : s.decideNext = some s') : s'.AtRest := by
  obtain ⟨slot, hslot, hs⟩ := bind_eq_some_iff.mp hs
  obtain ⟨hpos, hle, ⟨hwr, hf, hdisc⟩, hn⟩ := h.pending slot hslot
  rw [ite_none_left_eq_some] at hs
  obtain ⟨hr, hs⟩ := hs
  rw [Bool.not_eq_true] at hr
  have hep := h.round.epoch_eq hr
  by_cases hstale : slot.place.epoch = s.epoch
  · rw [if_neg (not_not.mpr hstale)] at hs
    cases hs
    have hoff := hn hstale
    exact h.append slot none hr (by omega) hpos hle (fun hw => by simp [hwr] at hw)
      (fun _ => ⟨hoff.ge, le_rfl, hf⟩) (fun hd => by simp [hdisc] at hd) (by simp)
  · rw [if_pos hstale] at hs
    cases hs
    exact h.append { slot with failed := true, discarded := true } none hr le_rfl hpos hle
      (fun hw => by simp [hwr] at hw) nofun
      (fun _ => ⟨by simp only; omega, rfl⟩) (by simp)

theorem AtRest.setPublished {published : Nat} (h : s.AtRest)
    (hr : s.round.isFrozen = false) (hle : published ≤ s.slots.length)
    (hwr : ∀ (i : Nat) (slot : LogSlot), s.slots[i]? = some slot → i < published →
      slot.discarded = false → slot.written = true) : AtRest { s with published } :=
  ⟨⟨h.gate.packs, h.gate.away⟩, { h.slots with published_le := hle, published := hwr },
    fun slot hs => { h.pending slot hs with }, fun w hw => { h.writers w hw with },
    h.round.marks (.refl _) rfl rfl rfl (fun _ => rfl) (by simp [hr]) rfl rfl id, h.settled,
    h.turned⟩

theorem written_of_publishable {durable : Nat} (hfail : slot.failed = true → slot.discarded = true)
    (h : slot.publishable durable = true) (hl : slot.discarded = false) : slot.written = true := by
  rw [LogSlot.publishable, Bool.or_eq_true, Bool.and_eq_true] at h
  rcases h with hf | ⟨hw, -⟩
  · cases (hfail hf).symm.trans hl
  · exact hw

theorem AtRest.publishNext (h : s.AtRest) (hs : s.publishNext = some s') : s'.AtRest := by
  obtain ⟨slot, hslot, hs⟩ := bind_eq_some_iff.mp hs
  obtain ⟨⟨hr, hpubb⟩, rfl⟩ := guarded_eq_some.mp hs
  refine h.setPublished hr (lt_of_getElem? hslot) fun i a ha hlt hl => ?_
  rcases Nat.lt_succ_iff_lt_or_eq.mp hlt with hlt | rfl
  · exact h.slots.published i a ha hlt hl
  · obtain rfl := mem_unique hslot ha
    exact written_of_publishable (h.slots.discarded slot (mem_of_getElem? hslot)) hpubb hl

end SyncState

end RegolithStore
