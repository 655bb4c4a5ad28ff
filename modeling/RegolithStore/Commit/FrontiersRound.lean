import RegolithStore.Commit.FrontiersSound

/-! The slots the ring takes in, the rounds that sync a log and the units that rotate it keep what
is so of the frontiers. -/

namespace RegolithStore

open Lib List Function RingSlot Option

variable {x last next : Nat}

namespace RingState

variable {s s' : RingState} {first : Nat} {slot : RingSlot} {r : RingRound} {through : Nat}
  {p : Publisher}

/-! ### Taking a slot in -/

theorem Covers.append (h : s.Covers) (hs : s'.slots = s.slots ++ [slot])
    (hdec : s'.decided ≤ s.slots.length + 1) (hpub : s'.published = s.published)
    (hh : s'.horizon = s.horizon)
    (hdur : ∀ a ∈ s.slots, a.isWritten s.durable = true → a.isWritten s'.durable = true)
    (hnew : slot.discarded = false → 0 < slot.ops → s.horizon < slot.base)
    (hbel : s.horizon < (s'.round.ends s'.tip).1) : s'.Covers := by
  have hlen : s'.slots.length = s.slots.length + 1 := by
    rw [hs, length_append, length_singleton]
  have hnot : slot.discarded = false → 0 < slot.ops → ¬slot.lastSeq ≤ s.horizon := by
    intro hl hops hle
    have hlt := hnew hl hops
    rw [lastSeq] at hle
    omega
  refine ⟨hlen ▸ hdec, ?_, fun i b hb hl hops hc => ?_,
    fun i b hb hl hops hc => ?_, fun i b hb hl hops hlt => ?_,
    fun b hb hl hops => ?_, hh ▸ hbel⟩
  · rw [hlen, hpub]
    exact h.published_le.trans (Nat.le_succ _)
  · rw [hpub, hh] at hc
    rcases getElem?_append_singleton (hs ▸ hb) with hb | ⟨rfl, rfl⟩
    · exact hdur b (mem_of_getElem? hb) (h.written i b hb hl hops hc)
    · rcases hc with hlt | hle
      · exact absurd h.published_le hlt.not_ge
      · exact absurd hle (hnot hl hops)
  · rw [hh] at hc
    rw [hpub]
    rcases getElem?_append_singleton (hs ▸ hb) with hb | ⟨rfl, rfl⟩
    · exact h.reached i b hb hl hops hc
    · exact absurd hc (hnot hl hops)
  · rw [hpub] at hlt
    rw [hh]
    rcases getElem?_append_singleton (hs ▸ hb) with hb | ⟨rfl, rfl⟩
    · exact h.visible i b hb hl hops hlt
    · exact absurd h.published_le hlt.not_ge
  · rw [hh]
    rcases mem_concat.mp (hs ▸ hb) with hb | rfl
    · exact h.apart b hb hl hops
    · exact .inr (hnew hl hops)

theorem DeciderOk.append {d : Decider} (h : s.DeciderOk d) (hs : s'.slots = s.slots ++ [slot])
    (hlog : s.tip.log ≤ s'.tip.log) (hep : s'.tip.epoch = s.tip.epoch)
    (hmkr : s'.tip.marker = true → s.tip.marker = true) : s'.DeciderOk d := by
  have hlen : s'.slots.length = s.slots.length + 1 := by
    rw [hs, length_append, length_singleton]
  cases d with
  | idle => trivial
  | reading index =>
    have hle : index ≤ s.slots.length := h
    exact Nat.le_trans hle (by omega)
  | holding index tip =>
    obtain ⟨hle, hle', htip, hh, -⟩ := h
    refine ⟨hlen ▸ hle.trans (Nat.le_succ _), hle'.trans hlog, hep ▸ htip, fun hm he => hh (hmkr hm)
      (hep ▸ he), fun hi => ?_⟩
    omega

theorem PublisherOk.append (h : s.PublisherOk p) (hs : s'.slots = s.slots ++ [slot])
    (hpub : s'.published = s.published) (hh : s'.horizon = s.horizon)
    (hdur : ∀ a ∈ s.slots, a.isWritten s.durable = true → a.isWritten s'.durable = true) :
    s'.PublisherOk p := by
  refine h.mono (fun {i a} ha => ⟨a, ?_, .refl a, fun hr =>
    ⟨hr.1, hdur a (mem_of_getElem? ha) hr.2⟩⟩) hpub.ge hh.ge
  rw [hs]
  exact (List.getElem?_append_left (lt_of_getElem? ha)).trans ha

theorem Flags.append (h : s.Flags) (hsls : s'.slots = s.slots ++ [slot])
    (hr : s'.round = s.round) (hinFlight : s'.inFlight = s.inFlight)
    (hunmk : s'.unmarked = s.unmarked) (hep : s'.tip.epoch = s.tip.epoch)
    (hm : s'.tip.marker = s.tip.marker) (hfail : slot.failed = slot.discarded)
    (hrests : slot.written = true → slot.rests = true) (hle : slot.after.epoch ≤ s.tip.epoch)
    (hstale : slot.discarded = true ∨ s.tip.marker = true → slot.after.epoch < s.tip.epoch) :
    s'.Flags := by
  have hmem : ∀ {P : RingSlot → Prop}, (∀ b ∈ s.slots, P b) → P slot → ∀ b ∈ s'.slots, P b :=
    fun hall hs => hsls ▸ forall_mem_concat.mpr ⟨hall, hs⟩
  refine ⟨hmem h.failed fun hf => hfail ▸ hf, fun hd => ?_, hmem h.rests fun _ => hrests,
    fun i hi => ?_, fun i hi => ?_, ?_, ?_, ?_⟩
  · exact hmem (h.discarded (hr ▸ hd)) fun hd => hfail.trans hd
  · rw [hsls, length_append]
    exact Nat.lt_of_lt_of_le (h.inFlight i (hinFlight ▸ hi)) (Nat.le_add_right _ _)
  · obtain ⟨a, ha, hor⟩ := h.unmarked i (hunmk ▸ hi)
    refine ⟨a, ?_, hor⟩
    rw [hsls]
    exact (List.getElem?_append_left (lt_of_getElem? ha)).trans ha
  · rw [hep]
    exact hmem h.epoch hle
  · rw [hep, hm]
    exact hmem h.stale hstale
  · rw [hm, hr]
    exact h.marker

theorem Flagged.append (h : s.Flagged x) (hs : s'.slots = s.slots ++ [slot])
    (hlog : s'.tip.log = s.tip.log)
    (hbeg : slot.discarded = false → ∀ p ∈ slot.place, x ≤ p.offset) : s'.Flagged x := by
  intro b hb hl hin p hp hlt
  rcases mem_concat.mp (hs ▸ hb) with hb | rfl
  · exact h b hb hl (hin.trans hlog) p hp hlt
  · exact absurd hlt (not_lt.mpr (hbeg hl p hp))

theorem RoundOk.append (h : s.RoundOk r) (hr : r.holdsTip = false)
    (hs : s'.slots = s.slots ++ [slot]) (hlog : s'.tip.log = s.tip.log)
    (hn : s.tip.nextOff ≤ s'.tip.nextOff)
    (hbeg : slot.discarded = false → ∀ p ∈ slot.place, s.tip.nextOff ≤ p.offset) :
    s'.RoundOk r := by
  have hlen : s.slots.length ≤ s'.slots.length := by
    rw [hs, length_append]
    exact Nat.le_add_right _ _
  have hbds : ∀ {last through}, s.Bounds last through → s'.Bounds last through := by
    intro last through hb
    refine ⟨hb.last_le.trans hlen, hb.through_le.trans hn, fun i b hi hl hin p hp => ?_⟩
    rcases getElem?_append_singleton (hs ▸ hi) with hi | ⟨rfl, rfl⟩
    · exact hb.split i b hi hl (hin.trans hlog) p hp
    · exact ⟨fun hlt => absurd hb.last_le hlt.not_ge, fun _ => hb.through_le.trans (hbeg hl p hp)⟩
  cases r with
  | loaded last through => exact hbds h
  | scanning next last through =>
    refine ⟨hbds h.1, h.2.1.trans hlen, fun i b hi hlt hl hin => ?_⟩
    rcases getElem?_append_singleton (hs ▸ hi) with hi | ⟨rfl, -⟩
    · exact h.2.2 i b hi hlt hl (hlog ▸ hin)
    · exact absurd h.2.1 hlt.not_ge
  | syncing through =>
    exact ⟨h.1.append hs hlog fun hl p hp => h.2.trans (hbeg hl p hp), h.2.trans hn⟩
  | free | synced | frozen | marked | judging => trivial
  | judged | turned | cut | failed => cases hr

theorem ends_of_not_holdsTip (tip : TipState) (h : r.holdsTip = false) :
    r.ends tip = (tip.nextSeq, tip.nextOff) := by
  cases r with
  | judged | turned | cut | failed => cases h
  | _ => rfl

/-- The slots still lie one after the other. -/
theorem Laid.append (h : s.Laid first) (hr : s.round.holdsTip = false) (hshape : slot.Shape)
    (hl : slot.discarded = false) (hf : slot.Follows s.tip) (pending : Option RingSlot) :
    Laid first { s with slots := s.slots ++ [slot], pending, tip := slot.after } := by
  have hends := ends_of_not_holdsTip s.tip hr
  have hends' := ends_of_not_holdsTip slot.after hr
  refine ⟨forall_mem_concat.mpr ⟨h.shape, hshape⟩, ?_, fun log => ?_, forall_mem_concat.mpr
    ⟨fun b hb => (h.log_le b hb).trans hf.log.ge, le_rfl⟩,
    fun i b hb hd hpl hlog => ?_⟩
  · have hseqs := h.seqs
    simp only [hends] at hseqs
    simp only [filterMap_append, hends', hf.nextSeq]
    by_cases hops : 0 < slot.ops
    · rw [filterMap_cons_some (seqSpan?_of_live hl hops), filterMap_nil, tiles_concat]
      simp only [hf.base hops, RingSlot.stop, and_true]
      exact hseqs
    · have hn : slot.seqSpan? = none := if_neg fun hand => hops hand.2
      rw [filterMap_cons_none hn, filterMap_nil, append_nil,
        Nat.eq_zero_of_not_pos hops, Nat.add_zero]
      exact hseqs
  · obtain ⟨e, ht, hle, he⟩ := h.records log
    simp only [filterMap_append]
    cases hs : slot.spanIn? log with
    | none =>
      refine ⟨e, ?_, hle, fun hlog => ?_⟩
      · rw [filterMap_cons_none hs, filterMap_nil, append_nil]
        exact ht
      · have hin : slot.after.log = log := hlog.symm
        have hpl : slot.place = none := by
          rw [RingSlot.spanIn?, if_pos ⟨hl, hin⟩, map_eq_none_iff] at hs
          exact hs
        simp only [hends', hf.nextOff hpl]
        rw [he (hlog.trans hf.log), hends]
    | some span =>
      obtain ⟨-, hin, place, hpl, rfl⟩ := spanIn?_eq_some hs
      obtain ⟨hoff, hstop⟩ := hf.offset place hpl
      have hlog : log = s.tip.log := hin.symm.trans hf.log
      have heq : e = s.tip.nextOff := (he hlog).trans (congrArg Prod.snd hends)
      refine ⟨place.stop, ?_, ?_, fun _ => ?_⟩
      · rw [filterMap_cons_some hs, filterMap_nil, tiles_concat]
        simp only [hoff, and_true]
        exact heq ▸ ht
      · have hstop : place.stop = place.offset + place.len := rfl
        exact hle.trans (by omega)
      · simp only [hends', hstop]
  · rcases getElem?_append_singleton hb with hb | ⟨rfl, rfl⟩
    · exact h.old i b hb hd hpl (hf.log ▸ hlog)
    · exact absurd rfl hlog

variable (h : s.Sound first)

include h

theorem Sound.durable_le : s.durable s.tip.log ≤ (s.round.ends s.tip).2 := by
  obtain ⟨e, -, hle, he⟩ := h.laid.records s.tip.log
  exact he rfl ▸ hle

/-- A slot that follows the tip is taken in, and the tip moves to it. -/
theorem Sound.append (slot : RingSlot) (pending : Option RingSlot)
    (hr : s.round.holdsTip = false) (hs : slot.Shape) (hl : slot.discarded = false)
    (hf : slot.failed = false) (hrests : slot.written = true → slot.rests = true)
    (hep : slot.after.epoch = s.tip.epoch) (hfol : slot.Follows s.tip)
    (hpend : ∀ next ∈ pending, s.PendingOk next ∧ next.after.epoch ≠ s.tip.epoch) :
    Sound first { s with slots := s.slots ++ [slot], pending, tip := slot.after } := by
  have hmkr : s.tip.marker = false := h.flags.marker.trans hr
  have hends := ends_of_not_holdsTip s.tip hr
  have hends' := ends_of_not_holdsTip slot.after hr
  have hbeg : ∀ p ∈ slot.place, s.tip.nextOff ≤ p.offset := fun p hp =>
    (hfol.offset p hp).1.ge
  have hnext : s.tip.nextOff ≤ slot.after.nextOff := by
    cases hpl : slot.place with
    | none => exact (hfol.nextOff hpl).ge
    | some p =>
      obtain ⟨hoff, hstop⟩ := hfol.offset p hpl
      rw [hstop, Place.stop]
      omega
  have hb : s.horizon < s.tip.nextSeq := by
    have hlt := h.covers.below
    rwa [hends] at hlt
  have hdur := h.durable_le
  rw [hends] at hdur
  refine ⟨h.laid.append hr hs hl hfol pending, ?_, ?_, ?_, fun next hn => ?_,
    fun d hd => (h.deciders d hd).append rfl hfol.log.ge hep fun hm => ?_,
    fun p hp => (h.publishers p hp).append rfl rfl rfl fun _ _ => id,
    h.turned.append rfl rfl hfol.log hnext fun _ => hbeg, h.forgot,
    h.round.append hr rfl hfol.log hnext fun _ => hbeg⟩
  · rw [show slot.after.log = s.tip.log from hfol.log]
    exact h.durable.append rfl hfol.log fun _ p hp => hdur.trans (hbeg p hp)
  · exact h.flags.append rfl rfl rfl rfl hep (hs.marker.trans hmkr.symm)
      (hf.trans hl.symm) hrests hep.le fun hor => by simp [hl, hmkr] at hor
  · refine h.covers.append rfl (h.covers.decided_le.trans (Nat.le_succ _)) rfl rfl
      (fun _ _ => id) (fun _ hops => hfol.base hops ▸ hb) ?_
    rw [hends']
    exact Nat.lt_of_lt_of_le hb (hfol.nextSeq ▸ Nat.le_add_right _ _)
  · obtain ⟨hok, hne⟩ := hpend next hn
    exact ⟨hok.shape, hok.fresh, hok.log_le.trans hfol.log.ge, hep ▸ hok.epoch_le,
      fun hm => by simp [hs.marker] at hm, fun heq => absurd (heq.trans hep) hne⟩
  · simp [hs.marker] at hm

theorem Sound.moveTip (hs : s.moveTip = some s') : s'.Sound first := by
  obtain ⟨slot, hslot, hs⟩ := bind_eq_some_iff.mp hs
  obtain ⟨⟨hep, -⟩, rfl⟩ := guarded_eq_some.mp hs
  obtain ⟨hshape, ⟨hwr, hf, hl⟩, -, -, hh, hn⟩ := h.pending slot hslot
  have hr : s.round.holdsTip = false := by
    rw [← h.flags.marker]
    exact Bool.eq_false_iff.mpr fun hm => (hh hm).ne hep
  exact h.append slot none hr hshape hl hf (by simp [hwr]) hep (hn hep) (by simp)

omit h in
theorem Laid.appendNothing (h : s.Laid first) (hshape : slot.Shape) (hseq : slot.seqSpan? = none)
    (hs : ∀ log, slot.spanIn? log = none) (hlog : slot.after.log ≤ s.tip.log)
    (hin : slot.discarded = true ∨ slot.place = none) (pending : Option RingSlot) :
    Laid first { s with slots := s.slots ++ [slot], pending } := by
  refine ⟨forall_mem_concat.mpr ⟨h.shape, hshape⟩, ?_, fun log => ?_,
    forall_mem_concat.mpr ⟨h.log_le, hlog⟩, fun i b hb hd hpl hne => ?_⟩
  · simp only [filterMap_append, filterMap_cons_none hseq, filterMap_nil, append_nil]
    exact h.seqs
  · simp only [filterMap_append, filterMap_cons_none (hs log), filterMap_nil, append_nil]
    exact h.records log
  · rcases getElem?_append_singleton hb with hb | ⟨rfl, rfl⟩
    · exact h.old i b hb hd hpl hne
    · rcases hin with hd' | hn
      · cases hd.symm.trans hd'
      · simp [hn] at hpl

theorem Sound.appendNothing (slot : RingSlot) (hr : s.round.holdsTip = false)
    (hshape : slot.Shape) (hf : slot.failed = slot.discarded) (hwr : slot.written = false)
    (hlog : slot.after.log ≤ s.tip.log)
    (hnothing : slot.discarded = true ∧ slot.after.epoch < s.tip.epoch ∨
      slot.discarded = false ∧ slot.ops = 0 ∧ slot.place = none ∧ slot.after.epoch = s.tip.epoch) :
    Sound first { s with slots := s.slots ++ [slot], pending := none } := by
  have hmkr : s.tip.marker = false := h.flags.marker.trans hr
  have hl : slot.discarded = false → slot.ops = 0 ∧ slot.place = none := by
    intro hd
    rcases hnothing with ⟨hd', -⟩ | ⟨-, hops, hpl, -⟩
    · cases hd.symm.trans hd'
    · exact ⟨hops, hpl⟩
  have hnoPlace : slot.discarded = false → ∀ {x : Nat}, ∀ p ∈ slot.place, x ≤ p.offset := by
    intro hd x p hp
    simp [(hl hd).2] at hp
  have hseq : slot.seqSpan? = none := if_neg fun hand => by
    rw [(hl hand.1).1] at hand
    exact lt_irrefl 0 hand.2
  have hspan : ∀ log, slot.spanIn? log = none := by
    intro log
    by_cases hd : slot.discarded = true
    · exact spanIn?_of_discarded hd
    · rw [RingSlot.spanIn?, (hl (Bool.eq_false_iff.mpr hd)).2, map_none, ite_self]
  have hin : slot.discarded = true ∨ slot.place = none :=
    hnothing.imp And.left fun hn => hn.2.2.1
  refine ⟨h.laid.appendNothing hshape hseq hspan hlog hin none, h.durable.append rfl rfl
    (fun hd => hnoPlace hd), ?_, ?_, by simp,
    fun d hd => (h.deciders d hd).append rfl le_rfl rfl id,
    fun p hp => (h.publishers p hp).append rfl rfl rfl fun _ _ => id,
    h.turned.append rfl rfl rfl le_rfl (fun hd => hnoPlace hd), h.forgot,
    h.round.append hr rfl rfl le_rfl fun hd => hnoPlace hd⟩
  · refine h.flags.append rfl rfl rfl rfl rfl rfl hf (by simp [hwr]) ?_ fun hor => ?_
    · exact hnothing.elim (fun hs => hs.2.le) fun hn => hn.2.2.2.le
    · rcases hor with hd | hm
      · rcases hnothing with hs | hn
        · exact hs.2
        · cases hd.symm.trans hn.1
      · rw [hmkr] at hm
        cases hm
  · refine h.covers.append rfl (h.covers.decided_le.trans (Nat.le_succ _)) rfl rfl
      (fun _ _ => id) (fun hd hops => ?_) h.covers.below
    rw [(hl hd).1] at hops
    exact absurd hops (lt_irrefl 0)

omit h in
theorem holdsTip_of_not_frozen (h : r.freezesDecided = false) : r.holdsTip = false := by
  cases r with
  | free | loaded | scanning | syncing | synced => rfl
  | _ => cases h

theorem Sound.settleStale (hs : s.settleStale = some s') :
    s'.Sound first := by
  obtain ⟨slot, hslot, hs⟩ := bind_eq_some_iff.mp hs
  obtain ⟨⟨hep, hf, -⟩, rfl⟩ := guarded_eq_some.mp hs
  obtain ⟨hshape, ⟨hwr, -, -⟩, hlog, hle, -, -⟩ := h.pending slot hslot
  exact h.appendNothing { slot with failed := true, discarded := true }
    (holdsTip_of_not_frozen hf) ⟨hshape.place, hshape.marker⟩ rfl hwr hlog
    (.inl ⟨rfl, lt_of_le_of_ne hle hep⟩)

/-! ### Rounds -/

theorem Sound.setRound {round : RingRound} {poisoned : Bool} {turned : Nat}
    (hr : s.round = r) (he : round.ends s.tip = r.ends s.tip)
    (hh : round.holdsTip = r.holdsTip)
    (hdiscarding : round.isDiscarding = false → r.isDiscarding = false)
    (ht : s.RoundOk (.syncing turned)) (hforgot : round.isCut = true → turned = 0)
    (hrnd : s.RoundOk round) : Sound first { s with round, poisoned, turned } := by
  subst hr
  exact h.marks poisoned (.refl SlotMarks.refl _) he hh
    (fun hr => h.flags.discarded (hdiscarding hr)) h.flags.rests h.flags.inFlight h.flags.unmarked
    ht hforgot hrnd

theorem Sound.beginRound (hr : s.round = .free) :
    Sound first { s with round := .loaded s.slots.length s.tip.nextOff } := by
  refine h.setRound hr rfl rfl (fun _ => rfl) h.turned nofun
    ⟨le_rfl, le_rfl, fun i b hb hl hlog p hp => ?_⟩
  have hs := h.laid.stop_le_nextOff (mem_of_getElem? hb) hl hlog hp
  rw [hr] at hs
  exact ⟨fun _ => hs, fun hle => absurd (lt_of_getElem? hb) hle.not_gt⟩

omit h in
theorem isIn_eq_true {log : Nat} :
    slot.isIn log = true ↔ (∃ p, slot.place = some p) ∧ slot.after.log = log := by
  rw [RingSlot.isIn, Bool.and_eq_true, decide_eq_true_iff, isSome_iff_exists]

omit h in
theorem written_of_isWritten {durable : Nat → Nat} {p : Place} (hpl : slot.place = some p)
    (h : slot.isWritten durable = true) : slot.written = true := by
  rw [isWritten, hpl, Bool.and_eq_true] at h
  exact h.1

theorem Sound.written_of_published {i : Nat} {p : Place}
    (hs : s.slots[i]? = some slot) (hl : slot.discarded = false)
    (hpl : slot.place = some p) (hlt : i < s.published) : slot.written = true :=
  written_of_isWritten hpl (h.covers.written i slot hs hl
    ((h.laid.shape slot (mem_of_getElem? hs)).place p hpl).1 (.inl hlt))

theorem Sound.loadPublished {through : Nat} (hr : s.round = .loaded last through) :
    Sound first { s with round := .scanning s.published last through } := by
  have hbds : s.Bounds last through := by
    have hok := h.round
    rwa [hr] at hok
  refine h.setRound hr rfl rfl (fun _ => rfl) h.turned nofun
    ⟨hbds, h.covers.published_le, fun i b hb hlt hl hin => ?_⟩
  obtain ⟨⟨p, hp⟩, -⟩ := isIn_eq_true.mp hin
  exact h.written_of_published hb hl hp hlt

theorem Sound.beginSync {through upto : Nat} (hr : s.round = .scanning next last through)
    (hu : s.RoundOk (.syncing upto)) : (s.beginSync upto).Sound first := by
  rw [RingState.beginSync]
  split_ifs
  · exact h.setRound hr rfl rfl (fun _ => rfl) h.turned nofun hu
  · exact h.setRound hr rfl rfl (fun _ => rfl) h.turned nofun trivial

omit h

def scanned (s : RingState) : Option RingSlot :=
  match s.round with
  | .scanning next last _ =>
    if next < last then
      s.slots[next]?.filter fun slot => slot.isIn s.tip.log && !slot.written
    else none
  | _ => none

include h

/-- The prefix grows past a written record, or ends at one that is not. -/
theorem Sound.scanNext {through : Nat} (hrnd : s.round = .scanning next last through)
    (hscanned : ∀ slot ∈ s.scanned, slot.failed = false)
    (hs : s.scanNext next last through = some s') : s'.Sound first := by
  obtain ⟨hbds, hn, hwr⟩ : s.RoundOk (.scanning next last through) := hrnd ▸ h.round
  rw [RingState.scanNext] at hs
  by_cases hlt : next < last
  · rw [if_pos hlt] at hs
    obtain ⟨slot, hslot, rfl⟩ := map_eq_some_iff.mp hs
    -- a slot with no record of this log that is not written is passed over
    have hpass : (slot.isIn s.tip.log = true → slot.written = true) →
        Sound first { s with round := .scanning (next + 1) last through } := by
      intro hin
      refine h.setRound hrnd rfl rfl (fun _ => rfl) h.turned nofun
        ⟨hbds, (lt_of_getElem? hslot), fun i b hb hi hl hin' => ?_⟩
      rcases Nat.lt_succ_iff_lt_or_eq.mp hi with hi | rfl
      · exact hwr i b hb hi hl hin'
      · obtain rfl := mem_unique hslot hb
        exact hin hin'
    cases hpl : slot.place with
    | none => exact hpass fun hin => by simp [RingSlot.isIn, hpl] at hin
    | some place =>
      split_ifs with hor
      · exact hpass fun hin => hor.resolve_left fun hne => hne (isIn_eq_true.mp hin).2
      · rw [not_or, not_not, Bool.not_eq_true] at hor
        have hl : slot.discarded = false := by
          refine Bool.eq_false_iff.mpr fun hd => ?_
          have hf := h.flags.discarded (hrnd ▸ rfl) slot (mem_of_getElem? hslot) hd
          rw [hscanned slot ?_] at hf
          · cases hf
          · rw [scanned, hrnd]
            simp [hlt, hslot, RingSlot.isIn, hpl, hor.1, hor.2]
        have hend : place.stop = place.offset + place.len := rfl
        refine h.beginSync hrnd ⟨fun b hb hb' hlog p hp hbel => ?_, ?_⟩
        · obtain ⟨i, hi⟩ := mem_iff_getElem?.mp hb
          rcases Nat.lt_trichotomy i next with hin | rfl | hin
          · exact ⟨hwr i b hi hin hb' (isIn_eq_true.mpr ⟨⟨p, hp⟩, hlog⟩),
              h.laid.stop_le_offset hin hi hslot hb' hl (hlog.trans hor.1.symm) hp hpl⟩
          · obtain rfl := mem_unique hslot hi
            obtain rfl := mem_unique hpl hp
            exact absurd hbel (lt_irrefl _)
          · have ho := h.laid.stop_le_offset hin hslot hi hl hb' (hor.1.trans hlog.symm) hpl hp
            omega
        · have hstop := h.laid.stop_le_nextOff (mem_of_getElem? hslot) hl hor.1 hpl
          rw [hrnd] at hstop
          exact Nat.le_trans (by omega) hstop
  · rw [if_neg hlt, some.injEq] at hs
    subst hs
    refine h.beginSync hrnd ⟨fun b hb hb' hlog p hp hbel => ?_, hbds.through_le⟩
    obtain ⟨i, hi⟩ := mem_iff_getElem?.mp hb
    obtain ⟨hfst, hr⟩ := hbds.split i b hi hb' hlog p hp
    have hlast : i < last := Nat.lt_of_not_le fun hle => absurd (hr hle) hbel.not_ge
    exact ⟨hwr i b hi (by omega) hb' (isIn_eq_true.mpr ⟨⟨p, hp⟩, hlog⟩), hfst hlast⟩

omit h in
theorem isWritten_of_le {durable durable' : Nat → Nat}
    (hle : durable slot.after.log ≤ durable' slot.after.log) (h : slot.isWritten durable = true) :
    slot.isWritten durable' = true := by
  rw [isWritten] at h ⊢
  cases hpl : slot.place with
  | none => rfl
  | some place =>
    simp only [hpl, Bool.and_eq_true, Bool.or_eq_true, decide_eq_true_iff] at h ⊢
    exact ⟨h.1, h.2.imp_right fun hs => hs.trans hle⟩

omit h in
theorem PublisherOk.durable {durable : Nat → Nat} (h : s.PublisherOk p)
    (hle : ∀ log, s.durable log ≤ durable log) : PublisherOk { s with durable } p :=
  h.mono (fun {_ a} ha => ⟨a, ha, .refl a, fun hr =>
    ⟨hr.1, isWritten_of_le (hle _) hr.2⟩⟩) le_rfl le_rfl

/-- A sync covers records that are written. -/
theorem Sound.setDurable (hr : s.round.holdsTip = false)
    (hx : s.RoundOk (.syncing x)) (hle : s.durable s.tip.log ≤ x) :
    Sound first { s with durable := update s.durable s.tip.log x } := by
  have hends := ends_of_not_holdsTip s.tip hr
  have hmono : ∀ log, s.durable log ≤ update s.durable s.tip.log x log := by
    intro log
    by_cases hlog : log = s.tip.log
    · rw [hlog, update_self]
      exact hle
    · rw [update_of_ne hlog]
  refine ⟨{ h.laid with records := fun log => ?_ }, ?_, { h.flags with },
    { h.covers with written := fun i b hb hl hops hc =>
        isWritten_of_le (hmono _) (h.covers.written i b hb hl hops hc) },
    fun next hn => { h.pending next hn with }, h.deciders,
    fun p hp => (h.publishers p hp).durable hmono,
    h.turned.marks (.refl SlotMarks.refl _) rfl le_rfl, h.forgot,
    h.round.marks (.refl SlotMarks.refl _) rfl le_rfl⟩
  · obtain ⟨e, ht, hdur, he⟩ := h.laid.records log
    refine ⟨e, ht, ?_, he⟩
    by_cases hlog : log = s.tip.log
    · simp only [hlog, update_self, he hlog, hends]
      exact hx.2
    · simp only [update_of_ne hlog]
      exact hdur
  · simp only [update_self]
    exact hx.1

omit h in
theorem RoundOk.syncing_min {y : Nat} (hx : s.RoundOk (.syncing x)) (hy : s.RoundOk (.syncing y)) :
    s.RoundOk (.syncing (min x y)) := by
  refine ⟨fun b hb hl hlog p hp hlt => ?_, (Nat.min_le_left _ _).trans hx.2⟩
  obtain ⟨hwr, hs⟩ := hx.1 b hb hl hlog p hp (hlt.trans_le (Nat.min_le_left _ _))
  exact ⟨hwr, le_min hs (hy.1 b hb hl hlog p hp (hlt.trans_le (Nat.min_le_right _ _))).2⟩

omit h in
theorem RoundOk.syncing_zero : s.RoundOk (.syncing 0) :=
  ⟨fun _ _ _ _ _ _ hlt => absurd hlt (Nat.not_lt_zero _), Nat.zero_le _⟩

theorem Sound.park (hr : s.round = .syncing through) : (s.park through).Sound first := by
  have hthru : s.RoundOk (.syncing through) := hr ▸ h.round
  refine h.setRound hr rfl rfl (fun _ => rfl) ?_ nofun trivial
  split_ifs
  · exact hthru
  · exact h.turned

theorem Sound.syncThrough {fails : Bool}
    (hrnd : s.round = .syncing through) : (s.syncThrough through fails).Sound first := by
  have hthru : s.RoundOk (.syncing through) := hrnd ▸ h.round
  have hh : s.round.holdsTip = false := hrnd ▸ rfl
  have hset : ∀ {t : RingState} (poisoned : Bool), t.Sound first → t.round = .syncing through →
      Sound first { t with round := .synced, turned := 0, poisoned } := fun poisoned ht hr =>
    ht.setRound hr rfl rfl (fun _ => rfl) .syncing_zero nofun trivial
  have hu : s.RoundOk (.syncing (if s.turned = 0 then through else min s.turned through)) := by
    split_ifs
    · exact hthru
    · exact h.turned.syncing_min hthru
  rw [RingState.syncThrough]
  generalize (if s.turned = 0 then through else min s.turned through) = upto at hu ⊢
  split_ifs with hor
  · exact hset s.poisoned h hrnd
  · exact hset true h hrnd
  · rw [not_or, not_le] at hor
    have hdur := h.setDurable hh hu hor.1.le
    rw [max_eq_right hor.1.le]
    exact hset s.poisoned hdur hrnd

theorem Sound.endRound (hr : s.round = .synced) :
    Sound first { s with round := if s.poisoned then .frozen else .free } := by
  split_ifs
  · exact h.setRound hr rfl rfl (fun _ => rfl) h.turned nofun trivial
  · exact h.setRound hr rfl rfl (fun _ => rfl) h.turned nofun trivial

/-! ### Rotating -/

/-- A drained pipeline goes on with a fresh log and memtable. -/
theorem Sound.rotate {stampLen : Nat} {synced : Bool}
    (hr : s.round = .free) (hpend : s.pending.isNone = true)
    (hpub : s.published = s.slots.length) : (s.rotate stampLen synced).Sound first := by
  have hnone : s.pending = none := isNone_iff_eq_none.mp hpend
  have hlog : ∀ slot ∈ s.slots, slot.after.log ≠ s.tip.log + 1 := fun slot hs =>
    Nat.ne_of_lt (Nat.lt_succ_of_le (h.laid.log_le slot hs))
  have hmono : ∀ slot ∈ s.slots, s.durable slot.after.log ≤
      (s.rotate stampLen synced).durable slot.after.log := by
    intro slot hs
    simp only [RingState.rotate, update_of_ne (hlog slot hs)]
    by_cases heq : slot.after.log = s.tip.log
    · rw [heq, update_self]
      exact le_max_left _ _
    · rw [update_of_ne heq]
  have hends : s.round.ends s.tip = (s.tip.nextSeq, s.tip.nextOff) :=
    ends_of_not_holdsTip s.tip (hr ▸ rfl)
  have hbel : s.horizon < s.tip.nextSeq := by
    have hlt := h.covers.below
    rwa [hends] at hlt
  have hmkr : s.tip.marker = false := h.flags.marker.trans (hr ▸ rfl)
  refine ⟨⟨fun b hb => ?_, ?_, fun log => ?_, fun b hb => ?_, fun i b hb hl hpl hne => ?_⟩,
    fun b hb hl hin p hp => ?_, ?_, ?_, fun next hn => ?_,
    fun d hd => (h.deciders d hd).append rfl (Nat.le_succ _) rfl fun hm => ?_,
    fun p hp => (h.publishers p hp).append rfl rfl rfl fun a ha => isWritten_of_le (hmono a ha),
    .syncing_zero, fun _ => rfl, ?_⟩
  · rcases mem_append.mp hb with hb | hb
    · exact h.laid.shape b hb
    · rw [mem_singleton.mp hb]
      exact ⟨by simp [unitSlot], rfl⟩
  · have hseqs := h.laid.seqs
    rw [hends] at hseqs
    simp only [RingState.rotate, filterMap_append, hr, RingRound.ends]
    rw [filterMap_cons_none (by rfl), filterMap_nil, append_nil]
    exact hseqs
  · have hunit : (s.rotate stampLen synced).slots.filterMap (RingSlot.spanIn? log) =
        s.slots.filterMap (RingSlot.spanIn? log) := by
      simp only [RingState.rotate, filterMap_append]
      rw [filterMap_cons_none (by simp [RingSlot.spanIn?, unitSlot]), filterMap_nil, append_nil]
    rw [hunit]
    obtain ⟨e, ht, hle, he⟩ := h.laid.records log
    by_cases hnew : log = s.tip.log + 1
    · refine ⟨stampLen, ?_, ?_, fun _ => ?_⟩
      · have hemp : s.slots.filterMap (RingSlot.spanIn? log) = [] :=
          filterMap_eq_nil_iff.mpr fun b hb =>
            if_neg fun hin => hlog b hb (hin.2.trans hnew)
        rw [hemp, hnew]
        simp only [RingState.rotate, update_self]
        exact rfl
      · simp only [RingState.rotate, hnew, update_self]
        split_ifs
        · exact le_rfl
        · exact Nat.zero_le _
      · simp only [RingState.rotate, hr, RingRound.ends]
    · refine ⟨e, ?_, ?_, fun heq => absurd heq hnew⟩
      · simp only [RingState.rotate, update_of_ne hnew]
        exact ht
      · simp only [RingState.rotate, update_of_ne hnew]
        by_cases heq : log = s.tip.log
        · have hn : e = s.tip.nextOff := (he heq).trans (congrArg Prod.snd hends)
          rw [heq] at hle
          rw [heq, update_self]
          exact max_le hle hn.ge
        · rw [update_of_ne heq]
          exact hle
  · rcases mem_append.mp hb with hb | hb
    · exact (h.laid.log_le b hb).trans (Nat.le_succ _)
    · rw [mem_singleton.mp hb]
      exact le_rfl
  · rcases getElem?_append_singleton hb with hb | ⟨rfl, rfl⟩
    · have hlt := lt_of_getElem? hb
      exact hpub ▸ hlt
    · exact absurd rfl hne
  · rcases mem_append.mp hb with hb | hb
    · exact absurd hin (hlog b hb)
    · rw [mem_singleton.mp hb] at hp
      cases hp
  · exact h.flags.append rfl rfl rfl rfl rfl hmkr.symm rfl (by simp [unitSlot]) le_rfl fun hor => by
      simp [unitSlot, hmkr] at hor
  · refine h.covers.append rfl (Nat.succ_le_succ h.covers.decided_le) rfl rfl
      (fun a ha => isWritten_of_le (hmono a ha)) (fun _ hops => absurd hops (lt_irrefl 0)) ?_
    simp only [RingState.rotate, hr, RingRound.ends]
    exact hbel
  · rw [show (s.rotate stampLen synced).pending = none from hnone] at hn
    cases hn
  · simp [RingState.rotate] at hm
  · rw [show (s.rotate stampLen synced).round = .free from hr]
    trivial

end RingState

end RegolithStore
