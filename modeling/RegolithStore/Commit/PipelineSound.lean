import RegolithStore.Commit.Contents
import RegolithStore.Lib.Pointwise

/-! Every step of the pipeline keeps what its published view is said to hold. -/

namespace RegolithStore

open Lib List Function ReadView Slot LoadedView

variable {engine : Engine} {base : ReadView} {s s' : PipelineState} {slot x : Slot} {o : Outline}

namespace LoadedView

variable {v : LoadedView} {memtables : Nat → MemTable} {id : Nat} {m : MemTable}

theorem resolve_update (h : id ∉ v.memtables) :
    v.resolve (update memtables id m) = v.resolve memtables := by
  rw [LoadedView.memtables, mem_cons, not_or] at h
  rw [resolve, resolve, update_of_ne (Ne.symm h.1)]
  refine congrArg (ReadView.mk _ · _) (map_congr_left fun i hi => ?_)
  exact update_of_ne (fun heq : i = id => h.2 (heq ▸ hi)) _ _

theorem resolve_update_active (hnodup : v.memtables.Nodup) :
    v.resolve (update memtables v.active m) = { v.resolve memtables with active := m } := by
  rw [LoadedView.memtables, nodup_cons] at hnodup
  rw [resolve, resolve, update_self]
  refine congrArg (ReadView.mk _ · _) (map_congr_left fun i hi => ?_)
  exact update_of_ne (fun heq : i = v.active => hnodup.1 (heq ▸ hi)) _ _

theorem resolve_seal {fresh : Nat} {new : MemTable} (hnodup : v.memtables.Nodup)
    (hfr : ∀ i ∈ v.memtables, i ≠ fresh) : resolve ⟨fresh, v.frozen ++ [v.active], v.version⟩
      (update (update memtables v.active m) fresh new) =
      ⟨new, (v.resolve memtables).frozen ++ [m], v.version⟩ := by
  refine congrArg₂ (ReadView.mk · · _) (update_self ..) ?_
  rw [map_append]
  refine congrArg₂ (· ++ ·) (map_congr_left fun i hi => ?_) (congrArg ([·]) ?_)
  · rw [update_of_ne (hfr i (.tail _ hi)), update_of_ne]
    exact fun heq => (nodup_cons.mp hnodup).1 (heq ▸ hi)
  · rw [update_of_ne (hfr _ mem_cons_self), update_self]

end LoadedView

variable {tip : After} {slots : List Slot}

namespace PipelineState

variable {i : Nat} {work : Work}

/-! ### Steps that leave the outline alone -/

theorem erased_set {new : Slot} (h : slots[i]? = some slot) (hnew : new.erased = slot.erased) :
    (slots.set i new).map erased = slots.map erased := by
  refine ext_getElem? fun j => ?_
  rw [getElem?_map, getElem?_map]
  rcases eq_or_ne i j with rfl | hne
  · rw [List.getElem?_set_self (lt_of_getElem? h), h, Option.map_some, hnew, Option.map_some]
  · rw [getElem?_set_ne hne]

theorem outline_writeRecord (h : s.writeRecord i = some s') : s'.outline = s.outline := by
  obtain ⟨slot, hs, -, rfl⟩ := writeRecord_eq_some h
  exact congrArg (Outline.mk · _ _ _ _ _ _ _ _) (erased_set hs rfl)

theorem outline_applyLate (hsnd : s.outline.Sound base) (h : s.applyLate i = some s') :
    s'.outline = s.outline := by
  obtain ⟨slot, hs, hf, -, -, rfl⟩ := applyLate_eq_some h
  have hout : slot.decision.after.memtable ∉ s.view.memtables :=
    hsnd.placed.retired slot.erased (mem_map_of_mem (mem_of_getElem? hs)) hf
  exact congrArg₂ (Outline.mk · _ _ _ _ _ · _ _) (erased_set hs rfl) (resolve_update hout)

/-! ### Deciding and applying -/

theorem lands_isProper {view : ReadView} {writable : Except IoError Unit}
    {index : Nat} (hp : work.isProper = true) :
    ∀ op ∈ (decideWork engine view writable index work tip).lands work, op.isProper = true := by
  intro op hop
  have hadded : ∀ added, (decideWork engine view writable index work tip).batch = some added →
      op ∈ added → op.isProper = true := fun added hb hop => by
    obtain ⟨key, value, rfl⟩ := decideWork_batch_puts hb op hop
    rfl
  rw [Decision.lands] at hop
  split_ifs at hop with hops
  · cases hb : (decideWork engine view writable index work tip).batch with
    | none =>
      rw [hb] at hop
      cases work with
      | request request =>
        have hop : op ∈ request.ops := by cases request <;> exact hop
        exact all_eq_true.mp hp op hop
      | allocate key n abandoned => exact absurd hop not_mem_nil
    | some added =>
      rw [hb] at hop
      cases work with
      | request request =>
        cases request with
        | put key value durability disableWal | batch ops durability disableWal =>
          exact all_eq_true.mp hp op hop
        | txn txn =>
          rcases mem_append.mp hop with hop | hop
          · exact all_eq_true.mp hp op hop
          · exact hadded added hb hop
      | allocate key n abandoned => exact hadded added hb hop
  · exact absurd hop not_mem_nil

/-- Deciding changes nothing that is shown. -/
theorem sound_decideNext (h : s.outline.Sound base)
    (hs : s.decideNext engine work = some s') : s'.outline.Sound base := by
  obtain ⟨hn, hp, hf, rfl⟩ := decideNext_eq_some hs
  have hchns := decideWork_chains engine (s.readView s.view) s.writable s.slots.length work s.tip
  refine ⟨{ h.placed with }, { h.numbered with }, ?_, { h.shows with contents := fun w => ?_ }⟩
  · intro slot hslot
    cases hslot
    refine ⟨rfl, ⟨hchns.length, ?_⟩, ?_, lands_isProper hp, .inl ⟨hchns.epoch,
      hchns.memtable, hchns.baseSeq, hchns.nextSeq⟩⟩
    · rcases Nat.eq_zero_or_pos
        (decideWork engine (s.readView s.view) s.writable s.slots.length work s.tip).ops with h0 | h0
      · rw [Seq.Fits, h0, Nat.add_zero]
        exact UInt64.toNat_lt _
      · rw [hchns.baseSeq h0]
        exact hf
    · have hact : s.tip.memtable ∈ s.view.memtables := by
        rw [← show s.view.active = s.tip.memtable from h.placed.active]
        exact mem_cons_self
      rw [show (decideWork engine (s.readView s.view) s.writable s.slots.length work
        s.tip).after.memtable = s.tip.memtable from hchns.memtable]
      exact h.placed.known _ hact
  · refine (h.shows.contents w).trans (or_congr_right ?_)
    constructor
    · rintro ⟨slot, hslot, -⟩
      rw [show s.outline.pending = none from hn] at hslot
      cases hslot
    · rintro ⟨slot, hslot, ha, -⟩
      cases hslot
      cases ha

end PipelineState

variable {ops : List WriteBatchOp}

namespace Outline

theorem Sound.has_iff_held (h : o.Sound base)
    (hp : ∀ slot ∈ o.pending, slot.applied = true → ¬ o.Next slot) (w : Written) :
    o.shown.Has w ↔ o.Held base w :=
  (h.shows.contents w).trans <| or_iff_left fun ⟨slot, hs, ha, hn, _⟩ =>
    hp slot hs ha hn

/-- Operations applied at the tip's next sequence lie above everything shown. -/
theorem Sound.shown_apply (h : o.Sound base) (hh : ∀ w, o.shown.Has w ↔ o.Held base w)
    {seq : Seq} (hseq : seq = o.tip.nextSeq)
    (hf : seq.Fits ops.length) (hp : ∀ op ∈ ops, op.isProper = true) {shown : ReadView}
    (hs : shown = { o.shown with active := o.shown.active.apply ops seq }) :
    (∀ w, shown.Has w ↔ o.Held base w ∨ OpsWrite ops seq w) ∧ shown.LsmOrdered ∧
      shown.TombstonesProper := by
  subst hseq
  have hb : o.shown.Below o.tip.nextSeq :=
    below_iff.mpr fun w hw => h.held_lt ((hh w).mp hw)
  have hhas (w : Written) : shown.Has w ↔ o.Held base w ∨ OpsWrite ops o.tip.nextSeq w := by
    rw [hs, has_active, MemTable.has_apply hf hb.active, or_right_comm, ← ReadView.has_iff, hh]
  refine ⟨hhas, hs ▸ h.shows.ordered.apply hf hb ?_, tombstonesProper_iff.mpr fun t ht => ?_⟩
  · exact UInt64.lt_iff_toNat_lt.mpr (lt_of_le_of_lt (Nat.zero_le _) h.numbered.horizon)
  · rcases (hhas _).mp ht with ht | ht
    · exact tombstonesProper_iff.mp h.shows.proper t ((hh _).mpr ht)
    · exact OpsWrite.proper hp ht

end Outline

namespace PipelineState

/-- Applying shows the pending slot's writes. -/
theorem sound_applyNext (h : s.outline.Sound base) (hs : s.applyNext = some s') :
    s'.outline.Sound base := by
  obtain ⟨slot, hpend, hops, ha, rfl⟩ := applyNext_eq_some hs
  have hp := h.pending slot hpend
  -- what the view showed before holds nothing of the slot
  have hh := h.has_iff_held fun slot' hslot' happlied' => by
    obtain rfl := Option.mem_unique hpend hslot'
    rw [ha] at happlied'
    cases happlied'
  rcases hp.next with hn | hd
  · have hid : slot.decision.after.memtable = s.view.active := hn.memtable.trans h.placed.active.symm
    have hbase : slot.decision.baseSeq = s.outline.tip.nextSeq := hn.baseSeq hops
    have hf : slot.decision.baseSeq.Fits slot.ops.length := hp.counted.length ▸ hp.counted.fits
    obtain ⟨hhas, ho, hprop⟩ := h.shown_apply hh hbase hf hp.proper rfl
    have hshwn : s.view.resolve (s.applySlot slot) = { s.outline.shown with
        active := s.outline.shown.active.apply slot.ops slot.decision.baseSeq } := by
      rw [applySlot, hid]
      exact resolve_update_active h.placed.nodup
    dsimp only [outline, readView]
    rw [hshwn]
    refine ⟨{ h.placed with }, { h.numbered with }, fun slot' hslot' => ?_, { h.shows with
      contents := fun w => (hhas w).trans (or_congr_right ⟨fun hw => ?_, ?_⟩)
      ordered := ho
      proper := hprop }⟩
    · cases hslot'
      exact ⟨hp.failed, ⟨hp.counted.1, hp.counted.2⟩, hp.known, hp.proper, .inl { hn with }⟩
    · exact ⟨_, rfl, rfl, { hn with }, hw⟩
    · rintro ⟨slot', hslot', -, -, hw⟩
      cases hslot'
      exact hw
  · have hshwn : s.view.resolve (s.applySlot slot) = s.outline.shown :=
      resolve_update hd.memtable
    dsimp only [outline, readView]
    rw [hshwn]
    refine ⟨{ h.placed with }, { h.numbered with }, fun slot' hslot' => ?_,
      { h.shows with contents := fun w => (hh w).trans (or_iff_left ?_).symm }⟩
    · cases hslot'
      exact ⟨hp.failed, ⟨hp.counted.1, hp.counted.2⟩, hp.known, hp.proper, .inr { hd with }⟩
    · rintro ⟨slot', hslot', -, hn, -⟩
      cases hslot'
      exact absurd hn.epoch hd.epoch.ne

end PipelineState

/-! ### Settling -/

namespace Outline

theorem Placed.settle (h : o.Placed) (htip : tip.memtable = o.tip.memtable)
    (hle : o.published ≤ o.fates.length) (hknown : x.decision.after.memtable < o.fresh)
    (hretired : x.failed = true → x.decision.after.memtable ∉ o.view.memtables)
    (hl : x.failed = false → x.decision.after.memtable = o.tip.memtable) :
    ({ o with fates := o.fates ++ [x], pending := none, tip } : Outline).Placed where
  active := h.active.trans htip.symm
  nodup := h.nodup
  known := h.known
  slotKnown := forall_mem_concat.mpr ⟨h.slotKnown, hknown⟩
  retired := forall_mem_concat.mpr ⟨h.retired, hretired⟩
  unpublished := by
    rw [drop_append_of_le_length hle, htip]
    exact forall_mem_concat.mpr ⟨h.unpublished, hl⟩

theorem Numbered.settle (h : o.Numbered)
    (hl : o.published < o.fates.length → x.failed = false) (hcnt : x.Counted)
    (hf : x.Stands → x.first = o.tip.nextSeq.toNat)
    (hstop : x.Stands → x.stop ≤ tip.nextSeq.toNat)
    (hle : o.tip.nextSeq.toNat ≤ tip.nextSeq.toNat) :
    ({ o with fates := o.fates ++ [x], pending := none, tip } : Outline).Numbered := by
  have hd : (o.fates ++ [x]).drop o.published = o.fates.drop o.published ++ [x] :=
    drop_append_of_le_length h.publishedLe
  refine ⟨?_, ?_, forall_mem_concat.mpr ⟨h.counted, hcnt⟩, ?_, ?_, ?_, ?_, h.horizon.trans_le hle⟩
  · rw [length_append]
    exact h.publishedLe.trans (Nat.le_add_right _ _)
  · rw [hd]
    have hold := h.live
    cases hys : o.fates.drop o.published with
    | nil => exact fun y hy => by cases hy
    | cons y ys =>
      rw [hys] at hold
      refine forall_mem_concat.mpr ⟨hold, hl ?_⟩
      exact length_lt_of_drop_ne_nil (hys ▸ cons_ne_nil y ys)
  · refine pairwise_append.mpr ⟨h.ascending, pairwise_singleton _ _, fun a ha => ?_⟩
    exact forall_mem_singleton.mpr fun hs hs' => hf hs' ▸ h.below a ha hs
  · exact forall_mem_concat.mpr ⟨fun y hy hs => (h.below y hy hs).trans hle, hstop⟩
  · rw [take_append_of_le_length h.publishedLe]
    exact h.behind
  · rw [hd]
    exact forall_mem_concat.mpr ⟨h.ahead, fun hs => hf hs ▸ h.horizon⟩

theorem Sound.settle_doomed (h : o.Sound base) (hpend : o.pending = some slot)
    (hd : o.Doomed slot) :
    ({ o with fates := o.fates ++ [{ slot.erased with failed := true }], pending := none } :
      Outline).Sound base := by
  have hp := h.pending slot hpend
  have hnot : ¬ ({ slot.erased with failed := true } : Slot).Stands := fun hs => by cases hs.1
  refine ⟨h.placed.settle rfl h.numbered.publishedLe hp.known (fun _ => hd.memtable)
      (fun hl => by cases hl),
    h.numbered.settle (fun hlt => absurd hd.published hlt.ne) ⟨hp.counted.1, hp.counted.2⟩
      (fun hs => absurd hs hnot) (fun hs => absurd hs hnot) le_rfl,
    (fun x hx => by cases hx), { h.shows with contents := fun w => ?_ }⟩
  refine (h.shows.contents w).trans (or_congr (or_congr_right (or_congr_left ?_))
    (iff_of_false ?_ fun ⟨x, hx, _⟩ => by cases hx))
  · exact (exists_mem_concat.trans (or_iff_left fun hx => by cases hx.1)).symm
  · rintro ⟨x, hx, -, hn, -⟩
    obtain rfl := Option.mem_unique hpend hx
    exact hd.epoch.ne hn.epoch

theorem Next.toNat_nextSeq (hn : o.Next slot) (hcnt : slot.Counted) :
    slot.decision.after.nextSeq.toNat = o.tip.nextSeq.toNat + slot.decision.ops := by
  rw [hn.nextSeq]
  rcases Nat.eq_zero_or_pos slot.decision.ops with h0 | h0
  · rw [h0, Nat.add_zero]
    exact congrArg UInt64.toNat (UInt64.add_zero _)
  · exact Seq.toNat_add (hn.baseSeq h0 ▸ hcnt.fits)

/-- The frontier passes a slot decided from the tip. -/
theorem Sound.settle_next (h : o.Sound base) (hpend : o.pending = some slot)
    (hn : o.Next slot) (ha : 0 < slot.decision.ops → slot.applied = true) :
    ({ o with fates := o.fates ++ [slot.erased], pending := none, tip := slot.decision.after } :
      Outline).Sound base := by
  have hp := h.pending slot hpend
  have hseq := hn.toNat_nextSeq hp.counted
  have hfst : slot.erased.Stands → slot.erased.first = o.tip.nextSeq.toNat := fun hs =>
    congrArg UInt64.toNat (hn.baseSeq hs.2)
  refine ⟨h.placed.settle hn.memtable h.numbered.publishedLe hp.known
      (fun hf => absurd (hp.failed.symm.trans hf) Bool.false_ne_true)
      fun _ => hn.memtable,
    h.numbered.settle (fun _ => hp.failed) ⟨hp.counted.1, hp.counted.2⟩ hfst
      (fun hs => ?_) (by omega),
    (fun x hx => by cases hx), { h.shows with contents := fun w => ?_ }⟩
  · rw [hseq, ← hfst hs]
    rfl
  have hslot : (∃ x ∈ o.pending, x.applied = true ∧ o.Next x ∧ x.Writes w) ↔
      slot.erased.failed = false ∧ slot.erased.Writes w := by
    constructor
    · rintro ⟨x, hx, -, -, hw⟩
      obtain rfl := Option.mem_unique hpend hx
      exact ⟨hp.failed, hw⟩
    · exact fun hw => ⟨slot, hpend, ha (hp.counted.bounds hw.2).1, hn, hw.2⟩
  refine Iff.trans ?_ (or_iff_left fun ⟨x, hx, _⟩ => by cases hx).symm
  rw [h.shows.contents, hslot, Held, Held, or_assoc]
  exact or_congr_right (or_right_comm.trans (or_congr_left exists_mem_concat.symm))

end Outline

namespace PipelineState

theorem sound_settleNext (h : s.outline.Sound base) (hs : s.settleNext = some s') :
    s'.outline.Sound base := by
  obtain ⟨slot, hp, ⟨hep, rfl⟩ | ⟨hep, ha, rfl⟩⟩ := settleNext_eq_some hs
  · have hd : s.outline.Doomed slot :=
      (h.pending slot hp).next.resolve_left fun hn => hep hn.epoch.symm
    rw [outline, map_append]
    exact h.settle_doomed hp hd
  · have hn : s.outline.Next slot :=
      (h.pending slot hp).next.resolve_right fun hd => hd.epoch.ne hep.symm
    rw [outline, map_append]
    exact h.settle_next hp hn ha

end PipelineState

/-! ### Publishing -/

namespace Slot

variable {horizon : Seq}

theorem le_raiseHorizon (slot : Slot) (horizon : Seq) : horizon ≤ slot.raiseHorizon horizon := by
  rw [raiseHorizon]
  split_ifs
  · exact le_rfl
  · exact le_max_left _ _

theorem raiseHorizon_of_stands (h : slot.Stands) : slot.raiseHorizon horizon =
    max horizon (slot.decision.baseSeq + UInt64.ofNat slot.decision.ops - 1) := by
  rw [raiseHorizon, h.1, if_neg Bool.false_ne_true, Decision.lastSeq, if_pos h.2, Option.getD_some]

theorem raiseHorizon_of_not_stands (h : ¬ slot.Stands) : slot.raiseHorizon horizon = horizon := by
  rw [raiseHorizon, Decision.lastSeq]
  split_ifs with hf hpos
  · rfl
  · exact absurd ⟨Bool.eq_false_iff.mpr hf, hpos⟩ h
  · exact max_eq_left (OrderBot.bot_le horizon)

variable (hcnt : slot.Counted)

include hcnt

theorem stop_le_raiseHorizon (h : slot.Stands) :
    slot.stop ≤ (slot.raiseHorizon horizon).toNat + 1 := by
  have hl : _ = slot.stop - 1 := Seq.toNat_last hcnt.fits h.2
  have hle := UInt64.le_iff_toNat_le.mp (le_max_right horizon
    (slot.decision.baseSeq + UInt64.ofNat slot.decision.ops - 1))
  rw [raiseHorizon_of_stands h]
  omega

theorem raiseHorizon_lt {n : Nat} (h : horizon.toNat < n) (hs : slot.Stands → slot.stop ≤ n) :
    (slot.raiseHorizon horizon).toNat < n := by
  by_cases hstd : slot.Stands
  · have hl : _ = slot.stop - 1 := Seq.toNat_last hcnt.fits hstd.2
    have hle := hs hstd
    rw [raiseHorizon_of_stands hstd]
    rcases max_choice horizon (slot.decision.baseSeq + UInt64.ofNat slot.decision.ops - 1) with
      hmax | hmax <;> rw [hmax]
    · exact h
    · omega
  · rwa [raiseHorizon_of_not_stands hstd]

end Slot

namespace Outline

/-- Publishing raises the horizon over what is shown already. -/
theorem Sound.publish (h : o.Sound base) (hs : o.fates[o.published]? = some slot) :
    ({ o with published := o.published + 1, horizon := slot.raiseHorizon o.horizon } :
      Outline).Sound base := by
  obtain ⟨hlt, hget⟩ := List.getElem?_eq_some_iff.mp hs
  have hmem : slot ∈ o.fates := hget ▸ getElem_mem hlt
  have hcnt := h.numbered.counted slot hmem
  have hd : o.fates.drop o.published = slot :: o.fates.drop (o.published + 1) := by
    rw [drop_eq_getElem_cons hlt, hget]
  have ht : o.fates.take (o.published + 1) = o.fates.take o.published ++ [slot] := by
    rw [take_succ_eq_append_getElem hlt, hget]
  have hle := slot.le_raiseHorizon o.horizon
  have hleNat := UInt64.le_iff_toNat_le.mp hle
  refine ⟨{ h.placed with unpublished := fun x hx => h.placed.unpublished x ?_ },
    { h.numbered with
      publishedLe := hlt
      live := fun x hx => h.numbered.live x ?_
      behind := ht ▸ forall_mem_concat.mpr ⟨fun x hx hstd => ?_, fun hstd => ?_⟩
      ahead := fun x hx hstd => ?_
      horizon := slot.raiseHorizon_lt hcnt h.numbered.horizon (h.numbered.below slot hmem) },
    fun x hx => ?_, { h.shows with
      baseLe := fun w hw => (h.shows.baseLe w hw).trans hle
      backLe := fun back hb => (h.shows.backLe back hb).trans (Nat.add_le_add_right hleNat 1)
      contents := fun w => (h.shows.contents w).trans (or_congr_right ?_)
      belowActive := fun w hw => (h.shows.belowActive w hw).trans hle }⟩
  · rw [hd]
    exact .tail _ hx
  · rw [hd]
    exact mem_of_mem_tail hx
  · exact (h.numbered.behind x hx hstd).trans (Nat.add_le_add_right hleNat 1)
  · exact slot.stop_le_raiseHorizon hcnt hstd
  · refine slot.raiseHorizon_lt hcnt
      (h.numbered.ahead x (hd ▸ mem_cons_of_mem _ hx) hstd) fun hstands' => ?_
    have hasc := h.numbered.ascending.sublist (drop_sublist o.published o.fates)
    rw [hd, pairwise_cons] at hasc
    exact hasc.1 x hx hstands' hstd
  · have hp := h.pending x hx
    exact { hp with next := .inl (hp.next.elim (fun hn => { hn with })
      fun hdoom => absurd hdoom.published hlt.ne) }
  · constructor <;> exact fun ⟨x, hx, ha, hn, hw⟩ => ⟨x, hx, ha, { hn with }, hw⟩

end Outline

namespace PipelineState

theorem sound_publishNext (h : s.outline.Sound base) (hs : s.publishNext = some s') :
    s'.outline.Sound base := by
  obtain ⟨slot, hslot, -, rfl⟩ := publishNext_eq_some hs
  have hf : s.outline.fates[s.outline.published]? = some slot.erased := by
    change (s.slots.map erased)[s.published]? = _
    rw [getElem?_map, hslot, Option.map_some]
  have hpub := h.publish hf
  exact hpub

end PipelineState

/-! ### Rolling back -/

namespace Outline

theorem Sound.publishReady {durable : Nat} (h : o.Sound base)
    (hd : o.fates.drop o.published = slots.map erased) :
    ({ o with
      published := o.published + (publishReady durable o.horizon slots).1
      horizon := (RegolithStore.publishReady durable o.horizon slots).2 } : Outline).Sound base := by
  induction slots generalizing o with
  | nil => exact h
  | cons slot rest ih =>
    rw [RegolithStore.publishReady]
    split_ifs
    · have hs : o.fates[o.published]? = some slot.erased := by
        rw [← head?_drop, hd]
        rfl
      have hn := h.publish hs
      have hr : o.fates.drop (o.published + 1) = rest.map erased := by
        rw [← tail_drop, hd]
        rfl
      have hall := ih hn hr
      rw [Nat.add_right_comm] at hall
      exact hall
    · exact h

/-- The slots past the frontier are discarded, and the sequences from `floor` on handed
back. -/
def cut (o : Outline) (floor : Seq) (after : After) : Outline :=
  { o with
    fates := o.fates.take o.published ++
      (o.fates.drop o.published).map fun slot => { slot with failed := true }
    published := o.fates.length
    tip := { after with nextSeq := floor, memtable := o.fresh, epoch := o.tip.epoch + 1 }
    fresh := o.fresh + 1
    view := { o.view with active := o.fresh }
    shown := { o.shown with
      active := o.shown.active.rebuild o.fresh ({ after with nextSeq := floor } : After).ceiling } }

/-- What lies between the slots that are kept and those that are not. -/
structure Floor (o : Outline) (floor : Seq) : Prop where
  kept : ∀ slot ∈ o.fates.take o.published, slot.Stands → slot.stop ≤ floor.toNat
  discarded : ∀ slot ∈ o.fates.drop o.published, slot.Stands → floor.toNat ≤ slot.first
  above : o.horizon.toNat < floor.toNat
  below : floor.toNat ≤ o.tip.nextSeq.toNat

theorem Sound.epoch_le (h : o.Sound base) (hs : slot ∈ o.pending) :
    slot.decision.after.epoch ≤ o.tip.epoch :=
  (h.pending slot hs).next.elim (fun hn => hn.epoch.le) fun hd => hd.epoch.le

section Cut

variable {floor : Seq} {after : After} {w : Written} {id : Nat}

theorem length_cut : (o.cut floor after).fates.length = o.fates.length := by
  rw [cut, length_append, length_map, ← length_append, take_append_drop]

theorem drop_cut : (o.cut floor after).fates.drop (o.cut floor after).published = [] :=
  drop_eq_nil_of_le length_cut.le

theorem mem_cut (h : slot ∈ (o.cut floor after).fates) : slot ∈ o.fates.take o.published ∨
    ∃ old ∈ o.fates.drop o.published, slot = { old with failed := true } := by
  rcases mem_append.mp h with hs | hs
  · exact .inl hs
  · obtain ⟨old, hold, rfl⟩ := mem_map.mp hs
    exact .inr ⟨old, hold, rfl⟩

/-- A slot that has not failed is one of those the cut keeps. -/
theorem kept_of_mem_cut (h : slot ∈ (o.cut floor after).fates) (hf : slot.failed = false) :
    slot ∈ o.fates.take o.published := by
  rcases mem_cut h with hs | ⟨old, -, rfl⟩
  · exact hs
  · cases hf

theorem notMem_view_cut (hid : id ∉ o.view.memtables) (hlt : id < o.fresh) :
    id ∉ (o.cut floor after).view.memtables := fun hmem => by
  rcases mem_cons.mp hmem with heq | hmem
  · exact hlt.ne heq
  · exact hid (.tail _ hmem)

theorem Placed.fresh_notMem (h : o.Placed) : o.fresh ∉ o.view.memtables :=
  fun hmem => (h.known _ hmem).false

/-- The memtable that was written to is shown no more. -/
theorem Placed.active_notMem_cut (h : o.Placed) :
    o.view.active ∉ (o.cut floor after).view.memtables := fun hmem => by
  rcases mem_cons.mp hmem with heq | hmem
  · have heq : o.view.active = o.fresh := heq
    exact h.fresh_notMem (heq ▸ mem_cons_self)
  · exact (nodup_cons.mp h.nodup).1 hmem

theorem Placed.cut (h : o.Placed) (hl : ∀ slot ∈ o.fates.drop o.published, slot.failed = false) :
    (o.cut floor after).Placed := by
  refine ⟨rfl, ?_, fun id hid => ?_, fun slot hs => ?_, fun slot hs hf => ?_,
    fun slot hs => absurd hs (drop_cut ▸ not_mem_nil)⟩
  · exact nodup_cons.mpr ⟨fun hmem => h.fresh_notMem (.tail _ hmem), (nodup_cons.mp h.nodup).2⟩
  · rcases mem_cons.mp hid with rfl | hid
    · exact Nat.lt_succ_self _
    · exact Nat.lt_succ_of_lt (h.known id (.tail _ hid))
  · rcases mem_cut hs with hs | ⟨old, hold, rfl⟩
    · exact Nat.lt_succ_of_lt (h.slotKnown slot (mem_of_mem_take hs))
    · exact Nat.lt_succ_of_lt (h.slotKnown old (mem_of_mem_drop hold))
  · rcases mem_cut hs with hs | ⟨old, hold, rfl⟩
    · have hmem := mem_of_mem_take hs
      exact notMem_view_cut (h.retired slot hmem hf) (h.slotKnown slot hmem)
    · change old.decision.after.memtable ∉ _
      rw [h.unpublished old hold (hl old hold), ← h.active]
      exact h.active_notMem_cut

theorem Numbered.cut (h : o.Numbered) (hf : o.Floor floor) : (o.cut floor after).Numbered := by
  refine ⟨length_cut.ge, fun slot hslot => absurd hslot (drop_cut ▸ not_mem_nil),
    fun slot hslot => ?_, ?_, fun slot hslot hs => ?_, fun slot hslot hs => ?_,
    fun slot hslot => absurd hslot (drop_cut ▸ not_mem_nil), hf.above⟩
  · rcases mem_cut hslot with hslot | ⟨old, hold, rfl⟩
    · exact h.counted slot (mem_of_mem_take hslot)
    · have hcnt := h.counted old (mem_of_mem_drop hold)
      exact ⟨hcnt.1, hcnt.2⟩
  · refine pairwise_append.mpr ⟨h.ascending.sublist (take_sublist _ _), ?_, ?_⟩
    · exact pairwise_map.mpr (pairwise_of_forall fun a b hs => by cases hs.1)
    · intro a _ b hb _ hs
      obtain ⟨old, -, rfl⟩ := mem_map.mp hb
      cases hs.1
  · exact hf.kept slot (kept_of_mem_cut hslot hs.1) hs
  · exact h.behind slot (kept_of_mem_cut (mem_of_mem_take hslot) hs.1) hs

/-- A slot at the frontier was decided from the state that is cut, or from one before it. -/
theorem Sound.pending_cut (h : o.Sound base) (hs : slot ∈ o.pending) :
    (o.cut floor after).Pending slot := by
  have hp := h.pending slot hs
  refine ⟨hp.failed, hp.counted, Nat.lt_succ_of_lt hp.known, hp.proper,
    .inr ⟨Nat.lt_succ_of_le (h.epoch_le hs), ?_, length_cut.symm⟩⟩
  rcases hp.next with hn | hd
  · rw [hn.memtable, ← h.placed.active]
    exact h.placed.active_notMem_cut
  · exact notMem_view_cut hd.memtable hp.known

theorem Sound.held_cut_lt (h : o.Sound base) (hflr : o.Floor floor)
    (hw : (o.cut floor after).Held base w) : w.seq < floor :=
  UInt64.lt_iff_toNat_lt.mpr <| h.held_toNat_lt hw hflr.above (fun slot hs hf =>
    have hk := kept_of_mem_cut hs hf
    ⟨mem_of_mem_take hk, hflr.kept slot hk⟩) rfl

/-- Below the floor nothing of a discarded slot is held. -/
theorem Sound.has_iff_held_cut (h : o.Sound base) (hflr : o.Floor floor) (hlt : w.seq < floor) :
    o.shown.Has w ↔ (o.cut floor after).Held base w := by
  have hlt' := UInt64.lt_iff_toNat_lt.mp hlt
  rw [h.shows.contents w]
  constructor
  · rintro ((hw | ⟨slot, hs, hf, hw⟩ | hw) | ⟨slot, hs, -, hn, hw⟩)
    · exact .inl hw
    · rw [← take_append_drop o.published o.fates, mem_append] at hs
      rcases hs with hs | hs
      · exact .inr (.inl ⟨slot, mem_append_left _ hs, hf, hw⟩)
      · obtain ⟨hops, hge, -⟩ := (h.numbered.counted slot (mem_of_mem_drop hs)).bounds hw
        have := hflr.discarded slot hs ⟨hf, hops⟩
        omega
    · exact .inr (.inr hw)
    · obtain ⟨hops, hge, -⟩ := (h.pending slot hs).counted.bounds hw
      rw [Slot.first, hn.baseSeq hops] at hge
      have := hflr.below
      omega
  · rintro (hw | ⟨slot, hs, hf, hw⟩ | hw)
    · exact .inl (.inl hw)
    · exact .inl (.inr (.inl ⟨slot, mem_of_mem_take (kept_of_mem_cut hs hf), hf, hw⟩))
    · exact .inl (.inr (.inr hw))

/-- The rebuilt memtable holds what the old one held below the floor. -/
theorem Sound.has_cut_iff (h : o.Sound base) (hf : o.Floor floor) :
    (o.cut floor after).shown.Has w ↔ (o.cut floor after).Held base w := by
  have hpos : 0 < floor := UInt64.lt_iff_toNat_lt.mpr (lt_of_le_of_lt (Nat.zero_le _) hf.above)
  refine has_active.trans ?_
  rw [MemTable.has_rebuild, After.le_ceiling hpos]
  constructor
  · rintro (⟨hw, hlt⟩ | hw)
    · exact (h.has_iff_held_cut hf hlt).mp (ReadView.has_iff.mpr (.inl hw))
    · have hle := h.shows.belowActive w hw
      have hlt : w.seq < floor := lt_of_le_of_lt hle (UInt64.lt_iff_toNat_lt.mpr hf.above)
      exact (h.has_iff_held_cut hf hlt).mp (ReadView.has_iff.mpr (.inr hw))
  · intro hw
    have hlt := h.held_cut_lt hf hw
    exact (ReadView.has_iff.mp ((h.has_iff_held_cut hf hlt).mpr hw)).imp (fun hw => ⟨hw, hlt⟩) id

theorem Sound.shows_cut (h : o.Sound base) (hf : o.Floor floor) :
    (o.cut floor after).Shows base := by
  refine ⟨h.shows.baseLe, h.shows.backFits, h.shows.backLe, fun w => ?_, h.shows.belowActive,
    h.shows.ordered.rebuild _ _, h.shows.within, ?_⟩
  · refine (h.has_cut_iff hf).trans (or_iff_left ?_).symm
    rintro ⟨slot, hs, -, hn, -⟩
    exact (Nat.lt_succ_of_le (h.epoch_le hs)).ne hn.epoch
  · refine tombstonesProper_iff.mpr fun t ht => ?_
    refine tombstonesProper_iff.mp h.shows.proper t (ReadView.has_iff.mpr ?_)
    exact (has_active.mp ht).imp (fun ht => (MemTable.has_rebuild.mp ht).1) id

/-- A rollback keeps the invariant. -/
theorem Sound.cut (h : o.Sound base) (hf : o.Floor floor) (after : After)
    (hl : ∀ slot ∈ o.fates.drop o.published, slot.failed = false) :
    (o.cut floor after).Sound base :=
  ⟨h.placed.cut hl, h.numbered.cut hf, fun _ => h.pending_cut, h.shows_cut hf⟩

end Cut

/-- A rollback hands back the sequences from the first one a discarded slot took. -/
theorem Sound.floor (h : o.Sound base) (hl : ∀ slot ∈ o.fates.drop o.published, slot.failed = false)
    : o.Floor (floorOf (o.fates.drop o.published) o.tip.nextSeq) := by
  rw [floorOf]
  cases hf : (o.fates.drop o.published).find? fun slot => slot.decision.commits with
  | none =>
    rw [find?_eq_none] at hf
    refine ⟨fun slot hslot => h.numbered.below slot (mem_of_mem_take hslot),
      fun slot hslot hstd => ?_, h.numbered.horizon, le_rfl⟩
    exact absurd (decide_eq_true hstd.2) (hf slot hslot)
  | some slot =>
    obtain ⟨hcommits, before, after, hspl, hb⟩ := find?_eq_some_iff_append.mp hf
    have hmem : slot ∈ o.fates.drop o.published := hspl ▸ mem_append_right _ mem_cons_self
    have hstd : slot.Stands := ⟨hl slot hmem, of_decide_eq_true hcommits⟩
    have hasc := h.numbered.ascending
    rw [← take_append_drop o.published o.fates, pairwise_append] at hasc
    refine ⟨fun x hx hs => hasc.2.2 x hx slot hmem hs hstd, fun x hx hs => ?_,
      h.numbered.ahead slot hmem hstd, ?_⟩
    · rw [hspl] at hx
      rcases mem_append.mp hx with hx | hx
      · have hnot := hb x hx
        rw [Decision.commits, decide_eq_true hs.2] at hnot
        cases hnot
      · rcases mem_cons.mp hx with rfl | hx
        · exact le_rfl
        · have hd := hasc.2.1
          rw [hspl, pairwise_append, pairwise_cons] at hd
          exact (Nat.le_add_right _ _).trans (hd.2.1.1 x hx hstd hs)
    · exact (Nat.le_add_right _ _).trans (h.numbered.below slot (mem_of_mem_drop hmem) hstd)

end Outline

namespace PipelineState

def readied (s : PipelineState) : PipelineState :=
  { s with
    published := s.kept
    horizon := (publishReady s.durable s.horizon (s.slots.drop s.published)).2 }

variable (h : s.outline.Sound base)

include h

theorem sound_readied : s.readied.outline.Sound base :=
  h.publishReady (map_drop).symm

/-- No slot a rollback discards failed before. -/
theorem discarded_live : ∀ slot ∈ s.discarded, slot.failed = false := by
  have hl : ∀ slot ∈ (s.slots.drop s.published).tail, slot.failed = false := fun slot hs => by
    refine h.numbered.live slot.erased ?_
    change slot.erased ∈ ((s.slots.map erased).drop s.published).tail
    rw [map_drop.symm, ← map_tail]
    exact mem_map_of_mem hs
  intro slot hs
  rw [discarded, kept, ← drop_drop] at hs
  generalize s.slots.drop s.published = rest at hs hl
  rcases rest with _ | ⟨first, rest⟩
  · rw [drop_nil] at hs
    cases hs
  · rw [publishReady] at hs
    split_ifs at hs with hpubb
    · rw [drop_succ_cons] at hs
      exact hl slot (mem_of_mem_drop hs)
    · rcases mem_cons.mp hs with rfl | hs
      · by_contra hf
        refine hpubb ?_
        rw [publishable, Bool.not_eq_false _ |>.mp hf, Bool.or_true, Bool.true_or]
      · exact hl slot hs

theorem outline_cutBack (cutErr : Option IoError) :
    (s.cutBack engine cutErr).outline = s.readied.outline.cut s.floor
      { s.tip with
        nextOff := s.cutAt
        memUsed := engine.approximateSize ((s.memtables s.tip.memtable).rebuild s.fresh
          ({ s.tip with nextSeq := s.floor } : After).ceiling) } := by
  have ha : s.view.active = s.tip.memtable := h.placed.active
  have hv : (s.cutBack engine cutErr).view = { s.view with active := s.fresh } :=
    if_pos ha
  have hfr : s.fresh ∉ s.view.frozen := fun hmem =>
    (h.placed.known _ (.tail _ hmem)).false
  refine Outline.ext ?_ rfl ?_ rfl rfl hv ?_ rfl rfl
  · change (s.slots.take s.kept ++ s.discarded.map _).map erased =
      (s.slots.map erased).take s.kept ++ ((s.slots.map erased).drop s.kept).map _
    rw [map_append, map_take, map_map, ← map_drop, map_map]
    rfl
  · exact (length_map _).symm
  · change (s.cutBack engine cutErr).view.resolve (s.cutBack engine cutErr).memtables = _
    rw [hv]
    refine congrArg₂ (ReadView.mk · · _) ?_ (map_congr_left fun id hid => ?_)
    · change update s.memtables s.fresh _ s.fresh = _
      rw [update_self]
      change (s.memtables s.tip.memtable).rebuild _ _ = (s.memtables s.view.active).rebuild _ _
      rw [ha]
      rfl
    · exact update_of_ne (fun heq : id = s.fresh => hfr (heq ▸ hid)) _ _

omit h in
theorem floor_readied (s : PipelineState) :
    floorOf (s.readied.outline.fates.drop s.readied.outline.published) s.readied.outline.tip.nextSeq =
      s.floor := by
  change floorOf ((s.slots.map erased).drop s.kept) s.tip.nextSeq = _
  rw [floor, discarded, floorOf, floorOf, ← map_drop, find?_map, Option.map_map]
  rfl

theorem readied_live :
    ∀ slot ∈ s.readied.outline.fates.drop s.readied.outline.published, slot.failed = false := by
  intro slot hs
  change slot ∈ (s.slots.map erased).drop s.kept at hs
  rw [← map_drop] at hs
  obtain ⟨old, hold, rfl⟩ := mem_map.mp hs
  exact discarded_live h old hold

theorem floor_spec : s.readied.outline.Floor s.floor := by
  have hf := (sound_readied h).floor (readied_live h)
  rwa [floor_readied] at hf

theorem sound_cutBack (cutErr : Option IoError) : (s.cutBack engine cutErr).outline.Sound base := by
  rw [outline_cutBack h]
  exact (sound_readied h).cut (floor_spec h) _ (readied_live h)

end PipelineState

/-! ### Writing counters back -/

namespace Outline

/-- Operations applied above everything in the view, and published at once, while no slot is
unpublished. -/
def writeBack (o : Outline) (ops : List WriteBatchOp) (after : After) : Outline :=
  { o with
    tip := { after with
      nextSeq := o.tip.nextSeq + UInt64.ofNat ops.length
      memtable := o.tip.memtable
      epoch := o.tip.epoch }
    shown := { o.shown with active := o.shown.active.apply ops o.tip.nextSeq }
    horizon := max o.horizon (o.tip.nextSeq + UInt64.ofNat ops.length - 1)
    writeBacks := o.writeBacks ++ [(ops, o.tip.nextSeq)] }

/-- What a rollback writes itself lies above all that is held. -/
theorem Sound.writeBack (h : o.Sound base) (after : After)
    (hpub : o.published = o.fates.length) (hpos : 0 < ops.length)
    (hf : o.tip.nextSeq.Fits ops.length) (hprop : ∀ op ∈ ops, op.isProper = true)
    (hpend : ∀ slot ∈ o.pending, o.Doomed slot) : (o.writeBack ops after).Sound base := by
  have hh := h.numbered.horizon
  have hsum := Seq.toNat_add hf
  have hl := Seq.toNat_last hf hpos
  have hraised : (o.writeBack ops after).horizon = o.tip.nextSeq + UInt64.ofNat ops.length - 1 :=
    max_eq_right (UInt64.le_iff_toNat_le.mpr (by omega))
  have hle : o.horizon ≤ (o.writeBack ops after).horizon := le_max_left _ _
  have hleNat := UInt64.le_iff_toNat_le.mp hle
  have hd : ∀ slot ∈ o.pending, ¬ (o.writeBack ops after).Next slot :=
    fun slot hs hn => (hpend slot hs).epoch.ne hn.epoch
  obtain ⟨hhas, ho, hshownProper⟩ := h.shown_apply (h.has_iff_held fun slot hs _ hn =>
    (hpend slot hs).epoch.ne hn.epoch) rfl hf hprop rfl
  have hdnil : o.fates.drop o.published = [] := drop_eq_nil_of_le hpub.ge
  refine ⟨{ h.placed with unpublished := fun x hx => absurd hx (hdnil ▸ not_mem_nil) },
    { h.numbered with
      below := fun x hx hstd => ?_
      behind := fun x hx hstd => ?_
      ahead := fun x hx => absurd hx (hdnil ▸ not_mem_nil)
      horizon := ?_ }, fun slot hs => ?_, { h.shows with
      baseLe := fun w hw => (h.shows.baseLe w hw).trans hle
      backFits := forall_mem_concat.mpr ⟨h.shows.backFits, hf⟩
      backLe := forall_mem_concat.mpr ⟨fun back hb => ?_, ?_⟩
      contents := fun w => ?_
      belowActive := fun w hw => (h.shows.belowActive w hw).trans hle
      ordered := ho
      proper := hshownProper }⟩
  · have hold := h.numbered.below x hx hstd
    change x.stop ≤ (o.tip.nextSeq + UInt64.ofNat ops.length).toNat
    omega
  · exact (h.numbered.behind x hx hstd).trans (Nat.add_le_add_right hleNat 1)
  · rw [hraised]
    change _ < (o.tip.nextSeq + UInt64.ofNat ops.length).toNat
    omega
  · have hp := h.pending slot hs
    exact ⟨hp.failed, hp.counted, hp.known, hp.proper, .inr { hpend slot hs with }⟩
  · exact (h.shows.backLe back hb).trans (Nat.add_le_add_right hleNat 1)
  · rw [hraised, hl]
    change o.tip.nextSeq.toNat + ops.length ≤ _
    omega
  · refine ((hhas w).trans ?_).trans (or_iff_left fun ⟨slot, hs, _, hn, _⟩ =>
      hd slot hs hn).symm
    rw [Held, Held, or_assoc, or_assoc]
    refine or_congr_right (or_congr_right ?_)
    change _ ↔ ∃ back ∈ o.writeBacks ++ [(ops, o.tip.nextSeq)], OpsWrite back.1 back.2 w
    rw [exists_mem_concat]

end Outline

namespace PipelineState

variable {hostErr : Option IoError}

variable (h : s.outline.Sound base)

include h

theorem outline_logAlone (hlog : logAlone engine hostErr ops s = .ok s')
    (counters : Counters) : ({ s' with tip := { s'.tip with counters } } : PipelineState).outline =
      s.outline.writeBack ops { s'.tip with counters } := by
  obtain rfl := logAlone_eq_ok hlog
  refine Outline.ext rfl rfl rfl rfl rfl rfl ?_ rfl rfl
  have ha : s.tip.memtable = s.view.active := h.placed.active.symm
  rw [ha]
  exact resolve_update_active h.placed.nodup

omit h in
theorem length_reservedPuts (last : List (Key × UInt64)) :
    (reservedPuts last).length = last.length := length_map _

omit h in
theorem reservedPuts_isProper {last : List (Key × UInt64)} :
    ∀ op ∈ reservedPuts last, op.isProper = true := by
  intro op hop
  obtain ⟨p, -, rfl⟩ := mem_map.mp hop
  rfl

theorem sound_writeBackReservations
    {failed : List Slot} (hpub : s.outline.published = s.outline.fates.length)
    (hf : s.tip.nextSeq.Fits (lastReserved failed).length)
    (hp : ∀ slot ∈ s.outline.pending, s.outline.Doomed slot) :
    (writeBackReservations engine hostErr failed s).outline.Sound base := by
  rw [writeBackReservations]
  split_ifs with hskip
  · exact h
  cases hlog : logAlone engine hostErr (reservedPuts (lastReserved failed)) s with
  | error err => exact { h with }
  | ok logged =>
    have hnil : lastReserved failed ≠ [] := fun hnil => hskip (hnil ▸ rfl)
    have hpos : 0 < (reservedPuts (lastReserved failed)).length := by
      rw [length_reservedPuts]
      exact length_pos_iff.mpr hnil
    rw [← length_reservedPuts] at hf
    have hs := fun after => h.writeBack after hpub hpos hf reservedPuts_isProper hp
    rw [outline_logAlone h hlog]
    exact hs _

omit h in
theorem cutBack_published (engine : Engine) (s : PipelineState) (cutErr : Option IoError) :
    (s.cutBack engine cutErr).published = (s.cutBack engine cutErr).slots.length := by
  change s.slots.length = (s.slots.take s.kept ++ s.discarded.map _).length
  rw [length_append, length_map, ← length_append, discarded, take_append_drop]

theorem cutBack_doomed (cutErr : Option IoError) :
    ∀ slot ∈ (s.cutBack engine cutErr).outline.pending,
      (s.cutBack engine cutErr).outline.Doomed slot := by
  intro slot hs
  refine (((sound_cutBack h cutErr).pending slot hs).next).resolve_left fun hn => ?_
  exact (Nat.lt_succ_of_le (h.epoch_le hs)).ne hn.epoch

theorem sound_rollBack {cutErr writeBackErr : Option IoError}
    (hf : s.floor.Fits (lastReserved s.discarded).length) :
    (s.rollBack engine cutErr writeBackErr).outline.Sound base :=
  sound_writeBackReservations (sound_cutBack h cutErr)
    ((cutBack_published engine s cutErr).trans (length_map _).symm) hf (cutBack_doomed h cutErr)

/-! ### Sealing -/

end PipelineState

namespace ReadView

variable {view : ReadView} {seq : Seq} {wal : Option UInt64} {identity : Nat} {w : Written}

theorem hasBelow_rotate : (view.rotate seq wal (.new identity)).HasBelow w ↔ view.Has w := by
  have hsrcs : (view.rotate seq wal (.new identity)).sources.tail =
      .memtable { view.active with sealedSeq := some seq, sealedWal := wal } ::
        view.sources.tail := by
    simp [sources, ReadView.rotate, memtables]
  rw [HasBelow, hsrcs, exists_mem_cons_iff, has_iff, HasBelow]
  refine or_congr_left ?_
  cases w <;> rfl

theorem has_rotate : (view.rotate seq wal (.new identity)).Has w ↔ view.Has w := by
  rw [has_iff, hasBelow_rotate]
  refine or_iff_right ?_
  cases w <;> exact not_mem_nil

end ReadView

namespace Outline

def sealActive (o : Outline) (seq : Seq) (wal : Option UInt64) (after : After) : Outline :=
  { o with
    tip := { after with nextSeq := o.tip.nextSeq, memtable := o.fresh, epoch := o.tip.epoch }
    fresh := o.fresh + 1
    view := { o.view with active := o.fresh, frozen := o.view.frozen ++ [o.view.active] }
    shown := o.shown.rotate seq wal (.new o.fresh) }

theorem Sound.held_le (h : o.Sound base) (hpub : o.published = o.fates.length) {w : Written}
    (hw : o.Held base w) : w.seq ≤ o.horizon :=
  UInt64.le_iff_toNat_le.mpr <| Nat.le_of_lt_succ <| h.held_toNat_lt hw (Nat.lt_succ_self _)
    (fun slot hs _ => ⟨hs, h.numbered.behind slot (by rwa [hpub, take_length])⟩) rfl

/-- Sealing changes nothing that is shown. -/
theorem Sound.sealActive (h : o.Sound base) (hp : o.pending = none)
    (hpub : o.published = o.fates.length) (seq : Seq) (wal : Option UInt64) (after : After) :
    (o.sealActive seq wal after).Sound base := by
  have hmem : ∀ id, id ∈ (o.sealActive seq wal after).view.memtables ↔
      id = o.fresh ∨ id ∈ o.view.memtables := fun id => by
    simp only [Outline.sealActive, LoadedView.memtables, mem_cons, mem_append,
      not_mem_nil, or_false, or_comm (b := id = o.view.active)]
  have hdnil : o.fates.drop o.published = [] := drop_eq_nil_of_le hpub.ge
  have hn : ∀ slot, slot ∉ o.pending := fun slot hs => by rw [hp] at hs; cases hs
  have hcontents := h.has_iff_held fun slot hs => absurd hs (hn slot)
  refine ⟨⟨rfl, ?_, fun id hid => ?_, fun slot hs => ?_, fun slot hs hf => ?_,
      fun slot hs => absurd hs (hdnil ▸ not_mem_nil)⟩, { h.numbered with },
    fun slot hs => absurd hs (hn slot), { h.shows with
      contents := fun w => ?_
      belowActive := fun w hw => ?_
      ordered := h.shows.ordered.rotate _ _ _
      proper := tombstonesProper_iff.mpr fun t ht => ?_ }⟩
  · have hfr : o.fresh ∉ o.view.memtables := fun hmem => (h.placed.known _ hmem).false
    refine nodup_cons.mpr ⟨fun hmem => hfr ?_, ?_⟩
    · exact (perm_append_singleton _ _).mem_iff.mp hmem
    · exact (perm_append_singleton _ _).nodup_iff.mpr h.placed.nodup
  · rcases (hmem id).mp hid with rfl | hid
    · exact Nat.lt_succ_self _
    · exact Nat.lt_succ_of_lt (h.placed.known id hid)
  · exact Nat.lt_succ_of_lt (h.placed.slotKnown slot hs)
  · intro hid
    rcases (hmem _).mp hid with heq | hid
    · exact (h.placed.slotKnown slot hs).ne heq
    · exact h.placed.retired slot hs hf hid
  · exact (has_rotate.trans (hcontents w)).trans (or_iff_left fun ⟨slot, hs, _⟩ => hn slot hs).symm
  · exact h.held_le hpub ((hcontents w).mp (ReadView.hasBelow_rotate.mp hw))
  · exact tombstonesProper_iff.mp h.shows.proper t (has_rotate.mp ht)

end Outline

namespace PipelineState

theorem sound_sealActive (h : s.outline.Sound base) {stampLen : Nat}
    (hs : s.sealActive stampLen = some s') : s'.outline.Sound base := by
  obtain ⟨hp, hpub, hs'⟩ := sealActive_eq_some hs
  have houtline : s'.outline = s.outline.sealActive s.tip.ceiling (some (UInt64.ofNat s.tip.log))
      { s.tip with memUsed := 0, log := s.tip.log + 1, nextOff := stampLen } := by
    subst hs'
    refine Outline.ext rfl rfl rfl rfl rfl rfl ?_ rfl rfl
    exact resolve_seal h.placed.nodup fun id hid => (h.placed.known id hid).ne
  rw [houtline]
  exact h.sealActive hp (hpub.trans (length_map _).symm) _ _ _

/-! ### Runs -/

/-- Every step of the pipeline keeps the invariant. -/
theorem sound_step (h : s.outline.Sound base) {action : PipelineAction}
    (hs : s.step engine action = some s') : s'.outline.Sound base := by
  cases action with
  | decide work => exact sound_decideNext h hs
  | apply => exact sound_applyNext h hs
  | applyLate index => exact outline_applyLate h hs ▸ h
  | settle => exact sound_settleNext h hs
  | write index => exact outline_writeRecord hs ▸ h
  | sync upto =>
    obtain ⟨-, rfl⟩ := syncThrough_eq_some hs
    exact h
  | publish => exact sound_publishNext h hs
  | fail =>
    cases hs
    exact h
  | rollBack cutErr writeBackErr =>
    obtain ⟨hf, rfl⟩ := step_rollBack_eq_some hs
    exact sound_rollBack h hf
  | rotate stampLen => exact sound_sealActive h hs

/-- A store just opened over `base`: no slot yet, and nothing above the read horizon. -/
structure Opened (base : ReadView) (s : PipelineState) : Prop where
  slots : s.slots = []
  pending : s.pending = none
  published : s.published = 0
  writeBacks : s.writeBacks = []
  active : s.view.active = s.tip.memtable
  nodup : s.view.memtables.Nodup
  known : ∀ id ∈ s.view.memtables, id < s.fresh
  shown : s.readView s.view = base
  horizon : s.horizon < s.tip.nextSeq
  bounded : ∀ w, base.Has w → w.seq ≤ s.horizon
  ordered : base.LsmOrdered
  within : base.TablesWithin
  proper : base.TombstonesProper

theorem Opened.sound (h : s.Opened base) : s.outline.Sound base := by
  have hfates : s.outline.fates = [] := congrArg (List.map erased) h.slots
  have hp : s.outline.pending = none := h.pending
  have hb : s.outline.writeBacks = [] := h.writeBacks
  have hs : s.outline.shown = base := h.shown
  refine ⟨⟨h.active, h.nodup, h.known, by simp [hfates], by simp [hfates], by simp [hfates]⟩,
    ⟨h.published.trans_le (Nat.zero_le _), by simp [hfates], by simp [hfates], hfates ▸ .nil,
      by simp [hfates], by simp [hfates], by simp [hfates], UInt64.lt_iff_toNat_lt.mp h.horizon⟩,
    by simp [hp], ⟨h.bounded, by simp [hb], by simp [hb], fun w => ?_, fun w hw => ?_,
      hs ▸ h.ordered, hs ▸ h.within, hs ▸ h.proper⟩⟩
  · simp [Outline.Held, hfates, hp, hb, hs]
  · exact h.bounded w (hs ▸ ReadView.has_iff.mpr (.inr hw))

end PipelineState

/-! ### A store just created -/

def plainEngine : Engine where
  operator := none
  families := none
  framedLen := id
  opMemtableCost := fun _ => 0
  approximateSize := fun _ => 0

def createdView : ReadView := ⟨.new 0, [], .levelZero [] 0⟩

def createdPipeline : PipelineState where
  slots := []
  pending := none
  published := 0
  tip := ⟨1, 0, 0, 0, 0, false, 0, .empty⟩
  memtables := fun _ => .new 0
  fresh := 1
  view := ⟨0, [], .levelZero [] 0⟩
  horizon := 0
  durable := 0
  poisoned := false
  latch := none
  writeBacks := []

theorem not_has_createdView (w : Written) : ¬ createdView.Has w := by
  rintro ⟨s, hs, hw⟩
  have hsrcs : createdView.sources = [.memtable (.new 0)] := rfl
  rw [hsrcs, mem_singleton] at hs
  subst hs
  cases w <;> cases hw

theorem opened_createdPipeline : createdPipeline.Opened createdView where
  slots := rfl
  pending := rfl
  published := rfl
  writeBacks := rfl
  active := rfl
  nodup := by decide
  known := by decide
  shown := rfl
  horizon := by decide
  bounded := fun w hw => absurd hw (not_has_createdView w)
  ordered := ⟨Version.wellFormed_levelZero nofun nofun, by decide, by decide, by decide, by decide⟩
  within := by decide
  proper := by decide

end RegolithStore
