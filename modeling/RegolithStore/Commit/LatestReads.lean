import RegolithStore.Commit.Provenance

/-! Latest reads (`get_latest`): the published view is loaded, the read horizon is sampled
after that, and the view is read at the horizon. A view loaded before a rollback still holds
the memtable the rollback replaced, and the sequences of the slots it discarded are taken
again: a horizon sampled after that reaches what was discarded. -/

namespace RegolithStore

open Lib List PipelineState

variable {w : Written} {base : ReadView} {action : PipelineAction} {m : MemTable}

def MemTable.upto (m : MemTable) (h : Seq) : MemTable :=
  { m with
    entries := m.entries.filter fun e => decide (e.seq ≤ h)
    rangeTombstones := m.rangeTombstones.filter fun t => decide (t.seq ≤ h) }

def Source.upto (h : Seq) : Source → Source
  | memtable m => memtable (m.upto h)
  | table f => table f

def ReadView.upto (view : ReadView) (h : Seq) : ReadView :=
  { view with
    active := view.active.upto h
    frozen := view.frozen.map fun m => m.upto h }

section Upto

variable {view : ReadView} {k : Key} {h : Seq}

theorem MemTable.has_upto : (m.upto h).Has w ↔ m.Has w ∧ w.seq ≤ h := by
  cases w <;> simp [Has, upto, Written.seq]

theorem Source.visible_upto (s : Source) : (s.upto h).visible k h = s.visible k h := by
  cases s with
  | memtable m =>
    simp only [Source.upto, visible, entriesOf, entries, MemTable.upto, filter_filter]
    refine filter_congr fun e _ => ?_
    cases decide (e.seq ≤ h) <;> cases decide (e.userKey = k) <;> rfl
  | table f => rfl

theorem Source.coveringRangeTombstoneSeq_upto (s : Source) :
    (s.upto h).coveringRangeTombstoneSeq k h = s.coveringRangeTombstoneSeq k h := by
  cases s with
  | memtable m =>
    simp only [Source.upto, coveringRangeTombstoneSeq, MemTable.coveringRangeTombstoneSeq,
      MemTable.upto, foldl_filter]
    refine congrArg (fun f => List.foldl f 0 m.rangeTombstones) (funext₂ fun best t => ?_)
    by_cases ht : t.seq ≤ h <;> simp [ht]
  | table f => rfl

theorem lookupVisit_upto (m : Seq) (u : Unit) (s : Source) :
    lookupVisit k h m u (s.upto h) = lookupVisit k h m u s := by
  cases s with
  | memtable mt =>
    simp only [Source.upto, lookupVisit, MemTable.get]
    rw [show (Source.memtable (mt.upto h)).visible k h = (Source.memtable mt).visible k h from
      Source.visible_upto (.memtable mt)]
  | table f => rfl

theorem chainVisit_upto (m : Seq) (chain : List Entry) (s : Source) :
    chainVisit k h m chain (s.upto h) = chainVisit k h m chain s := by
  rw [chainVisit, chainVisit, Source.collectMergeChain, Source.visible_upto,
    Source.collectMergeChain]

namespace ReadView

theorem places_upto : (view.upto h).places k =
    (view.places k).map fun p => (p.1.map (Source.upto h), p.2.map (Source.upto h)) := by
  simp only [places, memtables, upto, map_append, map_cons, map_reverse,
    map_map, Function.comp_def, Source.upto, map_nil]

theorem walkNewestFirst_upto {σ β : Type} {visit : Seq → σ → Source → Except β σ}
    (hvisit : ∀ m s t, visit m s (Source.upto h t) = visit m s t) (init : σ) :
    (view.upto h).walkNewestFirst k h visit init = view.walkNewestFirst k h visit init := by
  rw [walkNewestFirst, places_upto]
  exact walkPlaces_map (fun s => s.coveringRangeTombstoneSeq_upto) hvisit _ _ _

theorem lookupLoaded_upto (op : Option MergeOperator) :
    (view.upto h).lookupLoaded k h op = view.lookupLoaded k h op := by
  cases op with
  | none =>
    simp only [lookupLoaded, lookupInView, walkNewestFirst_upto lookupVisit_upto]
  | some op =>
    simp only [lookupLoaded, getWithMerge, mergeChainInView, walkNewestFirst_upto chainVisit_upto]

theorem has_of_upto (hw : (view.upto h).Has w) : (∃ m ∈ view.memtables, m.Has w ∧ w.seq ≤ h) ∨
    ∃ f ∈ view.version.tables, (Source.table f).Has w := by
  obtain ⟨s, hs, hw⟩ := hw
  rcases mem_append.mp hs with hs | hs
  · obtain ⟨m, hm, rfl⟩ := mem_map.mp hs
    rcases mem_cons.mp hm with rfl | hm
    · exact .inl ⟨_, mem_cons_self, MemTable.has_upto.mp hw⟩
    · obtain ⟨old, hold, rfl⟩ := mem_map.mp (mem_reverse.mp hm)
      exact .inl ⟨old, mem_cons_of_mem _ (mem_reverse.mpr hold), MemTable.has_upto.mp hw⟩
  · obtain ⟨f, hf, rfl⟩ := mem_map.mp hs
    exact .inr ⟨f, hf, hw⟩

end ReadView

end Upto

structure LatestRead where
  loaded : LoadedView
  /-- The first sequence a rollback handed back since the view was loaded. -/
  handedBack : Option Seq
  horizon : Option Seq

structure LatestState where
  pipe : PipelineState
  reads : List LatestRead

inductive LatestAction
  | pipeline (action : PipelineAction)
  | load
  | sample (read : Nat)

/-- The first sequence a rollback hands back, where a slot it discards took any, or the slot that
is decided and not settled did. -/
def PipelineState.handsBack (s : PipelineState) : Option Seq :=
  if s.discarded.any (·.decision.commits) || s.pending.any (fun slot =>
      slot.decision.commits && decide (slot.decision.after.epoch = s.tip.epoch)) then some s.floor
  else none

/-- What a step of the pipeline is to a read. -/
def LatestRead.notice (s : PipelineState) (read : LatestRead) : PipelineAction → LatestRead
  | .rollBack .. => { read with handedBack := read.handedBack.or s.handsBack }
  | _ => read

namespace LatestState

variable (engine : Engine)

def step (s : LatestState) : LatestAction → Option LatestState
  | .pipeline action => (s.pipe.step engine action).map fun pipe =>
    ⟨pipe, s.reads.map fun read => read.notice s.pipe action⟩
  | .load => some { s with reads := s.reads ++ [⟨s.pipe.view, none, none⟩] }
  | .sample i =>
    match s.reads[i]? with
    | none => none
    | some read =>
      if read.horizon.isNone then
        some { s with reads := s.reads.set i { read with horizon := some s.pipe.horizon } }
      else none

/-- A horizon is sampled before it reaches a sequence handed back since the view was loaded. -/
def SampledInTime (s : LatestState) : LatestAction → Prop
  | .sample i => ∀ read ∈ s.reads[i]?, ∀ floor ∈ read.handedBack, s.pipe.horizon < floor
  | .pipeline _ | .load => True

end LatestState

namespace PipelineState

variable {engine : Engine} {s s' : PipelineState} {d : Decision}

def Lost (s : PipelineState) (d : Decision) : Prop :=
  (∃ slot ∈ s.slots, slot.failed = true ∧ slot.decision = d) ∨
    ∃ slot ∈ s.pending, slot.decision.after.epoch < s.tip.epoch ∧ slot.decision = d

theorem exists_of_mem_memtables {v : LoadedView} (h : m ∈ (s.readView v).memtables) :
    ∃ id ∈ v.memtables, s.memtables id = m := by
  rcases mem_cons.mp h with rfl | h
  · exact ⟨_, mem_cons_self, rfl⟩
  · obtain ⟨id, hid, rfl⟩ := mem_map.mp (mem_reverse.mp h)
    exact ⟨id, mem_cons_of_mem _ hid, rfl⟩

variable (h : s.outline.Sound base)

include h

/-- What a rollback discards was decided into the memtable it replaces, at or above the first
sequence it hands back. -/
theorem lost_rollBack {cutErr writeBackErr : Option IoError} (hlost : (s.rollBack engine cutErr writeBackErr).Lost d) :
    s.Lost d ∨ d.after.memtable = s.tip.memtable ∧
      (0 < d.ops → s.handsBack = some s.floor ∧ s.floor ≤ d.baseSeq) := by
  have hflr := floor_spec h
  rcases hlost with ⟨slot, hs, hf, rfl⟩ | ⟨slot, hs, -, rfl⟩
  · rw [slots_rollBack] at hs
    rcases mem_append.mp hs with hs | hs
    · exact .inl (.inl ⟨slot, mem_of_mem_take hs, hf, rfl⟩)
    · obtain ⟨old, hold, rfl⟩ := mem_map.mp hs
      have hmem : old.erased ∈ s.readied.outline.fates.drop s.readied.outline.published := by
        change old.erased ∈ (s.slots.map Slot.erased).drop s.kept
        rw [← map_drop]
        exact mem_map_of_mem hold
      have hl := discarded_live h old hold
      refine .inr ⟨(sound_readied h).placed.unpublished old.erased hmem hl, fun hops => ?_⟩
      refine ⟨if_pos (Bool.or_eq_true_iff.mpr (.inl ?_)),
        UInt64.le_iff_toNat_le.mpr (hflr.discarded old.erased hmem ⟨hl, hops⟩)⟩
      exact List.any_eq_true.mpr ⟨old, hold, decide_eq_true hops⟩
  · rw [pending_rollBack] at hs
    rcases (h.pending slot hs).next with hn | hd
    · refine .inr ⟨hn.memtable, fun hops => ?_⟩
      refine ⟨if_pos (Bool.or_eq_true_iff.mpr (.inr ?_)), ?_⟩
      · rw [Option.mem_def.mp hs, Option.any_some, Bool.and_eq_true]
        exact ⟨decide_eq_true hops, decide_eq_true hn.epoch⟩
      · rw [hn.baseSeq hops]
        exact UInt64.le_iff_toNat_le.mpr hflr.below
    · exact .inl (.inr ⟨slot, hs, hd.epoch, rfl⟩)

/-- Decisions are lost only to a rollback, and lie at or above its floor. -/
theorem lost_step (hs : s.step engine action = some s') (hl : s'.Lost d) :
    s.Lost d ∨ (∃ cutErr writeBackErr, action = .rollBack cutErr writeBackErr) ∧
      d.after.memtable = s.tip.memtable ∧
        (0 < d.ops → s.handsBack = some s.floor ∧ s.floor ≤ d.baseSeq) := by
  cases action with
  | decide work =>
    obtain ⟨-, -, -, rfl⟩ := decideNext_eq_some hs
    refine .inl (hl.imp_right ?_)
    rintro ⟨slot, hslot, hep, -⟩
    cases hslot
    exact absurd (decideWork_chains ..).epoch hep.ne
  | apply =>
    obtain ⟨slot, hp, -, -, rfl⟩ := applyNext_eq_some hs
    refine .inl (hl.imp_right ?_)
    rintro ⟨slot', hslot', hep, rfl⟩
    cases hslot'
    exact ⟨slot, hp, hep, rfl⟩
  | applyLate index =>
    obtain ⟨slot, hslot, hf, -, -, rfl⟩ := applyLate_eq_some hs
    refine .inl (hl.imp_left ?_)
    rintro ⟨x, hx, hxfailed, rfl⟩
    rcases mem_or_eq_of_mem_set hx with hx | rfl
    · exact ⟨x, hx, hxfailed, rfl⟩
    · exact ⟨slot, mem_of_getElem? hslot, hf, rfl⟩
  | settle =>
    obtain ⟨slot, hp, hcases⟩ := settleNext_eq_some hs
    refine .inl ?_
    rcases hcases with ⟨hep, rfl⟩ | ⟨-, -, rfl⟩ <;>
      obtain ⟨x, hx, hf, rfl⟩ | ⟨x, hx, -⟩ := hl
    case inl.inr | inr.inr => cases hx
    all_goals
      rcases mem_append.mp hx with hx | hx
      · exact .inl ⟨x, hx, hf, rfl⟩
      obtain rfl := mem_singleton.mp hx
    · have hd := (h.pending slot hp).next.resolve_left fun hn => hep hn.epoch.symm
      exact .inr ⟨slot, hp, hd.epoch, rfl⟩
    · have hlive := (h.pending _ hp).failed
      rw [hlive] at hf
      cases hf
  | write index =>
    obtain ⟨slot, hslot, hlive, rfl⟩ := writeRecord_eq_some hs
    refine .inl (hl.imp_left ?_)
    rintro ⟨x, hx, hxfailed, rfl⟩
    rcases mem_or_eq_of_mem_set hx with hx | rfl
    · exact ⟨x, hx, hxfailed, rfl⟩
    · exact absurd hxfailed (Bool.eq_false_iff.mp hlive)
  | sync upto =>
    obtain ⟨-, rfl⟩ := syncThrough_eq_some hs
    exact .inl hl
  | publish =>
    obtain ⟨slot, -, -, rfl⟩ := publishNext_eq_some hs
    exact .inl hl
  | fail =>
    cases hs
    exact .inl hl
  | rollBack cutErr writeBackErr =>
    obtain ⟨-, rfl⟩ := step_rollBack_eq_some hs
    exact (lost_rollBack h hl).imp_right fun h => ⟨⟨cutErr, writeBackErr, rfl⟩, h⟩
  | rotate stampLen =>
    obtain ⟨-, -, rfl⟩ := sealActive_eq_some hs
    exact .inl hl

/-- Only a rollback replaces the memtable a slot was decided into. -/
theorem tip_step (hs : s.step engine action = some s') :
    (s'.tip.memtable = s.tip.memtable ∧ (∀ cutErr writeBackErr, action ≠ .rollBack cutErr writeBackErr) ∨
      s'.tip.memtable = s.fresh) ∧ s'.view.version = s.view.version := by
  cases action with
  | decide work =>
    obtain ⟨-, -, -, rfl⟩ := decideNext_eq_some hs
    exact ⟨.inl ⟨rfl, fun _ _ => nofun⟩, rfl⟩
  | apply =>
    obtain ⟨slot, -, -, -, rfl⟩ := applyNext_eq_some hs
    exact ⟨.inl ⟨rfl, fun _ _ => nofun⟩, rfl⟩
  | applyLate index =>
    obtain ⟨slot, -, -, -, -, rfl⟩ := applyLate_eq_some hs
    exact ⟨.inl ⟨rfl, fun _ _ => nofun⟩, rfl⟩
  | settle =>
    obtain ⟨slot, hp, ⟨-, rfl⟩ | ⟨hep, -, rfl⟩⟩ := settleNext_eq_some hs
    · exact ⟨.inl ⟨rfl, fun _ _ => nofun⟩, rfl⟩
    · have hn := (h.pending slot hp).next.resolve_right fun hd => hd.epoch.ne hep.symm
      exact ⟨.inl ⟨hn.memtable, fun _ _ => nofun⟩, rfl⟩
  | write index =>
    obtain ⟨slot, -, -, rfl⟩ := writeRecord_eq_some hs
    exact ⟨.inl ⟨rfl, fun _ _ => nofun⟩, rfl⟩
  | sync upto =>
    obtain ⟨-, rfl⟩ := syncThrough_eq_some hs
    exact ⟨.inl ⟨rfl, fun _ _ => nofun⟩, rfl⟩
  | publish =>
    obtain ⟨slot, -, -, rfl⟩ := publishNext_eq_some hs
    exact ⟨.inl ⟨rfl, fun _ _ => nofun⟩, rfl⟩
  | fail =>
    cases hs
    exact ⟨.inl ⟨rfl, fun _ _ => nofun⟩, rfl⟩
  | rollBack cutErr writeBackErr =>
    obtain ⟨-, rfl⟩ := step_rollBack_eq_some hs
    refine ⟨.inr writeBack_keeps.2.2.1, ?_⟩
    rw [rollBack, writeBack_keeps.2.2.2]
    change (if _ then _ else _ : LoadedView).version = _
    split_ifs <;> rfl
  | rotate stampLen =>
    obtain ⟨-, -, rfl⟩ := sealActive_eq_some hs
    exact ⟨.inr rfl, rfl⟩

end PipelineState

namespace Outline.Sound

variable {s : PipelineState} {slot : Slot}

variable (h : s.outline.Sound base)

include h

theorem settled_of_live (hs : slot ∈ s.slots)
    (hf : slot.failed = false) (hw : slot.Writes w) (hle : w.seq ≤ s.horizon) :
    s.Settled base w := by
  obtain ⟨hops, hfst, -⟩ :=
    (h.numbered.counted slot.erased (mem_map_of_mem hs)).bounds hw
  rw [← take_append_drop s.published s.slots, mem_append] at hs
  rcases hs with hs | hs
  · exact .inr (.inl ⟨slot, ⟨hs, hf⟩, hw⟩)
  · have hd : slot.erased ∈ s.outline.fates.drop s.outline.published := by
      change _ ∈ (s.slots.map Slot.erased).drop s.published
      rw [← map_drop]
      exact mem_map_of_mem hs
    have ha := h.numbered.ahead _ hd ⟨hf, hops⟩
    exact absurd (ha.trans_le hfst) (not_lt.mpr (UInt64.le_iff_toNat_le.mp hle))

theorem lt_of_next (hs : s.pending = some slot)
    (hn : s.outline.Next slot) (hw : slot.Writes w) : s.horizon < w.seq := by
  obtain ⟨hops, hf, -⟩ := (h.pending slot hs).counted.bounds hw
  rw [Slot.first, hn.baseSeq hops] at hf
  exact UInt64.lt_iff_toNat_lt.mpr (h.numbered.horizon.trans_le hf)

theorem settled_of_decided (hs : slot ∈ s.decided)
    (hl : s.Lost slot.decision → 0 < slot.decision.ops → w.seq < slot.decision.baseSeq)
    (hw : slot.Writes w) (hle : w.seq ≤ s.horizon) : s.Settled base w := by
  rcases mem_decided.mp hs with hs | hs
  · cases hf : slot.failed with
    | true =>
      obtain ⟨hops, hfst, -⟩ :=
        (h.numbered.counted slot.erased (mem_map_of_mem hs)).bounds hw
      have hlt := UInt64.lt_iff_toNat_lt.mp (hl (.inl ⟨slot, hs, hf, rfl⟩) hops)
      exact absurd hfst hlt.not_ge
    | false => exact h.settled_of_live hs hf hw hle
  · rcases (h.pending slot hs).next with hn | hd
    · exact absurd (h.lt_of_next hs hn hw) hle.not_gt
    · obtain ⟨hops, hfst, -⟩ := (h.pending slot hs).counted.bounds hw
      have hlt := UInt64.lt_iff_toNat_lt.mp (hl (.inr ⟨slot, hs, hd.epoch, rfl⟩) hops)
      exact absurd hfst hlt.not_ge

theorem settled_of_hasBelow (hw : s.outline.shown.HasBelow w) :
    s.Settled base w := by
  have hle := h.shows.belowActive w hw
  rcases (h.shows.contents w).mp (ReadView.has_iff.mpr (.inr hw)) with
    (hw | ⟨fate, hfate, hf, hw⟩ | hw) | ⟨slot, hs, -, hn, hw⟩
  · exact .inl hw
  · obtain ⟨slot, hs, rfl⟩ := mem_map.mp hfate
    exact h.settled_of_live hs hf hw hle
  · exact .inr (.inr hw)
  · exact absurd (h.lt_of_next hs hn hw) hle.not_gt

end Outline.Sound

/-- A slot discarded since the view was loaded is at or above the first sequence handed back
since then, and a horizon is below that. -/
structure LatestRead.Valid (base : ReadView) (s : PipelineState) (read : LatestRead) : Prop where
  known : ∀ id ∈ read.loaded.memtables, id < s.fresh
  version : read.loaded.version = s.view.version
  sourced : ∀ id ∈ read.loaded.memtables, s.Sourced base id
  lost : ∀ d, s.Lost d → d.after.memtable ∈ read.loaded.memtables → 0 < d.ops →
    ∃ floor ∈ read.handedBack, floor ≤ d.baseSeq
  moved : read.handedBack.isSome → s.tip.memtable ∉ read.loaded.memtables
  horizon : ∀ h ∈ read.horizon, h ≤ s.horizon ∧ ∀ floor ∈ read.handedBack, h < floor

namespace LatestRead

variable {engine : Engine} {s s' : PipelineState} {read : LatestRead} {floor : Seq}

theorem valid_load (h : s.outline.Sound base) (ha : s.Applied) :
    Valid base s ⟨s.view, none, none⟩ where
  known := h.placed.known
  version := rfl
  sourced := fun _ hid => sourced_of_mem_view h ha hid
  lost := fun d hl hid _ => by
    rcases hl with ⟨slot, hs, hf, rfl⟩ | ⟨slot, hs, hep, rfl⟩
    · exact absurd hid (h.placed.retired slot.erased (mem_map_of_mem hs) hf)
    · have hd := (h.pending slot hs).next.resolve_left fun hn => hep.ne hn.epoch
      exact absurd hid hd.memtable
  moved := nofun
  horizon := nofun

theorem loaded_notice (s : PipelineState) (read : LatestRead) (action : PipelineAction) :
    (read.notice s action).loaded = read.loaded ∧
      (read.notice s action).horizon = read.horizon := by
  cases action <;> exact ⟨rfl, rfl⟩

theorem mem_handedBack_notice
    (h : floor ∈ (read.notice s action).handedBack) : floor ∈ read.handedBack ∨
      read.handedBack = none ∧ floor = s.floor ∧
        ∃ cutErr writeBackErr, action = .rollBack cutErr writeBackErr := by
  cases action with
  | rollBack cutErr writeBackErr =>
    change floor ∈ read.handedBack.or s.handsBack at h
    cases hb : read.handedBack with
    | none =>
      rw [hb, Option.none_or, PipelineState.handsBack, Option.mem_def,
        Option.ite_none_right_eq_some] at h
      exact .inr ⟨rfl, (Option.some.inj h.2).symm, cutErr, writeBackErr, rfl⟩
    | some old =>
      rw [hb] at h
      exact .inl h
  | _ => exact .inl h

theorem handedBack_notice (h : floor ∈ read.handedBack) :
    floor ∈ (read.notice s action).handedBack := by
  cases action with
  | rollBack cutErr writeBackErr =>
    change floor ∈ read.handedBack.or s.handsBack
    rw [Option.mem_def.mp h]
    rfl
  | _ => exact h

/-- A step of the pipeline keeps a read valid, its floor noted. -/
theorem Valid.step (h : read.Valid base s) (hsnd : s.outline.Sound base)
    (hs : s.step engine action = some s') : (read.notice s action).Valid base s' := by
  have hg := grows_step hsnd hs
  obtain ⟨htip, hv⟩ := tip_step hsnd hs
  have hloaded := (loaded_notice s read action).1
  refine ⟨fun id hid => ?_, ?_, fun id hid => ?_, fun d hl hid hops => ?_, fun hb hid => ?_,
    fun horizon hh => ⟨?_, fun floor hf => ?_⟩⟩
  · rw [hloaded] at hid
    exact (h.known id hid).trans_le hg.fresh
  · rw [hloaded, hv]
    exact h.version
  · rw [hloaded] at hid
    exact sourced_step hsnd (h.known id hid) (h.sourced id hid) hs
  · rw [hloaded] at hid
    rcases lost_step hsnd hs hl with hl | ⟨⟨cutErr, writeBackErr, rfl⟩, hmem, hge⟩
    · obtain ⟨floor, hf, hle⟩ := h.lost d hl hid hops
      exact ⟨floor, handedBack_notice hf, hle⟩
    · -- only the first rollback since the load replaces a memtable the read loaded
      have hn : read.handedBack = none := by
        by_contra hsome
        exact h.moved (Option.isSome_iff_ne_none.mpr hsome) (hmem ▸ hid)
      refine ⟨s.floor, ?_, (hge hops).2⟩
      change s.floor ∈ read.handedBack.or s.handsBack
      rw [hn, (hge hops).1]
      rfl
  · rw [hloaded] at hid
    rcases htip with ⟨htip, hnot⟩ | htip
    · obtain ⟨floor, hf⟩ := Option.isSome_iff_exists.mp hb
      rcases mem_handedBack_notice hf with hold | ⟨-, -, cutErr, writeBackErr, hroll⟩
      · exact h.moved (Option.isSome_iff_exists.mpr ⟨floor, hold⟩) (htip ▸ hid)
      · exact hnot cutErr writeBackErr hroll
    · rw [htip] at hid
      exact (h.known _ hid).false
  · rw [(loaded_notice s read action).2] at hh
    exact (h.horizon horizon hh).1.trans hg.horizon
  · rw [(loaded_notice s read action).2] at hh
    rcases mem_handedBack_notice hf with hold | ⟨-, rfl, -⟩
    · exact (h.horizon horizon hh).2 floor hold
    · have habv := (PipelineState.floor_spec hsnd).above
      have hle := (h.horizon horizon hh).1.trans
        (le_publishReady s.durable s.horizon (s.slots.drop s.published))
      exact hle.trans_lt (UInt64.lt_iff_toNat_lt.mpr habv)

/-- What of a loaded view is at or below the sampled horizon landed. -/
theorem Valid.settled (h : read.Valid base s) (hsnd : s.outline.Sound base) {horizon : Seq}
    (hh : read.horizon = some horizon) {w : Written}
    (hw : ((s.readView read.loaded).upto horizon).Has w) : s.Settled base w := by
  obtain ⟨hle, hbacks⟩ := h.horizon horizon hh
  rcases ReadView.has_of_upto hw with ⟨m, hm, hw, hseq⟩ | ⟨f, hf, hw⟩
  · obtain ⟨id, hid, rfl⟩ := exists_of_mem_memtables hm
    rcases h.sourced id hid w hw with hsett | ⟨slot, hs, -, rfl, hws⟩
    · exact hsett
    · refine hsnd.settled_of_decided hs (fun hl hops => ?_) hws (hseq.trans hle)
      obtain ⟨floor, hflr, hge⟩ := h.lost _ hl hid hops
      exact (hseq.trans_lt (hbacks floor hflr)).trans_le hge
  · refine hsnd.settled_of_hasBelow ⟨.table f, ?_, hw⟩
    rw [show (s.readView read.loaded).version.tables = (s.readView s.view).version.tables from
      congrArg Version.tables h.version] at hf
    exact mem_append_right _ (mem_map_of_mem hf)

end LatestRead

namespace LatestState

variable {engine : Engine} {s s' : LatestState}

/-- What every step keeps, a horizon sampled in time. -/
structure Inv (base : ReadView) (s : LatestState) : Prop where
  sound : s.pipe.outline.Sound base
  applied : s.pipe.Applied
  valid : ∀ read ∈ s.reads, read.Valid base s.pipe

/-- A read that samples in time stays below every floor. -/
theorem inv_step (h : s.Inv base) {action : LatestAction} (hintime : s.SampledInTime action)
    (hs : s.step engine action = some s') : s'.Inv base := by
  cases action with
  | pipeline action =>
    obtain ⟨pipe, hpipe, rfl⟩ := Option.map_eq_some_iff.mp hs
    refine ⟨sound_step h.sound hpipe, applied_step h.applied hpipe, fun read hr => ?_⟩
    obtain ⟨old, hold, rfl⟩ := mem_map.mp hr
    exact (h.valid old hold).step h.sound hpipe
  | load =>
    cases hs
    refine ⟨h.sound, h.applied, fun read hr => ?_⟩
    rcases mem_concat.mp hr with hr | rfl
    · exact h.valid read hr
    · exact LatestRead.valid_load h.sound h.applied
  | sample i =>
    rw [step] at hs
    cases hr : s.reads[i]? with
    | none => rw [hr] at hs; cases hs
    | some read =>
      rw [hr] at hs
      obtain ⟨-, rfl⟩ := guarded_eq_some.mp hs
      refine ⟨h.sound, h.applied, fun other ho => ?_⟩
      rcases mem_or_eq_of_mem_set ho with ho | rfl
      · exact h.valid other ho
      · refine { h.valid read (mem_of_getElem? hr) with horizon := fun horizon hh => ?_ }
        cases hh
        exact ⟨le_rfl, hintime read hr⟩

theorem Inv.of_opened (ho : s.pipe.Opened base) (hrds : s.reads = []) : s.Inv base where
  sound := ho.sound
  applied := fun slot hs => by rw [ho.slots] at hs; cases hs
  valid := fun read hr => by rw [hrds] at hr; cases hr

end LatestState

/-- A latest read whose horizon was sampled in time sees what landed and nothing else: the
view it reads has, at or below the horizon, nothing a rollback discarded, and what lies above
the horizon does not bear on the read. -/
theorem latestRead_settled {engine : Engine} {base : ReadView} {s s' : LatestState}
    {actions : List LatestAction} (hopened : s.pipe.Opened base) (hreads : s.reads = [])
    (hintime : Along (LatestState.step engine) LatestState.SampledInTime s actions)
    (hrun : run (LatestState.step engine) s actions = some s') :
    ∀ read ∈ s'.reads, ∀ horizon, read.horizon = some horizon →
      (∀ w, ((s'.pipe.readView read.loaded).upto horizon).Has w → s'.pipe.Settled base w) ∧
      ∀ op k, (s'.pipe.readView read.loaded).lookupLoaded k horizon op =
        ((s'.pipe.readView read.loaded).upto horizon).lookupLoaded k horizon op := by
  intro read hread horizon hhor
  have hinv : s'.Inv base := run_invariant (fun _ _ _ h hC hstep => LatestState.inv_step h hC hstep)
    (LatestState.Inv.of_opened hopened hreads) hintime hrun
  exact ⟨fun w hw => (hinv.valid read hread).settled hinv.sound hhor hw,
    fun op k => (ReadView.lookupLoaded_upto op).symm⟩

/-- A put is applied, a read loads the view, the put's record fails and is rolled back, and a
second put takes its sequence before the read samples the horizon. -/
def overtakenRead : List LatestAction :=
  [.pipeline (.decide (.request (.put [97] [1] .eventual false))), .pipeline .apply,
    .pipeline .settle, .load, .pipeline .fail, .pipeline (.rollBack none none),
    .pipeline (.decide (.request (.put [98] [2] .eventual true))), .pipeline .apply,
    .pipeline .settle, .pipeline .publish, .sample 0]

/-- The read returns the discarded put. -/
theorem latestRead_overtaken : createdPipeline.Opened createdView ∧
    (run (LatestState.step plainEngine) ⟨createdPipeline, []⟩ overtakenRead).map (fun s =>
      (s.reads.map fun read => (read.horizon, (s.pipe.readView read.loaded).lookupInView [97] 1),
        s.pipe.slots.map fun slot => (slot.ops, slot.failed))) =
      some ([(some 1, some [1])], [([.put [97] [1]], true), ([.put [98] [2]], false)]) :=
  ⟨opened_createdPipeline, by decide⟩

/-- Sampled before the sequence is taken again, the horizon is below the put. -/
theorem latestRead_settled_overtaking : ∃ s',
    run (LatestState.step plainEngine) ⟨createdPipeline, []⟩
      (overtakenRead.take 6 ++ [.sample 0]) = some s' ∧
    ∀ read ∈ s'.reads, ∀ horizon, read.horizon = some horizon →
      (∀ w, ((s'.pipe.readView read.loaded).upto horizon).Has w →
        s'.pipe.Settled createdView w) ∧
      ∀ op k, (s'.pipe.readView read.loaded).lookupLoaded k horizon op =
        ((s'.pipe.readView read.loaded).upto horizon).lookupLoaded k horizon op := by
  have hsome : (run (LatestState.step plainEngine) ⟨createdPipeline, []⟩
      (overtakenRead.take 6 ++ [.sample 0])).isSome := by decide
  obtain ⟨s', hrun⟩ := Option.isSome_iff_exists.mp hsome
  refine ⟨s', hrun, latestRead_settled opened_createdPipeline rfl ?_ hrun⟩
  refine along_append.mpr ⟨along_of_forall (by simp [overtakenRead, LatestState.SampledInTime]) _,
    fun t ht => ⟨fun read hread floor hflr => ?_, fun _ _ => trivial⟩⟩
  have hsampled : (run (LatestState.step plainEngine) ⟨createdPipeline, []⟩
      (overtakenRead.take 6)).map (fun t => (t.reads.map LatestRead.handedBack, t.pipe.horizon)) =
      some ([some 1], 0) := by decide
  rw [ht, Option.map_some, Option.some.injEq, Prod.mk.injEq] at hsampled
  have hback : some read.handedBack = ([some 1] : List (Option Seq))[0]? := by
    rw [← hsampled.1, getElem?_map, hread, Option.map_some]
  obtain rfl := Option.some.inj (hflr.symm.trans (Option.some.inj hback))
  rw [hsampled.2]
  decide

end RegolithStore
