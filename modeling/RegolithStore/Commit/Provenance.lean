import RegolithStore.Commit.PipelineSound

/-! Where the contents of a memtable come from, of one in the published view or of one a
rollback replaced: what landed stays landed, and the rest was written by a slot decided into
that memtable. -/

namespace RegolithStore

open Lib List Function Slot

variable {m : MemTable} {i : Nat}

theorem MemTable.mem_of_mem_foldl {run : List (WriteBatchOp × Seq)} {e : Entry}
    (h : e ∈ (run.foldl applyOp m).entries) :
    e ∈ m.entries ∨ ∃ p ∈ run, p.1.pointEntry p.2 = some e := by
  induction run generalizing m with
  | nil => exact .inl h
  | cons p run ih =>
    rw [exists_mem_cons_iff, ← or_assoc]
    exact (ih h).imp_left mem_of_mem_applyOp

theorem MemTable.has_of_apply {ops : List WriteBatchOp} {base : Seq} {w : Written}
    (h : (m.apply ops base).Has w) : m.Has w ∨ OpsWrite ops base w := by
  cases w with
  | entry e => exact (mem_of_mem_foldl h).imp_right mem_filterMap.mpr
  | range t => exact mem_apply_tombstones.mp h

theorem mem_set_or_eq {α : Type*} {l : List α} {a b x : α} (h : l[i]? = some a)
    (hx : x ∈ l) : x ∈ l.set i b ∨ x = a := by
  obtain ⟨j, hj⟩ := mem_iff_getElem?.mp hx
  rcases eq_or_ne i j with rfl | hne
  · exact .inr (Option.mem_unique hj h)
  · exact .inl (mem_of_getElem? ((getElem?_set_ne hne).trans hj))

namespace PipelineState

variable {engine : Engine} {base : ReadView} {s s' : PipelineState} {slot : Slot} {w : Written}
  {id : Nat} {action : PipelineAction} {cutErr writeBackErr : Option IoError}
  {hostErr : Option IoError} {failed : List Slot} {v : LoadedView}

/-- It was there at first, a slot that landed wrote it, or a rollback did. -/
def Settled (base : ReadView) (s : PipelineState) (w : Written) : Prop :=
  base.Has w ∨ (∃ slot, s.Landed slot ∧ slot.Writes w) ∨
    ∃ back ∈ s.writeBacks, OpsWrite back.1 back.2 w

/-- What a step leaves behind: the published slots and what rollbacks wrote only grow. -/
structure Grows (s s' : PipelineState) : Prop where
  landed : (s.slots.take s.published).map erased <+: (s'.slots.take s'.published).map erased
  writeBacks : s.writeBacks <+: s'.writeBacks
  horizon : s.horizon ≤ s'.horizon
  fresh : s.fresh ≤ s'.fresh

theorem Grows.settled (h : s.Grows s') (hw : s.Settled base w) : s'.Settled base w := by
  rcases hw with hw | ⟨slot, ⟨hslot, hf⟩, hw⟩ | ⟨back, hb, hw⟩
  · exact .inl hw
  · obtain ⟨slot', hslot', heq⟩ :=
      mem_map.mp (h.landed.subset (mem_map_of_mem hslot))
    have hfailed' : slot'.erased.failed = false := heq ▸ hf
    have hw' : slot'.erased.Writes w := heq ▸ hw
    exact .inr (.inl ⟨slot', ⟨hslot', hfailed'⟩, hw'⟩)
  · exact .inr (.inr ⟨back, h.writeBacks.subset hb, hw⟩)

theorem Grows.of_eq (hs : s'.slots.map erased = s.slots.map erased)
    (hpub : s'.published = s.published) (hbacks : s'.writeBacks = s.writeBacks)
    (hh : s'.horizon = s.horizon) (hfr : s.fresh ≤ s'.fresh) : s.Grows s' := by
  refine ⟨?_, ?_, hh.ge, hfr⟩
  · rw [map_take, map_take, hs, hpub]
  · rw [hbacks]

theorem grows_writeBack : s.Grows (writeBackReservations engine hostErr failed s) := by
  have hrefl : s.Grows s := .of_eq rfl rfl rfl rfl le_rfl
  rw [writeBackReservations]
  split_ifs
  · exact hrefl
  · cases hlog : logAlone engine hostErr (reservedPuts (lastReserved failed)) s with
    | error err => exact { hrefl with }
    | ok logged =>
      obtain rfl := logAlone_eq_ok hlog
      exact ⟨prefix_rfl, prefix_append _ _, le_max_left _ _, le_rfl⟩

theorem Grows.trans {t : PipelineState} (h : s.Grows t) (h' : t.Grows s') : s.Grows s' :=
  ⟨h.landed.trans h'.landed, h.writeBacks.trans h'.writeBacks, h.horizon.trans h'.horizon,
    h.fresh.trans h'.fresh⟩

theorem le_publishReady (durable : Nat) (horizon : Seq) (slots : List Slot) :
    horizon ≤ (publishReady durable horizon slots).2 := by
  induction slots generalizing horizon with
  | nil => exact le_rfl
  | cons slot rest ih =>
    rw [publishReady]
    split_ifs
    · exact (slot.le_raiseHorizon horizon).trans (ih _)
    · exact le_rfl

theorem grows_cutBack (cutErr : Option IoError) : s.Grows (s.cutBack engine cutErr) := by
  refine ⟨?_, prefix_rfl, le_publishReady _ _ _, Nat.le_succ _⟩
  rw [take_of_length_le (cutBack_published engine s cutErr).ge]
  refine List.IsPrefix.map _ ((take_prefix_take_left ?_).trans (prefix_append _ _))
  exact Nat.le_add_right _ _

theorem grows_settleNext (hle : s.published ≤ s.slots.length) (hs : s.settleNext = some s') :
    s.Grows s' := by
  obtain ⟨slot, -, ⟨-, rfl⟩ | ⟨-, -, rfl⟩⟩ := settleNext_eq_some hs
  · refine ⟨?_, prefix_rfl, le_rfl, le_rfl⟩
    rw [take_append_of_le_length hle]
  · refine ⟨?_, prefix_rfl, le_rfl, le_rfl⟩
    rw [take_append_of_le_length hle]

/-- No step takes a published slot or a write-back away. -/
theorem grows_step (h : s.outline.Sound base) (hs : s.step engine action = some s') :
    s.Grows s' := by
  cases action with
  | decide work =>
    obtain ⟨-, -, -, rfl⟩ := decideNext_eq_some hs
    exact .of_eq rfl rfl rfl rfl le_rfl
  | apply =>
    obtain ⟨slot, -, -, -, rfl⟩ := applyNext_eq_some hs
    exact .of_eq rfl rfl rfl rfl le_rfl
  | applyLate index =>
    obtain ⟨slot, hslot, -, -, -, rfl⟩ := applyLate_eq_some hs
    exact .of_eq (erased_set hslot rfl) rfl rfl rfl le_rfl
  | settle => exact grows_settleNext (h.numbered.publishedLe.trans_eq (length_map _)) hs
  | write index =>
    obtain ⟨slot, hslot, -, rfl⟩ := writeRecord_eq_some hs
    exact .of_eq (erased_set hslot rfl) rfl rfl rfl le_rfl
  | sync upto =>
    obtain ⟨-, rfl⟩ := syncThrough_eq_some hs
    exact .of_eq rfl rfl rfl rfl le_rfl
  | publish =>
    obtain ⟨slot, -, -, rfl⟩ := publishNext_eq_some hs
    exact ⟨(take_prefix_take_left (Nat.le_succ _)).map _, prefix_rfl, slot.le_raiseHorizon _, le_rfl⟩
  | fail =>
    cases hs
    exact .of_eq rfl rfl rfl rfl le_rfl
  | rollBack cutErr writeBackErr =>
    obtain ⟨-, rfl⟩ := step_rollBack_eq_some hs
    exact (grows_cutBack cutErr).trans grows_writeBack
  | rotate stampLen =>
    obtain ⟨-, -, rfl⟩ := sealActive_eq_some hs
    exact .of_eq rfl rfl rfl rfl (Nat.le_succ _)

def decided (s : PipelineState) : List Slot := s.slots ++ s.pending.toList

theorem mem_decided : slot ∈ s.decided ↔ slot ∈ s.slots ∨ s.pending = some slot := by
  rw [decided, mem_append, Option.mem_toList]

def Applied (s : PipelineState) : Prop := ∀ slot ∈ s.slots, slot.Stands → slot.applied = true

theorem writeBack_keeps : (writeBackReservations engine hostErr failed s).slots = s.slots ∧
      (writeBackReservations engine hostErr failed s).pending = s.pending ∧
      (writeBackReservations engine hostErr failed s).tip.memtable = s.tip.memtable ∧
      (writeBackReservations engine hostErr failed s).view = s.view := by
  rw [writeBackReservations]
  split_ifs
  · exact ⟨rfl, rfl, rfl, rfl⟩
  · cases hlog : logAlone engine hostErr (reservedPuts (lastReserved failed)) s with
    | error err => exact ⟨rfl, rfl, rfl, rfl⟩
    | ok logged =>
      obtain rfl := logAlone_eq_ok hlog
      exact ⟨rfl, rfl, rfl, rfl⟩

theorem slots_rollBack (cutErr writeBackErr : Option IoError) :
    (s.rollBack engine cutErr writeBackErr).slots =
      s.slots.take s.kept ++ s.discarded.map fun slot => { slot with failed := true } :=
  writeBack_keeps.1

theorem pending_rollBack (cutErr writeBackErr : Option IoError) :
    (s.rollBack engine cutErr writeBackErr).pending = s.pending := writeBack_keeps.2.1

/-- A published slot was applied. -/
theorem applied_step (h : s.Applied) (hs : s.step engine action = some s') : s'.Applied := by
  cases action with
  | decide work =>
    obtain ⟨-, -, -, rfl⟩ := decideNext_eq_some hs
    exact h
  | apply =>
    obtain ⟨slot, -, -, -, rfl⟩ := applyNext_eq_some hs
    exact h
  | applyLate index =>
    obtain ⟨slot, hslot, -, -, -, rfl⟩ := applyLate_eq_some hs
    intro x hx hstd
    rcases mem_or_eq_of_mem_set hx with hx | rfl
    · exact h x hx hstd
    · rfl
  | settle =>
    obtain ⟨slot, -, ⟨-, rfl⟩ | ⟨-, ha, rfl⟩⟩ := settleNext_eq_some hs
    · intro x hx hstd
      rcases mem_concat.mp hx with hx | rfl
      · exact h x hx hstd
      · cases hstd.1
    · intro x hx hstd
      rcases mem_concat.mp hx with hx | rfl
      · exact h x hx hstd
      · exact ha hstd.2
  | write index =>
    obtain ⟨slot, hslot, -, rfl⟩ := writeRecord_eq_some hs
    intro x hx hstd
    rcases mem_or_eq_of_mem_set hx with hx | rfl
    · exact h x hx hstd
    · exact h slot (mem_of_getElem? hslot) ⟨hstd.1, hstd.2⟩
  | sync upto =>
    obtain ⟨-, rfl⟩ := syncThrough_eq_some hs
    exact h
  | publish =>
    obtain ⟨slot, -, -, rfl⟩ := publishNext_eq_some hs
    exact h
  | fail =>
    cases hs
    exact h
  | rollBack cutErr writeBackErr =>
    obtain ⟨-, rfl⟩ := step_rollBack_eq_some hs
    intro x hx hstd
    rw [slots_rollBack] at hx
    rcases mem_append.mp hx with hx | hx
    · exact h x (mem_of_mem_take hx) hstd
    · obtain ⟨old, -, rfl⟩ := mem_map.mp hx
      cases hstd.1
  | rotate stampLen =>
    obtain ⟨-, -, rfl⟩ := sealActive_eq_some hs
    exact h

/-- What the memtable holds that did not land was written by a slot applied to it. -/
def Sourced (base : ReadView) (s : PipelineState) (id : Nat) : Prop :=
  ∀ w, (s.memtables id).Has w → s.Settled base w ∨
    ∃ slot ∈ s.decided, slot.applied = true ∧ slot.decision.after.memtable = id ∧ slot.Writes w

/-- Slots that are applied stay so, with their decisions. -/
def KeepsApplied (s s' : PipelineState) : Prop :=
  ∀ slot ∈ s.decided, slot.applied = true →
    ∃ slot' ∈ s'.decided, slot'.applied = true ∧ slot'.work = slot.work ∧
      slot'.decision = slot.decision

theorem Sourced.of_grows (h : s.Sourced base id) (hg : s.Grows s') (hk : s.KeepsApplied s')
    (hadds : ∀ w, (s'.memtables id).Has w → (s.memtables id).Has w ∨ ∃ slot ∈ s'.decided,
      slot.applied = true ∧ slot.decision.after.memtable = id ∧ slot.Writes w) :
    s'.Sourced base id := by
  intro w hw
  rcases hadds w hw with hw | hslot
  · rcases h w hw with hs | ⟨slot, hslot, ha, hid, hw⟩
    · exact .inl (hg.settled hs)
    · obtain ⟨slot', hslot', happlied', hwork, hdcn⟩ := hk slot hslot ha
      refine .inr ⟨slot', hslot', happlied', hdcn ▸ hid, ?_⟩
      rw [Writes, Slot.ops, hwork, hdcn]
      exact hw
  · exact .inr hslot

theorem KeepsApplied.of_subset (h : s.decided ⊆ s'.decided) : s.KeepsApplied s' :=
  fun slot hs ha => ⟨slot, h hs, ha, rfl, rfl⟩

theorem KeepsApplied.of_set {new : Slot} (hs : s.slots[i]? = some slot)
    (hsls : s'.slots = s.slots.set i new) (hp : s'.pending = s.pending)
    (hwork : new.work = slot.work) (hdcn : new.decision = slot.decision)
    (hnew : slot.applied = true → new.applied = true) : s.KeepsApplied s' := by
  intro x hx ha
  rcases mem_decided.mp hx with hx | hx
  · rcases mem_set_or_eq hs hx with hx | rfl
    · exact ⟨x, mem_decided.mpr (.inl (hsls ▸ hx)), ha, rfl, rfl⟩
    · refine ⟨new, mem_decided.mpr (.inl ?_), hnew ha, hwork, hdcn⟩
      rw [hsls]
      exact List.mem_set (lt_of_getElem? hs) _
  · exact ⟨x, mem_decided.mpr (.inr (hp ▸ hx)), ha, rfl, rfl⟩

theorem has_applySlot (h : (s.applySlot slot id).Has w) :
    (s.memtables id).Has w ∨ slot.decision.after.memtable = id ∧ slot.Writes w := by
  rw [applySlot] at h
  rcases eq_or_ne id slot.decision.after.memtable with rfl | hne
  · rw [update_self] at h
    exact (MemTable.has_of_apply h).imp_right fun h => ⟨rfl, h⟩
  · rw [update_of_ne hne] at h
    exact .inl h

theorem memtables_rollBack (hid : id < s.fresh) :
    (s.rollBack engine cutErr writeBackErr).memtables id = s.memtables id := by
  have hcut : (s.cutBack engine cutErr).memtables id = s.memtables id :=
    update_of_ne hid.ne _ _
  have htip : (s.cutBack engine cutErr).tip.memtable = s.fresh := rfl
  rw [rollBack, writeBackReservations]
  split_ifs
  · exact hcut
  · cases hlog : logAlone engine writeBackErr (reservedPuts (lastReserved s.discarded))
        (s.cutBack engine cutErr) with
    | error err => exact hcut
    | ok logged =>
      obtain rfl := logAlone_eq_ok hlog
      simp only [htip]
      rw [update_of_ne hid.ne]
      exact hcut

theorem keepsApplied_rollBack : s.KeepsApplied (s.rollBack engine cutErr writeBackErr) := by
  intro slot hs ha
  rcases mem_decided.mp hs with hs | hs
  · rw [← take_append_drop s.kept s.slots, mem_append] at hs
    rcases hs with hs | hs
    · exact ⟨slot, mem_decided.mpr (.inl (slots_rollBack .. ▸ mem_append_left _ hs)), ha, rfl, rfl⟩
    · refine ⟨{ slot with failed := true }, mem_decided.mpr (.inl ?_), ha, rfl, rfl⟩
      rw [slots_rollBack]
      exact mem_append_right _ (mem_map_of_mem hs)
  · exact ⟨slot, mem_decided.mpr (.inr ((pending_rollBack ..).trans hs)), ha, rfl, rfl⟩

/-- A memtable takes writes only of slots decided into it. -/
theorem sourced_step (hsnd : s.outline.Sound base) (hid : id < s.fresh) (h : s.Sourced base id)
    (hs : s.step engine action = some s') : s'.Sourced base id := by
  have hg := grows_step hsnd hs
  cases action with
  | decide work =>
    obtain ⟨hp, -, -, rfl⟩ := decideNext_eq_some hs
    refine h.of_grows hg (.of_subset fun slot hslot => ?_) fun w hw => .inl hw
    refine mem_decided.mpr (.inl ((mem_decided.mp hslot).resolve_right fun hslot => ?_))
    rw [hp] at hslot
    cases hslot
  | apply =>
    obtain ⟨slot, hp, -, ha, rfl⟩ := applyNext_eq_some hs
    refine h.of_grows hg (fun x hx hxapplied => ?_) fun w hw => ?_
    · rcases mem_decided.mp hx with hx | hx
      · exact ⟨x, mem_decided.mpr (.inl hx), hxapplied, rfl, rfl⟩
      · obtain rfl := Option.mem_unique hp hx
        rw [ha] at hxapplied
        cases hxapplied
    · refine (has_applySlot hw).imp_right fun hslot => ?_
      exact ⟨_, mem_decided.mpr (.inr rfl), rfl, hslot⟩
  | applyLate index =>
    obtain ⟨slot, hslot, -, -, -, rfl⟩ := applyLate_eq_some hs
    refine h.of_grows hg (.of_set hslot rfl rfl rfl rfl fun _ => rfl) fun w hw => ?_
    refine (has_applySlot hw).imp_right fun hws => ?_
    refine ⟨_, mem_decided.mpr (.inl (List.mem_set (lt_of_getElem? hslot) _)), rfl, hws⟩
  | settle =>
    obtain ⟨slot, hp, hcases⟩ := settleNext_eq_some hs
    have hsls : ∃ new : Slot, s'.slots = s.slots ++ [new] ∧ new.applied = slot.applied ∧
        new.work = slot.work ∧ new.decision = slot.decision ∧ s'.memtables = s.memtables := by
      rcases hcases with ⟨-, rfl⟩ | ⟨-, -, rfl⟩
      · exact ⟨_, rfl, rfl, rfl, rfl, rfl⟩
      · exact ⟨_, rfl, rfl, rfl, rfl, rfl⟩
    obtain ⟨new, hsls, hnew, hwork, hdcn, hmems⟩ := hsls
    refine h.of_grows hg (fun x hx ha => ?_) fun w hw => .inl (hmems ▸ hw)
    rcases mem_decided.mp hx with hx | hx
    · exact ⟨x, mem_decided.mpr (.inl (hsls ▸ mem_append_left _ hx)), ha, rfl, rfl⟩
    · obtain rfl := Option.mem_unique hp hx
      refine ⟨new, mem_decided.mpr (.inl ?_), hnew.trans ha, hwork, hdcn⟩
      rw [hsls]
      exact mem_append_right _ mem_cons_self
  | write index =>
    obtain ⟨slot, hslot, -, rfl⟩ := writeRecord_eq_some hs
    exact h.of_grows hg (.of_set hslot rfl rfl rfl rfl fun h => h) fun w hw => .inl hw
  | sync upto =>
    obtain ⟨-, rfl⟩ := syncThrough_eq_some hs
    exact h.of_grows hg (.of_subset (.refl _)) fun w hw => .inl hw
  | publish =>
    obtain ⟨slot, -, -, rfl⟩ := publishNext_eq_some hs
    exact h.of_grows hg (.of_subset (.refl _)) fun w hw => .inl hw
  | fail =>
    cases hs
    exact h.of_grows hg (.of_subset (.refl _)) fun w hw => .inl hw
  | rollBack cutErr writeBackErr =>
    obtain ⟨-, rfl⟩ := step_rollBack_eq_some hs
    exact h.of_grows hg keepsApplied_rollBack fun w hw => .inl (memtables_rollBack hid ▸ hw)
  | rotate stampLen =>
    obtain ⟨-, -, rfl⟩ := sealActive_eq_some hs
    refine h.of_grows hg (.of_subset (.refl _)) fun w hw => .inl ?_
    simp only [update_of_ne hid.ne] at hw
    rcases eq_or_ne id s.view.active with rfl | hne
    · rw [update_self] at hw
      cases w <;> exact hw
    · rwa [update_of_ne hne] at hw

theorem has_of_mem_memtables (hid : id ∈ v.memtables)
    (h : (s.memtables id).Has w) : (s.readView v).Has w := by
  have hmem : s.memtables id ∈ (s.readView v).memtables := by
    rcases mem_cons.mp hid with rfl | hid
    · exact mem_cons_self
    · exact mem_cons_of_mem _ (mem_reverse.mpr (mem_map_of_mem hid))
  refine ⟨.memtable (s.memtables id), mem_append_left _ (mem_map_of_mem hmem), ?_⟩
  cases w <;> exact h

theorem hasBelow_of_mem_frozen (hid : id ∈ v.frozen) (h : (s.memtables id).Has w) :
    (s.readView v).HasBelow w := by
  have hmem : s.memtables id ∈ (s.readView v).frozen.reverse :=
    mem_reverse.mpr (mem_map_of_mem hid)
  refine ⟨.memtable (s.memtables id), mem_append_left _ (mem_map_of_mem hmem), ?_⟩
  cases w <;> exact h

theorem sourced_of_mem_view (h : s.outline.Sound base) (happ : s.Applied)
    (hid : id ∈ s.view.memtables) : s.Sourced base id := by
  intro w hw
  have hact : s.horizon < w.seq → id = s.tip.memtable := fun hlt => by
    rcases mem_cons.mp hid with rfl | hid
    · exact h.placed.active
    · exact absurd (h.shows.belowActive w (hasBelow_of_mem_frozen hid hw)) hlt.not_ge
  rcases (h.shows.contents w).mp (has_of_mem_memtables hid hw) with
    (hw | ⟨fate, hfate, hf, hw⟩ | hw) | ⟨slot, hs, hslotApplied, hn, hw⟩
  · exact .inl (.inl hw)
  · obtain ⟨hpos, hfst, -⟩ := (h.numbered.counted fate hfate).bounds hw
    rw [← take_append_drop s.outline.published s.outline.fates, mem_append] at hfate
    rcases hfate with hfate | hfate
    · change fate ∈ (s.slots.map erased).take s.published at hfate
      rw [← map_take] at hfate
      obtain ⟨slot, hs, rfl⟩ := mem_map.mp hfate
      exact .inl (.inr (.inl ⟨slot, ⟨hs, hf⟩, hw⟩))
    · have ha := h.numbered.ahead fate hfate ⟨hf, hpos⟩
      have hmemtable := h.placed.unpublished fate hfate hf
      change fate ∈ (s.slots.map erased).drop s.published at hfate
      rw [← map_drop] at hfate
      obtain ⟨slot, hs, rfl⟩ := mem_map.mp hfate
      have hmem := mem_of_mem_drop hs
      refine .inr ⟨slot, mem_decided.mpr (.inl hmem), happ slot hmem ⟨hf, hpos⟩, ?_, hw⟩
      exact hmemtable.trans (hact (UInt64.lt_iff_toNat_lt.mpr (ha.trans_le hfst))).symm
  · exact .inl (.inr (.inr hw))
  · obtain ⟨hpos, hfst, -⟩ := (h.pending slot hs).counted.bounds hw
    rw [first, hn.baseSeq hpos] at hfst
    refine .inr ⟨slot, mem_decided.mpr (.inr hs), hslotApplied, hn.memtable.trans ?_, hw⟩
    exact (hact (UInt64.lt_iff_toNat_lt.mpr (h.numbered.horizon.trans_le hfst))).symm

end PipelineState

end RegolithStore
