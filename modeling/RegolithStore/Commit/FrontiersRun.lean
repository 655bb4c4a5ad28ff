import RegolithStore.Commit.FrontiersRound

/-! A rollback keeps what is so of the frontiers, and with it every orderly run does. -/

namespace RegolithStore

open Lib List RingSlot RingState
open Option (map_some getD_none getD_some mem_unique some.inj)

namespace RingState

variable {s s' : RingState} {first : Nat} {slot : RingSlot} {floor cut : Nat} {b : RingSlot}
  {i : Nat}

/-- The marker takes the tip's place. -/
theorem Sound.markTip (h : s.Sound first) (hr : s.round = .frozen) :
    Sound first { s with
      tip := { s.tip with epoch := s.tip.epoch + 1, marker := true }, round := .marked } := by
  have hends : s.round.ends s.tip = (s.tip.nextSeq, s.tip.nextOff) :=
    ends_of_not_holdsTip s.tip (hr ▸ rfl)
  have hdiscarding : s.round.isDiscarding = false := hr ▸ rfl
  have hseqs := h.laid.seqs
  have hbel := h.covers.below
  rw [hends] at hseqs hbel
  refine ⟨⟨h.laid.shape, hseqs, fun log => ?_, h.laid.log_le, h.laid.old⟩, h.durable,
    ⟨h.flags.failed, fun _ => h.flags.discarded hdiscarding, h.flags.rests, h.flags.inFlight,
      h.flags.unmarked, fun b hb => (h.flags.epoch b hb).trans (Nat.le_succ _),
      fun b hb _ => Nat.lt_succ_of_le (h.flags.epoch b hb), rfl⟩,
    { h.covers with below := hbel }, fun next hn => ?_, fun d hd => ?_, h.publishers,
    h.turned, nofun, trivial⟩
  · obtain ⟨e, ht, hle, he⟩ := h.laid.records log
    exact ⟨e, ht, hle, fun hlog => (he hlog).trans (congrArg Prod.snd hends)⟩
  · have hok := h.pending next hn
    exact ⟨hok.shape, hok.fresh, hok.log_le, hok.epoch_le.trans (Nat.le_succ _),
      fun _ => Nat.lt_succ_of_le hok.epoch_le,
      fun heq => absurd hok.epoch_le (by rw [heq]; exact Nat.not_succ_le_self _)⟩
  · have hok := h.deciders d hd
    cases d with
    | idle => trivial
    | reading index => exact hok
    | holding index tip =>
      obtain ⟨hi, hlog, hep, -⟩ := hok
      have hne : tip.epoch ≠ s.tip.epoch + 1 := Nat.ne_of_lt (Nat.lt_succ_of_le hep)
      exact ⟨hi, hlog, hep.trans (Nat.le_succ _), fun _ heq => absurd heq hne,
        fun _ heq => absurd heq hne⟩

theorem Sound.freeze (h : s.Sound first) (hr : s.round = .marked) :
    Sound first { s with round := .judging } :=
  h.setRound hr rfl rfl (fun _ => rfl) h.turned nofun trivial

/-! The slots a rollback cannot publish. -/

theorem discardRest_slots : s.discardRest.slots = s.slots.mapIdx fun i slot =>
    if i < s.published then slot else { slot with discarded := true } := by
  refine ext_getElem? fun i => ?_
  simp only [discardRest, getElem?_mapIdx, getElem?_append, getElem?_map,
    getElem?_drop, length_take, getElem?_take]
  grind

theorem get_discardRest (h : s.discardRest.slots[i]? = some b) :
    ∃ a, s.slots[i]? = some a ∧ (i < s.published ∧ b = a ∨
      s.published ≤ i ∧ b = { a with discarded := true }) := by
  rw [discardRest_slots, getElem?_mapIdx] at h
  obtain ⟨a, ha, rfl⟩ := Option.map_eq_some_iff.mp h
  refine ⟨a, ha, ?_⟩
  by_cases hi : i < s.published
  · exact .inl ⟨hi, if_pos hi⟩
  · exact .inr ⟨not_lt.mp hi, if_neg hi⟩

theorem live_discardRest (h : s.discardRest.slots[i]? = some b) (hl : b.discarded = false) :
    s.slots[i]? = some b ∧ i < s.published := by
  obtain ⟨a, ha, ⟨hi, rfl⟩ | ⟨-, rfl⟩⟩ := get_discardRest h
  · exact ⟨ha, hi⟩
  · cases hl

theorem kept_discardRest {a : RingSlot} (h : s.slots[i]? = some a) (hi : i < s.published) :
    s.discardRest.slots[i]? = some a := by
  rw [discardRest_slots, getElem?_mapIdx, h, map_some, if_pos hi]

theorem publishable_eq_false {durable : Nat → Nat} : slot.publishable durable = false ↔
    0 < slot.ops ∧ slot.failed = false ∧ slot.isWritten durable = false := by
  simp only [publishable, commits, Bool.or_eq_false_iff, Bool.not_eq_false',
    decide_eq_true_iff, and_assoc]

/-- A slot that cannot be published is live, and past the horizon. -/
theorem Sound.unpublishable (h : s.Sound first) (hr : s.round = .judging)
    (hs : s.slots[s.published]? = some slot) (hnot : slot.publishable s.durable = false) :
    slot.discarded = false ∧ 0 < slot.ops ∧ s.horizon < slot.base ∧
      ∃ p, slot.place = some p ∧ slot.after.log = s.tip.log ∧ s.durable s.tip.log ≤ p.offset := by
  obtain ⟨hops, hf, hwr⟩ := publishable_eq_false.mp hnot
  have hmem := mem_of_getElem? hs
  have hl : slot.discarded = false := by
    refine Bool.eq_false_iff.mpr fun hd => ?_
    rw [h.flags.discarded (hr ▸ rfl) slot hmem hd] at hf
    cases hf
  refine ⟨hl, hops, ?_, ?_⟩
  · refine (h.covers.apart slot hmem hl hops).resolve_left fun hle => ?_
    rw [h.covers.written s.published slot hs hl hops (.inr hle)] at hwr
    cases hwr
  · obtain ⟨p, hp⟩ : ∃ p, slot.place = some p := by
      rw [← Option.isSome_iff_exists, ← Option.not_isNone, Bool.not_eq_true', Bool.eq_false_iff]
      intro hn
      rw [isWritten, Option.isNone_iff_eq_none.mp hn] at hwr
      cases hwr
    have hlog : slot.after.log = s.tip.log := by
      by_contra hne
      exact lt_irrefl _ (h.laid.old s.published slot hs hl (hp ▸ rfl) hne)
    refine ⟨p, hp, hlog, Nat.le_of_not_lt fun hlt => ?_⟩
    obtain ⟨hw, hstop⟩ := h.durable slot hmem hl hlog p hp hlt
    simp [isWritten, hp, hw, hlog, hstop] at hwr

theorem filterMap_discardRest {β : Type*} {f : RingSlot → Option β}
    (hf : ∀ a, a.discarded = true → f a = none) :
    s.discardRest.slots.filterMap f = (s.slots.take s.published).filterMap f := by
  simp only [discardRest, filterMap_append, filterMap_map]
  have hr : (s.slots.drop s.published).filterMap
      (f ∘ fun slot => { slot with discarded := true }) = [] :=
    filterMap_eq_nil_iff.mpr fun a _ => hf { a with discarded := true } rfl
  rw [hr, append_nil]

theorem tiles_take {f : RingSlot → Option (Nat × Nat)} {o e : Nat} {span : Nat × Nat}
    (h : Tiles Prod.fst Prod.snd o (s.slots.filterMap f) e)
    (hs : s.slots[s.published]? = some slot) (hspan : f slot = some span) :
    Tiles Prod.fst Prod.snd o ((s.slots.take s.published).filterMap f) span.1 := by
  obtain ⟨hlt, rfl⟩ := List.getElem?_eq_some_iff.mp hs
  rw [← take_append_drop s.published s.slots, drop_eq_getElem_cons hlt,
    filterMap_append, filterMap_cons_some hspan, tiles_append] at h
  obtain ⟨m, hk, hm, -⟩ := h
  exact hm ▸ hk

structure KeptTo (first : Nat) (s : RingState) (floor cut : Nat) : Prop where
  seqs : Tiles Prod.fst Prod.snd first
    ((s.slots.take s.published).filterMap seqSpan?) floor
  records : Tiles Prod.fst Prod.snd (s.stampLen s.tip.log)
    ((s.slots.take s.published).filterMap (spanIn? s.tip.log)) cut
  durable : s.durable s.tip.log ≤ cut
  below : s.horizon < floor

/-- What is kept ends where the first discarded slot begins. -/
theorem Sound.keptTo (h : s.Sound first) (hrnd : s.round = .judging)
    (hnot : ∀ slot, s.slots[s.published]? = some slot → slot.publishable s.durable = false) :
    s.KeptTo first (s.floorOf (s.slots.drop s.published))
      (s.cutOf (s.slots.drop s.published)) := by
  have hseqs := h.laid.seqs
  obtain ⟨e, hr, -, he⟩ := h.laid.records s.tip.log
  have hdur := h.durable_le
  have hb := h.covers.below
  rw [hrnd, RingRound.ends] at hdur hb hseqs he
  cases hs : s.slots[s.published]? with
  | none =>
    have hlen := getElem?_eq_none_iff.mp hs
    rw [drop_eq_nil_iff.mpr hlen]
    refine ⟨?_, ?_, le_max_right _ _, hb⟩
    · rw [take_of_length_le hlen, floorOf]
      exact hseqs
    · rw [take_of_length_le hlen, cutOf]
      simp only [find?_nil, Option.bind_none, getD_none]
      rw [max_eq_left hdur]
      exact he rfl ▸ hr
  | some slot =>
    obtain ⟨hl, hops, hh, p, hp, hlog, hle⟩ := h.unpublishable hrnd hs (hnot slot hs)
    have hcommits : slot.commits = true := commits_eq_true.mpr hops
    have hin : (fun slot : RingSlot => slot.isIn s.tip.log) slot = true :=
      isIn_eq_true.mpr ⟨⟨p, hp⟩, hlog⟩
    obtain ⟨hlt, heq⟩ := List.getElem?_eq_some_iff.mp hs
    have hf : s.floorOf (s.slots.drop s.published) = slot.base := by
      rw [floorOf, drop_eq_getElem_cons hlt, heq, find?_cons_of_pos hcommits]
      rfl
    have hcut : s.cutOf (s.slots.drop s.published) = p.offset := by
      rw [cutOf, drop_eq_getElem_cons hlt, heq,
        find?_cons_of_pos (p := fun slot : RingSlot => slot.isIn s.tip.log) hin]
      simp only [Option.bind_some, hp, map_some, getD_some]
      exact max_eq_left hle
    rw [hf, hcut]
    exact ⟨tiles_take hseqs hs (seqSpan?_of_live hl hops),
      tiles_take hr hs (hlog ▸ spanIn?_of_live hl hp), hle, hh⟩

theorem Laid.discardRest (h : s.Laid first)
    (hk : s.KeptTo first (s.floorOf (s.slots.drop s.published))
      (s.cutOf (s.slots.drop s.published))) : s.discardRest.Laid first := by
  refine ⟨fun b hb => ?_, ?_, fun log => ?_, fun b hb => ?_, fun i b hb hl _ _ => ?_⟩
  · obtain ⟨i, hi⟩ := mem_iff_getElem?.mp hb
    obtain ⟨a, ha, ⟨-, rfl⟩ | ⟨-, rfl⟩⟩ := get_discardRest hi
    · exact h.shape _ (mem_of_getElem? ha)
    · have hs := h.shape a (mem_of_getElem? ha)
      exact ⟨hs.place, hs.marker⟩
  · rw [filterMap_discardRest (f := seqSpan?) fun a hd => if_neg (by simp [hd])]
    exact hk.seqs
  · rw [filterMap_discardRest fun a => spanIn?_of_discarded]
    obtain ⟨e, ht, hle, -⟩ := h.records log
    by_cases hlog : log = s.tip.log
    · subst hlog
      exact ⟨_, hk.records, hk.durable, fun _ => rfl⟩
    · refine ⟨e, ?_, hle, fun heq => absurd heq hlog⟩
      -- the rest has no live record of another log
      have hn : (s.slots.drop s.published).filterMap (spanIn? log) = [] := by
        refine filterMap_eq_nil_iff.mpr fun b hb => Option.eq_none_iff_forall_ne_some.mpr ?_
        intro span hspan
        obtain ⟨hl, hin, p, hp, -⟩ := spanIn?_eq_some hspan
        obtain ⟨j, hj⟩ := mem_iff_getElem?.mp hb
        rw [getElem?_drop] at hj
        have hlt := h.old _ b hj hl (hp ▸ rfl) fun heq => hlog (hin.symm.trans heq)
        omega
      rw [← take_append_drop s.published s.slots, filterMap_append, hn, append_nil] at ht
      exact ht
  · obtain ⟨i, hi⟩ := mem_iff_getElem?.mp hb
    obtain ⟨a, ha, ⟨-, rfl⟩ | ⟨-, rfl⟩⟩ := get_discardRest hi
    · exact h.log_le _ (mem_of_getElem? ha)
    · exact h.log_le a (mem_of_getElem? ha)
  · exact (live_discardRest hb hl).2

theorem mem_discardRest (hb : b ∈ s.discardRest.slots) (hl : b.discarded = false) :
    b ∈ s.slots := by
  obtain ⟨i, hi⟩ := mem_iff_getElem?.mp hb
  exact mem_of_getElem? (live_discardRest hi hl).1

theorem Flags.discardRest (h : s.Flags) (hr : s.round = .judging) : s.discardRest.Flags := by
  have hm : s.tip.marker = true := h.marker.trans (hr ▸ rfl)
  have hlen : s.discardRest.slots.length = s.slots.length := by
    rw [discardRest_slots, length_mapIdx]
  have hold : ∀ b ∈ s.discardRest.slots, ∃ a ∈ s.slots, b.failed = a.failed ∧
      b.after = a.after ∧ (a.discarded = true → b.discarded = true) := by
    intro b hb
    obtain ⟨i, hi⟩ := mem_iff_getElem?.mp hb
    obtain ⟨a, ha, ⟨-, rfl⟩ | ⟨-, rfl⟩⟩ := get_discardRest hi
    · exact ⟨_, mem_of_getElem? ha, rfl, rfl, id⟩
    · exact ⟨a, mem_of_getElem? ha, rfl, rfl, fun _ => rfl⟩
  refine ⟨fun b hb hf => ?_, nofun, fun b hb hl => ?_, fun i hi => hlen ▸ h.inFlight i hi,
    fun i hi => ?_, fun b hb => ?_, fun b hb _ => ?_, hm⟩
  · obtain ⟨a, ha, hfail, -, hd⟩ := hold b hb
    exact hd (h.failed a ha (hfail ▸ hf))
  · exact h.rests b (mem_discardRest hb hl) hl
  · obtain ⟨a, ha, hor⟩ := h.unmarked i hi
    by_cases hlt : i < s.published
    · exact ⟨a, kept_discardRest ha hlt, hor⟩
    · refine ⟨{ a with discarded := true }, ?_, .inr rfl⟩
      rw [discardRest_slots, getElem?_mapIdx, ha, map_some, if_neg hlt]
  · obtain ⟨a, ha, -, haft, -⟩ := hold b hb
    exact haft ▸ h.epoch a ha
  · obtain ⟨a, ha, -, haft, -⟩ := hold b hb
    exact haft ▸ h.stale a ha (.inr hm)

theorem PublisherOk.discardRest {p : Publisher} (h : s.PublisherOk p)
    (hnot : ∀ slot, s.slots[s.published]? = some slot → slot.publishable s.durable = false) :
    s.discardRest.PublisherOk p := by
  have hk : ∀ {i a}, i ≤ s.published → s.slots[i]? = some a → s.Ready a →
      s.discardRest.slots[i]? = some a := by
    intro i a hle ha hr
    rcases Nat.lt_or_eq_of_le hle with hlt | rfl
    · exact kept_discardRest ha hlt
    · have hwr := (publishable_eq_false.mp (hnot a ha)).2.2
      rw [hr.2] at hwr
      cases hwr
  have hs : ∀ {i : Nat} {a : RingSlot} {P : RingSlot → Prop}, i ≤ s.published →
      s.slots[i]? = some a → (P a → s.Ready a) → a.failed = true ∨ a.ops = 0 ∨ P a →
      ∃ b, s.discardRest.slots[i]? = some b ∧ (b.failed = true ∨ b.ops = 0 ∨ P b) := by
    intro i a P hle ha hr hor
    rw [← or_assoc] at hor
    rcases hor with hor | hP
    · rw [discardRest_slots, getElem?_mapIdx, ha]
      refine ⟨_, rfl, ?_⟩
      split_ifs <;> exact hor.imp_right .inl
    · exact ⟨a, hk hle ha (hr hP), .inr (.inr hP)⟩
  cases p with
  | idle | unfrozen => trivial
  | looking index | unfailed index => exact h
  | cleared index =>
    obtain ⟨hle, a, ha, hor⟩ := h
    exact ⟨hle, hs hle ha id hor⟩
  | raising index =>
    obtain ⟨hle, a, ha, hops, hr⟩ := h
    exact ⟨hle, a, hk hle ha hr, hops, hr⟩
  | passing index =>
    obtain ⟨hle, a, ha, hor⟩ := h
    exact ⟨hle, hs hle ha And.left hor⟩

section

variable (h : s.Sound first)

include h

/-- Discarding the rest keeps the invariant. -/
theorem Sound.discardRest (hr : s.round = .judging)
    (hnot : ∀ slot, s.slots[s.published]? = some slot → slot.publishable s.durable = false) :
    s.discardRest.Sound first := by
  have hk := h.keptTo hr hnot
  have hlen : s.discardRest.slots.length = s.slots.length := by
    rw [discardRest_slots, length_mapIdx]
  refine ⟨h.laid.discardRest hk, fun b hb hl => ?_, h.flags.discardRest hr,
    ⟨hlen ▸ h.covers.decided_le, hlen ▸ h.covers.published_le, fun i b hb hl => ?_,
      fun i b hb hl => ?_, fun i b hb hl => ?_, fun b hb hl => ?_, hk.below⟩,
    fun next hn => { h.pending next hn with },
    fun d hd => (h.deciders d hd).marks hlen.symm,
    fun p hp => (h.publishers p hp).discardRest hnot,
    ⟨fun b hb hl => h.turned.1 b (mem_discardRest hb hl) hl, h.turned.2⟩, nofun,
    fun i b hb hl => (live_discardRest hb hl).2⟩
  · exact h.durable b (mem_discardRest hb hl) hl
  · exact h.covers.written i b (live_discardRest hb hl).1 hl
  · exact h.covers.reached i b (live_discardRest hb hl).1 hl
  · exact h.covers.visible i b (live_discardRest hb hl).1 hl
  · exact h.covers.apart b (mem_discardRest hb hl) hl

theorem Sound.judgeNext (hrnd : s.round = .judging) :
    s.judgeNext.Sound first := by
  rw [RingState.judgeNext]
  cases hs : s.slots[s.published]? with
  | none => exact h.discardRest hrnd fun slot hsome => by simp [hs] at hsome
  | some slot =>
    simp only []
    split_ifs with hpubb
    · have hlen := lt_of_getElem? hs
      have hmem := mem_of_getElem? hs
      rw [RingSlot.raise]
      split_ifs with hr
      · rw [Bool.and_eq_true, commits_eq_true, Bool.not_eq_true'] at hr
        have hl : slot.discarded = false := by
          refine Bool.eq_false_iff.mpr fun hd => ?_
          rw [h.flags.discarded (hrnd ▸ rfl) slot hmem hd] at hr
          cases hr.2
        have hwr : slot.isWritten s.durable = true := by
          rw [publishable, commits_eq_true.mpr hr.1, hr.2] at hpubb
          exact hpubb
        refine (h.setHorizon hs le_rfl hr.1 ⟨hl, hwr⟩).setPublished hlen ?_
        intro b hb _ _
        obtain rfl := mem_unique hs hb
        exact ⟨hwr, le_max_right _ _⟩
      · refine h.setPublished hlen fun b hb hl hops => absurd ?_ hr
        obtain rfl := mem_unique hs hb
        rw [Bool.and_eq_true, commits_eq_true, Bool.not_eq_true']
        refine ⟨hops, Bool.eq_false_iff.mpr fun hf => ?_⟩
        rw [h.flags.failed slot hmem hf] at hl
        cases hl
    · refine h.discardRest hrnd fun b hb => ?_
      obtain rfl := mem_unique hs hb
      exact Bool.eq_false_iff.mpr hpubb

theorem Sound.turnGate (hr : s.round = .judged floor cut) :
    Sound first { s with gateEpoch := s.tip.epoch, round := .turned floor cut } :=
  have ht : Sound first { s with round := .turned floor cut } :=
    h.setRound hr rfl rfl nofun h.turned nofun (hr ▸ h.round : s.RoundOk (.judged floor cut))
  ht.threads ht.covers.decided_le ht.pending ht.deciders ht.publishers

theorem Sound.cutLog (hr : s.round = .turned floor cut) : (s.cutLog floor cut).Sound first := by
  have hm : Pointwise SlotMarks s.slots
      (s.slots.map fun slot => { slot with rests := slot.rests && !slot.discarded }) :=
    .map _ fun a _ => ⟨rfl, rfl, rfl, rfl, rfl, rfl, .inl, id, id, fun hrests => by
      cases hd : a.discarded with
      | true => exact .inr rfl
      | false => exact .inl (by simp [hrests])⟩
  refine h.marks false hm (hr ▸ rfl) (hr ▸ rfl) nofun (fun b hb hl hwr => ?_)
    (fun i hi => hm.1 ▸ h.flags.inFlight i hi) (fun i hi => h.flags.unmarked_marks hm hi)
    .syncing_zero (fun _ => rfl) (hr ▸ h.round : s.RoundOk (.turned floor cut))
  obtain ⟨a, ha, rfl⟩ := mem_map.mp hb
  have hl : a.discarded = false := hl
  have hrests := h.flags.rests a ha hl hwr
  simp [hrests, hl]

theorem Sound.failDiscarded (hr : s.round = .cut floor cut) :
    (s.failDiscarded floor cut).Sound first := by
  have hm : Pointwise SlotMarks s.slots
      (s.slots.map fun slot => { slot with failed := slot.failed || slot.discarded }) :=
    .map _ fun a _ => ⟨rfl, rfl, rfl, rfl, rfl, rfl, fun hf => (Bool.or_eq_true _ _).mp hf,
      fun hf => by simp [hf], id, .inl⟩
  refine h.marks s.poisoned hm (hr ▸ rfl) (hr ▸ rfl) (fun _ b hb hd => ?_) (fun b hb hl hwr => ?_)
    (fun i hi => hm.1 ▸ h.flags.inFlight i hi) (fun i hi => h.flags.unmarked_marks hm hi) h.turned
    (fun _ => h.forgot (hr ▸ rfl)) (hr ▸ h.round : s.RoundOk (.cut floor cut))
  · obtain ⟨a, ha, rfl⟩ := mem_map.mp hb
    exact (Bool.or_eq_true _ _).mpr (.inr hd)
  · obtain ⟨a, ha, rfl⟩ := mem_map.mp hb
    exact h.flags.rests a ha hl hwr

theorem Sound.resumeKept (hr : s.round = .failed floor cut)
    (memtable : Nat) :
    Sound first { s with
      published := s.slots.length
      tip := { s.tip with nextSeq := floor, nextOff := cut, memtable, marker := false }
      round := .free } := by
  have hk : s.RoundOk (.failed floor cut) := hr ▸ h.round
  have hseqs := h.laid.seqs
  have hbel := h.covers.below
  have ht := h.forgot (hr ▸ rfl)
  have hmkr : s.tip.marker = true := h.flags.marker.trans (hr ▸ rfl)
  rw [hr] at hseqs hbel
  refine ⟨⟨h.laid.shape, hseqs, fun log => ?_, h.laid.log_le, fun i b hb _ _ _ => ?_⟩, h.durable,
    ⟨h.flags.failed, fun _ => h.flags.discarded (hr ▸ rfl), h.flags.rests,
      h.flags.inFlight, h.flags.unmarked, h.flags.epoch, fun b hb hor => ?_, rfl⟩,
    ⟨h.covers.decided_le, le_rfl, fun i b hb hl hops _ => ?_, fun i b hb _ _ _ => ?_,
      fun i b hb hl hops _ => ?_, h.covers.apart, hbel⟩, fun next hn => ?_, fun d hd => ?_,
    fun p hp => (h.publishers p hp).raise le_rfl h.covers.published_le, ?_, nofun, trivial⟩
  · obtain ⟨e, htil, hle, he⟩ := h.laid.records log
    rw [hr] at he
    exact ⟨e, htil, hle, he⟩
  · exact lt_of_getElem? hb
  · exact h.flags.stale b hb (hor.imp_right fun hm => by cases hm)
  · exact h.covers.written i b hb hl hops (.inl (hk i b hb hl))
  · exact (lt_of_getElem? hb).le
  · exact h.covers.visible i b hb hl hops (hk i b hb hl)
  · have hok := h.pending next hn
    exact ⟨hok.shape, hok.fresh, hok.log_le, hok.epoch_le, nofun,
      fun heq => absurd heq (hok.held hmkr).ne⟩
  · have hok := h.deciders d hd
    cases d with
    | idle => trivial
    | reading index => exact hok
    | holding index tip =>
      obtain ⟨hi, hlog, hep, hh, -⟩ := hok
      refine ⟨hi, hlog, hep, nofun, fun _ heq hm => ?_⟩
      rw [hh hmkr heq] at hm
      cases hm
  · rw [ht]
    exact .syncing_zero

/-- The frontiers go on from what was kept. -/
theorem Sound.resume {own : Option (Nat × Nat)} (hr : s.round = .failed floor cut)
    (hown : own.all (fun p => decide (0 < p.1 ∧ 0 < p.2)) = true) :
    (s.resume floor cut own).Sound first := by
  have hk := h.resumeKept hr s.fresh
  have hm : s.tip.marker = true := h.flags.marker.trans (hr ▸ rfl)
  cases own with
  | none =>
    simp only [RingState.resume, resumedTip, Option.toList_none, map_nil, append_nil,
      Option.map_none, getD_none, Nat.add_zero, Nat.max_zero]
    exact hk.threads le_rfl hk.pending hk.deciders hk.publishers
  | some p =>
    obtain ⟨ops, len⟩ := p
    obtain ⟨hops, hlen⟩ := of_decide_eq_true hown
    have hshape : (s.ownSlot floor cut ops len).Shape :=
      ⟨fun p hp => by obtain rfl := some.inj hp; exact ⟨hops, hlen⟩, rfl⟩
    have hpushed := hk.append (s.ownSlot floor cut ops len) s.pending rfl hshape rfl rfl
      (fun _ => rfl) rfl ⟨fun _ => rfl, rfl, fun p hp => by
        obtain rfl := some.inj hp; exact ⟨rfl, rfl⟩, nofun, rfl, rfl⟩
      fun next hn => ⟨hk.pending next hn, ((h.pending next hn).held hm).ne⟩
    have hs : (s.slots ++ [s.ownSlot floor cut ops len])[s.slots.length]? =
        some (s.ownSlot floor cut ops len) := getElem?_concat_length
    have hraised := hpushed.setHorizon hs le_rfl hops ⟨rfl, rfl⟩
    have hpassed := hraised.setPublished (by simp) fun b hb _ _ => by
      obtain rfl := mem_unique hs hb
      exact ⟨rfl, le_max_right _ _⟩
    simp only [RingState.resume, Option.toList_some, map_cons, map_nil,
      map_some, getD_some, length_append, length_singleton]
    exact hpassed.threads (by simp) hpassed.pending hpassed.deciders hpassed.publishers

end

/-- What an orderly run keeps to: a round that ends its prefix at a slot finds one that has not
failed, a thread that publishes finds no slot written that is discarded and has not failed, and no
decision is made from a rollback's marker. -/
def Orderly (s : RingState) (a : RingAction) : Prop :=
  (a = .scan → ∀ slot ∈ s.scanned, slot.failed = false) ∧
    (∀ slot ∈ s.finds a, slot.discarded = true → slot.failed = true) ∧
      ∀ tip ∈ s.installs a, tip.marker = false

instance (s : RingState) (a : RingAction) : Decidable (s.Orderly a) :=
  inferInstanceAs (Decidable (_ ∧ _ ∧ _))

/-- Every step of an orderly run keeps the invariant. -/
theorem Sound.step {a : RingAction} (h : s.Sound first) (horderly : s.Orderly a)
    (hs : s.step a = some s') : s'.Sound first := by
  cases a with rw [RingState.step] at hs
  | readDecided thread => exact h.readDecided hs
  | loadTip thread => exact h.loadTip hs
  | install thread ops len immediate => exact h.install horderly.2.2 hs
  | apply => exact h.apply hs
  | applyAgain index => exact h.applyAgain hs
  | moveTip => exact h.moveTip hs
  | settleStale => exact h.settleStale hs
  | passDecided => exact h.passDecided hs
  | startWrite index => exact h.startWrite hs
  | endWrite index fails => exact h.endWrite hs
  | mark index => exact h.mark hs
  | look thread => exact h.look hs
  | readPublished thread => exact h.readPublished hs
  | readFailed thread => exact h.readFailed hs
  | readWritten thread => exact h.readWritten horderly.2.1 hs
  | readFailedAgain thread => exact h.readFailedAgain hs
  | raise thread => exact h.raise hs
  | passPublished thread => exact h.passPublished hs
  | poison =>
    cases hs
    exact h.threads h.covers.decided_le h.pending h.deciders h.publishers
  | beginRound =>
    obtain ⟨hr, rfl⟩ := guarded_eq_some.mp hs
    exact h.beginRound hr
  | loadPublished =>
    split at hs
    case h_1 last through hr =>
      split_ifs at hs
      · cases hs
        exact h.setRound hr rfl rfl (fun _ => rfl) h.turned nofun
          trivial
      · cases hs
        exact h.loadPublished hr
    case h_2 => cases hs
  | scan =>
    split at hs
    case h_1 next last through hr => exact h.scanNext hr (horderly.1 rfl) hs
    case h_2 => cases hs
  | park =>
    split at hs
    case h_1 through hr => exact some.inj hs ▸ h.park hr
    case h_2 => cases hs
  | sync fails =>
    split at hs
    case h_1 through hr => exact some.inj hs ▸ h.syncThrough hr
    case h_2 => cases hs
  | endRound =>
    obtain ⟨hr, rfl⟩ := guarded_eq_some.mp hs
    exact h.endRound hr
  | turnAway =>
    obtain ⟨⟨hr, -⟩, rfl⟩ := guarded_eq_some.mp hs
    have hf : Sound first { s with round := .free } :=
      h.setRound hr rfl rfl (fun _ => rfl) h.turned nofun trivial
    exact hf.threads hf.covers.decided_le hf.pending hf.deciders hf.publishers
  | markTip =>
    obtain ⟨hr, rfl⟩ := guarded_eq_some.mp hs
    exact h.markTip hr
  | freeze =>
    obtain ⟨hr, rfl⟩ := guarded_eq_some.mp hs
    exact h.freeze hr
  | judgeNext =>
    obtain ⟨hr, rfl⟩ := guarded_eq_some.mp hs
    exact h.judgeNext hr
  | turnGate =>
    split at hs
    case h_1 floor cut hr => exact some.inj hs ▸ h.turnGate hr
    case h_2 => cases hs
  | cutLog =>
    split at hs
    case h_1 floor cut hr =>
      obtain ⟨-, rfl⟩ := guarded_eq_some.mp hs
      exact h.cutLog hr
    case h_2 => cases hs
  | failDiscarded =>
    split at hs
    case h_1 floor cut hr => exact some.inj hs ▸ h.failDiscarded hr
    case h_2 => cases hs
  | resume own =>
    split at hs
    case h_1 floor cut hr =>
      rw [Option.ite_none_right_eq_some, Option.some.injEq] at hs
      exact hs.2 ▸ h.resume hr hs.1
    case h_2 => cases hs
  | rotate stampLen synced =>
    obtain ⟨⟨hr, hp, -, hpub, -, -⟩, rfl⟩ := guarded_eq_some.mp hs
    exact h.rotate hr hp hpub

/-- Every orderly run of a store keeps what is so of the frontiers. -/
theorem sound_of_run {horizon stampLen deciders publishers : Nat} {synced : Bool}
    {as : List RingAction}
    (horderly : Along step Orderly (new horizon stampLen synced deciders publishers) as)
    (hrun : run step (new horizon stampLen synced deciders publishers) as = some s) :
    s.Sound (horizon + 1) :=
  run_invariant (fun _ _ _ => Sound.step) (sound_new horizon stampLen deciders publishers synced)
    horderly hrun

end RingState

end RegolithStore
