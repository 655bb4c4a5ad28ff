import RegolithStore.Commit.SyncInvariant

/-! What a settled sync covers. In an orderly run, every record below an offset a settle returns
is in the log, and no write below it is in flight or starts later until a rollback cuts the log
below it: a write counted in before the turn has left, and one counted in after it finds every
record below marked. A round that meets a failed slot takes its place for the end of the prefix,
and settles past records that are not written. -/

namespace RegolithStore

open Lib List LogSlot Option

variable {next through last k : Nat}

namespace SyncState

variable {s s' : SyncState} {slot : LogSlot} {w : Writer} {i : Nat} {x y : Nat} {a : SyncAction}
  {is : List Nat} {b : LogSlot} {upto : Nat}

/-! ### Steps of the round -/

variable (h : s.AtRest)

include h

theorem AtRest.setRound {old r : Round} (hrnd : s.round = old)
    (hold : old.isTurning = false) (hnew : r.isTurning = false) (hf : old ≠ .cut)
    {durable : Nat} {poisoned : Bool} (hr : s.RoundOk r) :
    AtRest { s with round := r, durable, poisoned } := by
  subst hrnd
  exact ⟨⟨h.gate.packs, fun ha => h.gate.away (by simpa [hold, hnew] using ha)⟩,
    { h.slots with failed := fun _ => h.slots.failed hf },
    fun slot hs => { h.pending slot hs with },
    fun w hw => { h.writers w hw with turned := fun _ => (h.writers w hw).turned hold },
    hr.marks (.refl _) rfl rfl rfl (fun _ => rfl) (fun _ => rfl) rfl rfl id, h.settled, h.turned⟩

theorem AtRest.flagged_of_scanned (hwr : ∀ i slot, s.slots[i]? = some slot → i < next →
      slot.discarded = false → slot.written = true)
    (hs : s.slots[next]? = some slot) (hl : slot.discarded = false) :
    s.Flagged slot.place.offset := by
  have hmem := mem_of_getElem? hs
  have hpos := h.slots.pos slot hmem
  refine ⟨by have := h.slots.within slot hmem hl; omega, fun b hb hd hlt => ?_⟩
  obtain ⟨i, hi⟩ := mem_iff_getElem?.mp hb
  rcases Nat.lt_trichotomy i next with hin | rfl | hin
  · exact ⟨hwr i b hi hin hd, h.slots.order i next b slot hin hi hs hd hl⟩
  · obtain rfl := mem_unique hs hi
    exact absurd hlt (lt_irrefl _)
  · have hle := h.slots.order next i slot b hin hs hi hl hd
    omega

theorem AtRest.beginSettle {through₀ : Nat} (hr : s.round = .scanning next last through₀)
    (hf : s.Flagged through) : (s.beginSettle through).AtRest := by
  have hep := h.round.epoch_eq (hr ▸ rfl)
  rw [SyncState.beginSettle]
  split_ifs with hs
  · exact h.setRound hr rfl rfl nofun ⟨hep, Nat.zero_lt_of_lt hs.1, hf, trivial⟩
  · exact h.setRound hr rfl rfl nofun hep

/-- The prefix grows past a written record. -/
theorem AtRest.scanNext (hr : s.round = .scanning next last through)
    (hfail : next < last → ∀ slot, s.slots[next]? = some slot → slot.failed = false)
    (hs : s.scanNext next last through = some s') : s'.AtRest := by
  obtain ⟨hep, hbds, hle, hwr⟩ : s.RoundOk (.scanning next last through) :=
    hr ▸ h.round
  rw [SyncState.scanNext] at hs
  split_ifs at hs with hlt
  · obtain ⟨slot, hslot, rfl⟩ := map_eq_some_iff.mp hs
    have hl : slot.discarded = false := by
      by_contra hd
      have hf := h.slots.failed (by simp [hr]) slot (mem_of_getElem? hslot)
        (Bool.not_eq_false _ ▸ hd)
      rw [hfail hlt slot hslot] at hf
      cases hf
    split_ifs with hw
    · refine h.setRound hr rfl rfl nofun ⟨hep, hbds, (lt_of_getElem? hslot), fun i a ha hi hd => ?_⟩
      rcases Nat.lt_succ_iff_lt_or_eq.mp hi with hi | rfl
      · exact hwr i a ha hi hd
      · obtain rfl := mem_unique hslot ha
        exact hw
    · exact h.beginSettle hr (h.flagged_of_scanned hwr hslot hl)
  · cases hs
    refine h.beginSettle hr ⟨hbds.through_le, fun b hb hd hb' => ?_⟩
    obtain ⟨i, hi⟩ := mem_iff_getElem?.mp hb
    obtain ⟨he, hbeg⟩ := hbds.split i b hi hd
    have hilast : i < last := by
      by_contra hge
      exact absurd hb' (not_lt.mpr (hbeg (not_lt.mp hge)))
    exact ⟨hwr i b hi (by omega) hd, he hilast⟩

omit h in
theorem Flagged.max (hx : s.Flagged x) (hy : s.Flagged y) : s.Flagged (max x y) := by
  rcases Nat.le_total x y with hle | hle
  · rwa [Nat.max_eq_right hle]
  · rwa [Nat.max_eq_left hle]

omit h in
theorem Flagged.min (hx : s.Flagged x) (hy : s.Flagged y) : s.Flagged (min x y) := by
  rcases Nat.le_total x y with hle | hle
  · rwa [Nat.min_eq_left hle]
  · rwa [Nat.min_eq_right hle]

omit h in
theorem Above.mono (h : s.Above x is) (hle : y ≤ x) : s.Above y is :=
  fun i hi slot hs => hle.trans (h i hi slot hs)

omit h in
theorem Above.max (hx : s.Above x is) (hy : s.Above y is) : s.Above (max x y) is :=
  fun i hi slot hs => max_le (hx i hi slot hs) (hy i hi slot hs)

omit h in
theorem kept_eq_nil_of_side (h : w.side? = none) : w.kept = [] := by
  cases w with
  | checking | writing => cases h
  | _ => rfl

omit h in
theorem side_ne_of_onCount (h : s.onCount k = 0) (hw : w ∈ s.writers) : w.side? ≠ some k := by
  rw [onCount, countP_eq_zero] at h
  exact fun hk => h w hw (decide_eq_true hk)

/-- Threads that found records to write are counted on the side the gate names once the other
is empty. -/
theorem AtRest.side_eq (hw : w ∈ s.writers) (hkept : w.kept ≠ [])
    (ha : s.onCount (1 - currentSide s.gate.sides) = 0) :
    w.side? = some (currentSide s.gate.sides) := by
  have hlt := h.gate.packs.side_lt
  cases hs : w.side? with
  | none => exact absurd (kept_eq_nil_of_side hs) hkept
  | some k =>
    have hk := (h.writers w hw).side_lt k hs
    have hne := side_ne_of_onCount ha hw
    rw [hs, ne_eq, some.injEq] at hne
    rw [some.injEq]
    omega

theorem AtRest.onCount_of_onSide (hk : k < 2) (hz : onSide s.gate.sides k = 0) : s.onCount k = 0 :=
  (h.gate.packs.onSide_eq hk).symm.trans hz

/-- `settle` returns an offset no thread counted in writes below, with no turn outstanding. -/
theorem AtRest.settledAt {turned upto : Nat} (hep : s.gate.epoch = s.epoch)
    (hf : s.round ≠ .cut) (hflag : s.Flagged upto)
    (ht : turned = 0) (ha : s.onCount (1 - currentSide s.gate.sides) = 0)
    (habv : ∀ w ∈ s.writers, s.Above upto w.kept) :
    AtRest (SyncState.settledAt { s with gate := { s.gate with turned } } upto) := by
  subst ht
  refine ⟨⟨h.gate.packs.setTurned 0, fun _ => ha⟩,
    { h.slots with failed := fun _ => h.slots.failed hf },
    fun slot hs => { h.pending slot hs with }, fun w hw => ?_,
    ⟨hep, le_max_right _ _⟩, h.settled.max hflag, flagged_zero _⟩
  exact { h.writers w hw with
    settled := (h.writers w hw).settled.max (habv w hw)
    turned := fun _ _ _ _ _ _ => Nat.zero_le _ }

/-- Each access of `settle` keeps the invariant. -/
theorem AtRest.settleStep {pc : Settling}
    (hr : s.round = .settling through pc) : (s.settleStep through pc).AtRest := by
  obtain ⟨hep, hpos, hf, hpc⟩ : s.RoundOk (.settling through pc) := hr ▸ h.round
  have hside := h.gate.packs.side_lt
  have hfrom : s.round ≠ .cut := by simp [hr]
  cases pc with
  | start =>
    rw [SyncState.settleStep]
    split_ifs with htrn
    · exact h.setRound hr rfl rfl (hr ▸ hfrom) ⟨hep, hpos, hf, rfl⟩
    · exact h.setRound hr rfl rfl (hr ▸ hfrom) ⟨hep, hpos, hf, not_not.mp htrn⟩
  | waiting turned =>
    rw [SyncState.settleStep]
    split_ifs with ha
    · exact h.setRound hr rfl rfl (hr ▸ hfrom)
        ⟨hep, hpos, hf, hpc, h.onCount_of_onSide (by omega) ha⟩
    · exact h.setRound hr rfl rfl (hr ▸ hfrom) ⟨hep, hpos, hf, trivial⟩
  | drained turned =>
    -- what was counted in before the turn has left, and the others looked after it
    obtain ⟨rfl, ha⟩ := hpc
    refine h.settledAt hep hfrom (h.turned.min hf) rfl ha fun w hw => ?_
    by_cases hkept : w.kept = []
    · simp [hkept, Above]
    · exact ((h.writers w hw).turned (hr ▸ rfl) (h.side_eq hw hkept ha)).mono (min_le_left _ _)
  | looking =>
    rw [SyncState.settleStep]
    split_ifs with hcur
    · have ha := h.gate.away (.inl hpc)
      refine h.settledAt hep hfrom hf hpc ha fun w hw => ?_
      by_cases hkept : w.kept = []
      · simp [hkept, Above]
      · exact absurd (h.side_eq hw hkept ha)
          (side_ne_of_onCount (h.onCount_of_onSide hside hcur) hw)
    · exact h.setRound hr rfl rfl (hr ▸ hfrom) ⟨hep, hpos, hf, hpc⟩
  | storing =>
    refine ⟨⟨h.gate.packs.setTurned through, fun _ => h.gate.away (.inl hpc)⟩,
      { h.slots with failed := fun _ => h.slots.failed hfrom },
      fun slot hs => { h.pending slot hs with }, fun w hw => ?_,
      ⟨hep, hpos, hf, rfl⟩, h.settled, hf⟩
    exact { h.writers w hw with turned := fun ht => by cases ht }
  | turning =>
    have ha := h.gate.away (.inr (hr ▸ rfl))
    have hp := h.gate.packs.flip
    have hflip : currentSide s.gate.flip.sides = 1 - currentSide s.gate.sides := hp.side_eq
    refine ⟨⟨?_, ?_⟩, { h.slots with failed := fun _ => h.slots.failed hfrom },
      fun slot hs => { h.pending slot hs with }, fun w hw => ?_,
      ⟨hep, hpos, hf, trivial⟩, h.settled, h.turned⟩
    · rw [SyncState.settleStep, hflip]
      exact hp
    · rintro (htrn | ht)
      · rw [SyncState.settleStep] at htrn
        have hne : s.gate.turned = through := hpc
        have hz : s.gate.turned = 0 := htrn
        omega
      · cases ht
    · refine { h.writers w hw with turned := fun _ hk => ?_ }
      rw [SyncState.settleStep, hflip] at hk
      exact absurd hk (side_ne_of_onCount ha hw)

theorem AtRest.parkRound (hs : s.parkRound = some s') : s'.AtRest := by
  rw [SyncState.parkRound] at hs
  split at hs
  case h_1 through turned hr =>
    rw [ite_none_left_eq_some, some.injEq] at hs
    obtain ⟨-, rfl⟩ := hs
    exact h.setRound hr rfl rfl nofun (h.round.epoch_eq (hr ▸ rfl))
  case h_2 => cases hs

omit h in
theorem AtRest.syncSettled (fails : Bool) (h : s.AtRest)
    (hr : s.round = .settled upto) : (s.syncSettled fails upto).AtRest := by
  have hep : s.RoundOk .synced := h.round.epoch_eq (hr ▸ rfl)
  rw [SyncState.syncSettled]
  split_ifs
  · exact h.setRound hr rfl rfl nofun hep
  · exact h.setRound hr rfl rfl nofun hep
  · exact h.setRound hr rfl rfl nofun hep

/-! ### Steps of a rollback -/

theorem AtRest.beginRollback (hr : s.round = .synced) :
    AtRest { s with round := .rolling, epoch := s.epoch + 1 } := by
  have hep : s.gate.epoch = s.epoch := h.round.epoch_eq (hr ▸ rfl)
  refine ⟨⟨h.gate.packs, fun ha => h.gate.away (by simpa [hr, Round.isTurning] using ha)⟩,
    { h.slots with failed := fun _ => h.slots.failed (by simp [hr]) }, fun slot hs => ?_,
    fun w hw => { h.writers w hw with
      turned := fun _ => (h.writers w hw).turned (hr ▸ rfl) },
    congrArg (· + 1) hep, h.settled, h.turned⟩
  refine { h.pending slot hs with next := fun hn => ?_ }
  have hle := (h.pending slot hs).epoch_le
  have hn : slot.place.epoch = s.epoch + 1 := hn
  omega

omit h in
theorem kept_le_length (h : s.published ≤ s.slots.length) : s.kept ≤ s.slots.length := by
  have hle := ( takeWhile_prefix (publishable s.durable) (l := s.slots.drop s.published)).length_le
  rw [length_drop] at hle
  rw [kept]
  omega

omit h in
theorem publishable_of_lt_kept (hs : s.slots[i]? = some slot) (hlt : i < s.kept)
    (hge : s.published ≤ i) : slot.publishable s.durable = true := by
  rw [kept] at hlt
  set run := (s.slots.drop s.published).takeWhile (publishable s.durable) with hrun
  have hlen : i - s.published < run.length := by omega
  have hget : run[i - s.published]? = some slot := by
    rw [getElem?_eq_getElem hlen, ( takeWhile_prefix _).getElem hlen, getElem_drop,
      ← getElem?_eq_getElem, Nat.add_sub_cancel' hge, hs]
  exact all_eq_true.mp all_takeWhile slot (mem_of_getElem? hget)

omit h in
theorem publishable_kept (hs : (s.slots.drop s.kept).head? = some slot) :
    slot.publishable s.durable = false := by
  have hspl := takeWhile_append_dropWhile (p := publishable s.durable)
    (l := s.slots.drop s.published)
  have hd : s.slots.drop s.kept = (s.slots.drop s.published).dropWhile (publishable s.durable) := by
    rw [kept, ← drop_drop]
    nth_rewrite 2 [← hspl]
    exact drop_left
  have hnot := head?_dropWhile_not (publishable s.durable) (s.slots.drop s.published)
  rw [← hd, hs] at hnot
  exact hnot

theorem AtRest.written_of_lt_kept (hs : s.slots[i]? = some slot)
    (hlt : i < s.kept) (hl : slot.discarded = false) : slot.written = true := by
  rcases Nat.lt_or_ge i s.published with hpub | hpub
  · exact h.slots.published i slot hs hpub hl
  · exact written_of_publishable (h.slots.discarded slot (mem_of_getElem? hs))
      (publishable_of_lt_kept hs hlt hpub) hl

theorem AtRest.judge (hr : s.round = .rolling) :
    AtRest { s with published := s.kept, round := .judged } := by
  have hep : s.gate.epoch + 1 = s.epoch := by
    have hok : s.RoundOk .rolling := hr ▸ h.round
    exact hok
  have hcut : s.round ≠ .cut := by simp [hr]
  refine ⟨⟨h.gate.packs, fun ha => h.gate.away (by simpa [hr, Round.isTurning] using ha)⟩,
    { h.slots with
      failed := fun _ => h.slots.failed hcut
      published_le := kept_le_length h.slots.published_le
      published := fun i slot hs hlt hd => h.written_of_lt_kept hs hlt hd },
    fun slot hs => { h.pending slot hs with },
    fun w hw => { h.writers w hw with
      turned := fun _ => (h.writers w hw).turned (hr ▸ rfl) },
    ⟨hep, fun first hfst => ?_⟩, h.settled, h.turned⟩
  have hh : (s.slots.drop s.kept).head? = some first := by
    rw [head?_drop]
    exact hfst
  have hnot := publishable_kept hh
  have hfail : first.failed = false := by
    by_contra hf
    rw [Bool.not_eq_false] at hf
    rw [publishable, hf, Bool.true_or] at hnot
    cases hnot
  refine ⟨hfail, Bool.eq_false_iff.mpr fun hd => ?_⟩
  rw [h.slots.failed hcut first (mem_of_getElem? hfst) hd] at hfail
  cases hfail

theorem AtRest.turnGate (hr : s.round = .judged) :
    AtRest { s with gate := s.gate.turn s.epoch, round := .turned } := by
  obtain ⟨hep, hstops⟩ : s.RoundOk .judged := hr ▸ h.round
  have hp := h.gate.packs.turn s.epoch
  have ht : (s.gate.turn s.epoch).epoch = s.epoch := hp.epoch_eq
  have hlt : ∀ e, e ≤ s.gate.epoch → e < (s.gate.turn s.epoch).epoch := fun e he => by omega
  refine ⟨⟨?_, fun ha =>
      h.gate.away (by simpa [hr, Round.isTurning, Gate.turn] using ha)⟩,
    { h.slots with
      epoch_le := fun slot hs => (hlt _ (h.slots.epoch_le slot hs)).le
      epoch_lt := fun slot hs _ => hlt _ (h.slots.epoch_le slot hs)
      failed := fun _ => h.slots.failed (by simp [hr]) },
    fun slot hs => { h.pending slot hs with
      epoch_le := (hlt _ (h.pending slot hs).epoch_le).le },
    fun w hw => { h.writers w hw with
      turned := fun _ => (h.writers w hw).turned (hr ▸ rfl) },
    ⟨ht, fun slot hs => ht ▸ hlt _ (h.slots.epoch_le slot hs),
      fun slot hs => ht ▸ hlt _ (h.pending slot hs).epoch_le, hstops⟩,
    h.settled, h.turned⟩
  rw [show (s.gate.turn s.epoch).epoch = s.epoch from ht]
  exact hp

omit h in
theorem getElem?_cutLog (h : s.published ≤ s.slots.length)
    (hb : s.cutLog.slots[i]? = some b) : ∃ a, s.slots[i]? = some a ∧
      (i < s.published ∧ b = a ∨
        s.published ≤ i ∧ b = { a with rests := false, discarded := true }) := by
  have hlen : (s.slots.take s.published).length = s.published := by
    rw [length_take, Nat.min_eq_left h]
  rw [cutLog] at hb
  rcases Nat.lt_or_ge i s.published with hlt | hge
  · rw [getElem?_append_left (hlen.symm ▸ hlt), getElem?_take_of_lt hlt] at hb
    exact ⟨b, hb, .inl ⟨hlt, rfl⟩⟩
  · rw [getElem?_append_right (hlen.symm ▸ hge), hlen, getElem?_map, getElem?_drop,
      Nat.add_sub_cancel' hge] at hb
    obtain ⟨a, ha, rfl⟩ := map_eq_some_iff.mp hb
    exact ⟨a, ha, .inr ⟨hge, rfl⟩⟩

omit h in
theorem length_cutLog : s.cutLog.slots.length = s.slots.length := by
  rw [cutLog, length_append, length_map, ← length_append, take_append_drop]

omit h in
theorem getElem?_of_live_cutLog (h : s.published ≤ s.slots.length)
    (hb : s.cutLog.slots[i]? = some b) (hl : b.discarded = false) :
    s.slots[i]? = some b ∧ i < s.published := by
  obtain ⟨a, ha, ⟨hlt, rfl⟩ | ⟨-, rfl⟩⟩ := getElem?_cutLog h hb
  · exact ⟨ha, hlt⟩
  · cases hl

omit h in
theorem SlotsOk.stop_le_cutAt (h : s.SlotsOk) (hstops : s.StopsLive) (hs : s.slots[i]? = some slot)
    (hlt : i < s.published) (hl : slot.discarded = false) : slot.place.stop ≤ s.cutAt := by
  refine le_trans ?_ (le_max_left _ _)
  cases hh : (s.slots.drop s.published).head? with
  | none => exact h.within slot (mem_of_getElem? hs) hl
  | some first =>
    rw [head?_drop] at hh
    exact h.order i s.published slot first hlt hs hh hl (hstops first hh).2

omit h in
theorem reserved_of_not_counted (h : w.isCounted = false) : w.reserved = [] ∧ w.side? = none := by
  cases w with
  | idle | marking => exact ⟨rfl, rfl⟩
  | _ => cases h

theorem AtRest.reserved_of_isClear (hc : s.gate.isClear = true)
    (hw : w ∈ s.writers) : w.reserved = [] ∧ w.side? = none := by
  have hz : s.inflight = 0 := h.gate.packs.isClear.mp hc
  rw [inflight, countP_eq_zero] at hz
  exact reserved_of_not_counted (Bool.not_eq_true _ ▸ hz w hw)

theorem AtRest.slots_cutLog (hr : s.round = .turned) : s.cutLog.SlotsOk := by
  obtain ⟨hep, hs, -, hstops⟩ : s.RoundOk .turned := hr ▸ h.round
  have hle := h.slots.published_le
  have hold : ∀ b ∈ s.cutLog.slots, ∃ a ∈ s.slots, b.place = a.place ∧
      (b = a ∨ b.discarded = true) := by
    intro b hb
    obtain ⟨i, hi⟩ := mem_iff_getElem?.mp hb
    obtain ⟨a, ha, ⟨-, rfl⟩ | ⟨-, rfl⟩⟩ := getElem?_cutLog hle hi
    · exact ⟨b, mem_of_getElem? ha, rfl, .inl rfl⟩
    · exact ⟨a, mem_of_getElem? ha, rfl, .inr rfl⟩
  refine ⟨fun b hb => ?_, fun i j a b hij ha hb hd hd' => ?_, fun b hb hd => ?_, fun b hb => ?_,
    fun b hb _ => ?_, fun b hb hd hw => ?_, fun b hb hf => ?_, fun hne => absurd rfl hne, ?_,
    fun i b hb hlt hd => ?_⟩
  · obtain ⟨a, ha, hpl, -⟩ := hold b hb
    exact hpl ▸ h.slots.pos a ha
  · exact h.slots.order i j a b hij (getElem?_of_live_cutLog hle ha hd).1
      (getElem?_of_live_cutLog hle hb hd').1 hd hd'
  · obtain ⟨i, hi⟩ := mem_iff_getElem?.mp hb
    obtain ⟨ha, hlt⟩ := getElem?_of_live_cutLog hle hi hd
    exact h.slots.stop_le_cutAt hstops ha hlt hd
  · obtain ⟨a, ha, hpl, -⟩ := hold b hb
    exact hpl ▸ h.slots.epoch_le a ha
  · obtain ⟨a, ha, hpl, -⟩ := hold b hb
    have hlt := hs a ha
    rw [← hpl, ← hep] at hlt
    exact hlt
  · obtain ⟨i, hi⟩ := mem_iff_getElem?.mp hb
    obtain ⟨ha, -⟩ := getElem?_of_live_cutLog hle hi hd
    exact h.slots.rests b (mem_of_getElem? ha) hd hw
  · obtain ⟨a, ha, -, rfl | hd⟩ := hold b hb
    · exact h.slots.discarded b ha hf
    · exact hd
  · exact hle.trans (length_cutLog).ge
  · exact h.slots.published i b (getElem?_of_live_cutLog hle hb hd).1 hlt hd

/-- With no write in flight the log is cut behind what is kept. -/
theorem AtRest.cutLog (hr : s.round = .turned)
    (hclr : s.gate.isClear = true) : s.cutLog.AtRest := by
  obtain ⟨hep, hsls, hp, hstops⟩ : s.RoundOk .turned := hr ▸ h.round
  have hle := h.slots.published_le
  have hqt : ∀ w ∈ s.writers, w.reserved = [] ∧ w.side? = none := fun w hw =>
    h.reserved_of_isClear hclr hw
  refine ⟨⟨h.gate.packs.setTurned 0, fun _ => ?_⟩, h.slots_cutLog hr, fun slot hslot => ?_,
    fun w hw => ?_, ⟨hep, fun b hb => ?_, hp⟩, ⟨min_le_right _ _, fun b hb hd hlt => ?_⟩,
    flagged_zero _⟩
  · refine countP_eq_zero.mpr fun w hw => ?_
    rw [(hqt w hw).2]
    simp
  · refine { h.pending slot hslot with next := fun hn => ?_ }
    exact absurd hn (hp slot hslot).ne
  · obtain ⟨hreserved, hs⟩ := hqt w hw
    have hk := kept_eq_nil_of_side hs
    refine ⟨by simp [hreserved], by simp [hs], by simp [hk, Above], by simp [hs], fun i hi => ?_⟩
    obtain ⟨a, ha, hl⟩ := (h.writers w hw).landed i hi
    have hlt : i < s.cutLog.slots.length := by
      rw [length_cutLog]
      exact lt_of_getElem? ha
    have hb := getElem?_eq_getElem hlt
    refine ⟨_, hb, ?_⟩
    obtain ⟨c, hc, ⟨-, heq⟩ | ⟨-, heq⟩⟩ := getElem?_cutLog hle hb
    · rw [heq, mem_unique hc ha]
      exact hl
    · rw [heq]
      exact .inr rfl
  · obtain ⟨i, hi⟩ := mem_iff_getElem?.mp hb
    refine ⟨?_, fun hd => ?_⟩
    · obtain ⟨a, ha, ⟨-, rfl⟩ | ⟨-, rfl⟩⟩ := getElem?_cutLog hle hi
      · exact hsls b (mem_of_getElem? ha)
      · exact hsls a (mem_of_getElem? ha)
    · obtain ⟨ha, hlt⟩ := getElem?_of_live_cutLog hle hi hd
      exact h.slots.published i b ha hlt hd
  · obtain ⟨i, hi⟩ := mem_iff_getElem?.mp hb
    obtain ⟨ha, hk⟩ := getElem?_of_live_cutLog hle hi hd
    obtain ⟨hw, hstop⟩ := h.settled.2 b (mem_of_getElem? ha) hd
      (lt_of_lt_of_le hlt (min_le_left _ _))
    exact ⟨hw, le_min hstop (h.slots.stop_le_cutAt hstops ha hk hd)⟩

theorem AtRest.resumeSlots (hr : s.round = .cut) :
    AtRest { s with
      slots := s.slots.map fun slot => { slot with failed := slot.failed || slot.discarded }
      published := s.slots.length
      round := .free } := by
  obtain ⟨hep, hsls, hp⟩ : s.RoundOk .cut := hr ▸ h.round
  have hm : Marks s.slots
      (s.slots.map fun slot => { slot with failed := slot.failed || slot.discarded }) := by
    refine ⟨(length_map _).symm, fun i a b ha hb => ?_⟩
    rw [getElem?_map, ha] at hb
    cases hb
    exact ⟨rfl, rfl, fun hf => (Bool.or_eq_true ..).mp hf, fun hf => by simp [hf], id, id⟩
  have hok := h.slots.marks hm fun b hb hd hw => by
    obtain ⟨a, ha, rfl⟩ := mem_map.mp hb
    exact h.slots.rests a ha hd hw
  refine ⟨⟨h.gate.packs, fun haway => h.gate.away (by simpa [hr, Round.isTurning] using haway)⟩,
    { hok with
      failed := fun _ b hb hd => ?_
      published_le := ?_
      published := fun i b hb _ hd => ?_ },
    fun slot hs => { h.pending slot hs with },
    fun w hw => (h.writers w hw).marks hm rfl (fun _ => by rw [hr]; rfl) rfl rfl, hep,
    h.settled.marks hm rfl, h.turned.marks hm rfl⟩
  · obtain ⟨a, -, rfl⟩ := mem_map.mp hb
    have hd : a.discarded = true := hd
    simp only [hd, Bool.or_true]
  · exact (length_map _).ge
  · obtain ⟨a, ha, hab⟩ := hm.get_old hb
    exact hab.written ((hsls a (mem_of_getElem? ha)).2 (hab.discarded ▸ hd))

/-- The log goes on from the cut. -/
theorem AtRest.resume {own : Option Nat} (hr : s.round = .cut)
    (hown : own.all fun len => decide (0 < len)) : (s.resume own).AtRest := by
  obtain ⟨hep, -, hp⟩ : s.RoundOk .cut := hr ▸ h.round
  have hresumed := h.resumeSlots hr
  cases own with
  | none =>
    simp only [SyncState.resume, toList_none, map_nil, append_nil,
      length_map, getD_none, Nat.add_zero]
    exact hresumed
  | some len =>
    have hlen : 0 < len := of_decide_eq_true hown
    set own : LogSlot := { placedAt ⟨s.nextOff, len, s.epoch⟩ false with
      written := true, rests := true } with hownEq
    have ha := hresumed.append own s.pending rfl
      (Nat.le_add_right s.nextOff len) (Nat.lt_add_of_pos_right hlen) hep.ge (fun _ => rfl)
      (fun _ => ⟨le_rfl, le_rfl, rfl⟩) nofun fun next hn =>
        { h.pending next hn with next := fun he => absurd he (hp next hn).ne }
    have hpub := ha.setPublished rfl le_rfl fun i slot hs _ hd => by
      rcases getElem?_append_singleton hs with hs | ⟨-, rfl⟩
      · exact hresumed.slots.published i slot hs (by simpa using (lt_of_getElem? hs)) hd
      · rfl
    exact hpub

omit h

/-! ### Runs -/

def scanned (s : SyncState) : Option LogSlot :=
  match s.round with
  | .scanning next last _ => if next < last then s.slots[next]? else none
  | _ => none

/-- A round meets no failed slot, and no decision is made from the tip a rollback holds. -/
def Orderly (s : SyncState) (a : SyncAction) : Prop :=
  (a = .scan → ∀ slot ∈ s.scanned, slot.failed = false) ∧
    (a.installs = true → s.round.isFrozen = false)

instance (s : SyncState) (a : SyncAction) : Decidable (s.Orderly a) :=
  inferInstanceAs (Decidable (_ ∧ _))

def CutsPast (upto : Nat) (s : SyncState) (a : SyncAction) : Prop := a = .cutLog → upto ≤ s.cutAt

instance (upto : Nat) (s : SyncState) (a : SyncAction) : Decidable (CutsPast upto s a) :=
  inferInstanceAs (Decidable (a = .cutLog → upto ≤ s.cutAt))

/-- Every step of an orderly run keeps the invariant. -/
theorem AtRest.step (h : s.AtRest) (horderly : s.Orderly a)
    (hs : s.step a = some s') : s'.AtRest := by
  cases a with
  | install len immediate => exact h.install (horderly.2 rfl) hs
  | decide => exact h.decideNext hs
  | publish => exact h.publishNext hs
  | enter thread run => exact h.enter hs
  | join thread => exact h.join hs
  | check thread => exact h.check hs
  | wrote thread fails => exact h.wrote hs
  | leaveSide thread => exact h.leaveSide hs
  | leaveWord thread => exact h.leaveWord hs
  | mark thread => exact h.mark hs
  | poison =>
    cases hs
    exact ⟨⟨h.gate.packs, h.gate.away⟩, { h.slots with },
      fun slot hslot => { h.pending slot hslot with }, fun w hw => { h.writers w hw with },
      h.round.marks (.refl _) rfl rfl rfl (fun _ => rfl) (fun _ => rfl) rfl rfl id, h.settled, h.turned⟩
  | loadTip =>
    obtain ⟨hr, rfl⟩ := guarded_eq_some.mp hs
    have hep := h.round.epoch_eq (hr ▸ rfl)
    refine h.setRound hr rfl rfl nofun
      ⟨hep, le_rfl, le_rfl, fun i slot hslot hd => ⟨fun _ => ?_, fun hge => ?_⟩⟩
    · exact h.slots.within slot (mem_of_getElem? hslot) hd
    · exact absurd (lt_of_getElem? hslot) hge.not_gt
  | loadPublished =>
    rw [SyncState.step] at hs
    split at hs
    case h_1 last through hr =>
      obtain ⟨hep, hb⟩ : s.RoundOk (.loaded last through) := hr ▸ h.round
      split_ifs at hs
      · cases hs
        exact h.setRound hr rfl rfl nofun hep
      · cases hs
        exact h.setRound hr rfl rfl nofun ⟨hep, hb, h.slots.published_le, h.slots.published⟩
    case h_2 => cases hs
  | scan =>
    rw [SyncState.step] at hs
    split at hs
    case h_1 next last through hr =>
      refine h.scanNext hr (fun hlt slot hslot => horderly.1 rfl slot ?_) hs
      rw [scanned, hr]
      exact (if_pos hlt).trans hslot
    case h_2 => cases hs
  | settle =>
    rw [SyncState.step] at hs
    split at hs
    case h_1 through pc hr =>
      cases hs
      exact h.settleStep hr
    case h_2 => cases hs
  | park => exact h.parkRound hs
  | sync fails =>
    rw [SyncState.step] at hs
    split at hs
    case h_1 upto hr =>
      cases hs
      exact h.syncSettled fails hr
    case h_2 => cases hs
  | endRound =>
    obtain ⟨hr, hs⟩ := ite_none_right_eq_some.mp hs
    split_ifs at hs
    · cases hs
      exact h.beginRollback hr
    · cases hs
      exact h.setRound hr rfl rfl nofun (h.round.epoch_eq (hr ▸ rfl))
  | judge =>
    obtain ⟨hr, rfl⟩ := guarded_eq_some.mp hs
    exact h.judge hr
  | turnGate =>
    obtain ⟨hr, rfl⟩ := guarded_eq_some.mp hs
    exact h.turnGate hr
  | cutLog =>
    obtain ⟨⟨hr, hc⟩, rfl⟩ := guarded_eq_some.mp hs
    exact h.cutLog hr hc
  | resume own =>
    obtain ⟨⟨hr, hown⟩, rfl⟩ := guarded_eq_some.mp hs
    exact h.resume hr hown

/-- So does every orderly run. -/
theorem AtRest.run {as : List SyncAction} (h : s.AtRest)
    (horderly : Along SyncState.step Orderly s as)
    (hrun : Lib.run SyncState.step s as = some s') : s'.AtRest :=
  run_invariant (fun _ _ _ hs hC hstep => hs.step hC hstep) h horderly hrun

theorem settledTo_settleStep (through : Nat) (pc : Settling) :
    s.settledTo ≤ (s.settleStep through pc).settledTo := by
  cases pc with
  | start | waiting turned =>
    rw [settleStep]
    split_ifs <;> exact le_rfl
  | drained turned => exact le_max_left _ _
  | looking =>
    rw [settleStep]
    split_ifs
    · exact le_max_left _ _
    · exact le_rfl
  | storing | turning => exact le_rfl

theorem settledTo_beginSettle (through : Nat) :
    (s.beginSettle through).settledTo = s.settledTo := by
  rw [beginSettle]
  split_ifs <;> rfl

/-- Only a cut below it takes a settled offset back. -/
theorem settledTo_step (hle : upto ≤ s.settledTo)
    (hcuts : CutsPast upto s a) (hs : s.step a = some s') : upto ≤ s'.settledTo := by
  cases a with
  | settle =>
    rw [step] at hs
    split at hs
    · exact some.inj hs ▸ hle.trans (settledTo_settleStep _ _)
    · cases hs
  | cutLog =>
    obtain ⟨-, rfl⟩ := guarded_eq_some.mp hs
    exact le_min hle (hcuts rfl)
  | scan =>
    refine hle.trans_eq ?_
    simp only [step, scanNext] at hs
    grind [settledTo_beginSettle]
  | _ =>
    refine hle.trans_eq ?_
    simp only [step, install, decideNext, publishNext, enter, join, check, wrote, leaveSide,
      leaveWord, mark, parkRound, syncSettled, resume, bind_eq_some_iff] at hs
    grind [setWriter, map_eq_some_iff]

end SyncState

open SyncState in
/-- Whatever offset a settle returns, in an orderly run: every record that ends there or below is
in the log, and no write that is in flight then, or after any further steps that cut the log
nowhere below it, touches a byte below it. -/
theorem rests_of_settled {threads stampLen upto : Nat} {synced : Bool} {as bs : List SyncAction}
    {s s' : SyncState} (hrun : Lib.run step (new threads stampLen synced) as = some s)
    (hsettled : s.round = .settled upto) (hlater : Lib.run step s bs = some s')
    (horderly : Along step Orderly (new threads stampLen synced) (as ++ bs))
    (hcuts : Along step (CutsPast upto) s bs) :
    (∀ slot ∈ s.slots, slot.discarded = false → slot.place.stop ≤ upto → slot.rests = true) ∧
      ∀ w ∈ s'.writers, ∀ i ∈ w.inFlight, ∀ slot, s'.slots[i]? = some slot →
        upto ≤ slot.place.offset := by
  obtain ⟨horderly, horderlyLater⟩ := along_append.mp horderly
  have hs : s.AtRest := (atRest_new threads stampLen synced).run horderly hrun
  have hs' : s'.AtRest := hs.run (horderlyLater s hrun) hlater
  have hupto : upto ≤ s.settledTo := by
    have hok : s.RoundOk (.settled upto) := hsettled ▸ hs.round
    exact hok.2
  have hupto' : upto ≤ s'.settledTo :=
    run_invariant (I := (upto ≤ ·.settledTo)) (fun _ _ _ => settledTo_step) hupto hcuts hlater
  refine ⟨fun slot hslot hlive hstop => ?_, fun w hw i hi slot hslot => ?_⟩
  · have hpos := hs.slots.pos slot hslot
    exact hs.slots.rests slot hslot hlive (hs.settled.2 slot hslot hlive (by omega)).1
  · exact hupto'.trans ((hs'.writers w hw).settled i (inFlight_subset_kept w hi) slot hslot)

/-- Two threads write the first of two records, one of them after a round turned the gate and
waits for it. -/
def twiceWritten : List SyncAction :=
  [.install 40 true, .decide, .install 40 false, .decide,
    .enter 0 [0, 1], .join 0, .check 0, .enter 1 [0], .join 1, .check 1, .check 1,
    .wrote 1 false, .leaveSide 1, .leaveWord 1, .mark 1, .mark 1,
    .loadTip, .loadPublished, .scan, .scan, .settle, .settle, .settle, .settle,
    .check 0, .check 0, .wrote 0 false, .leaveSide 0, .settle, .settle, .settle]

def writesNext : List SyncAction := [.sync false, .enter 1 [1], .join 1, .check 1, .check 1]

open SyncState in
/-- The record written twice and the one after it. -/
theorem rests_of_settled_twiceWritten : ∃ s s' : SyncState,
    Lib.run step (new 2 24 false) twiceWritten = some s ∧ s.round = .settled 64 ∧
      Lib.run step s writesNext = some s' ∧
      Along step Orderly (new 2 24 false) (twiceWritten ++ writesNext) ∧
      Along step (CutsPast 64) s writesNext ∧
      (∀ slot ∈ s.slots, slot.discarded = false → slot.place.stop ≤ 64 → slot.rests = true) ∧
        ∀ w ∈ s'.writers, ∀ i ∈ w.inFlight, ∀ slot, s'.slots[i]? = some slot →
          64 ≤ slot.place.offset := by
  obtain ⟨s, hs⟩ : ∃ s, Lib.run step (new 2 24 false) twiceWritten = some s :=
    isSome_iff_exists.mp (by decide +kernel)
  have hall : ∀ s, Lib.run step (new 2 24 false) twiceWritten = some s →
      s.round = .settled 64 ∧ (Lib.run step s writesNext).isSome ∧
        Along step (CutsPast 64) s writesNext := by
    intro s hs
    obtain rfl := some.inj (hs.symm.trans (some_get (by decide +kernel)).symm)
    decide +kernel
  obtain ⟨hrnd, hsome, hcuts⟩ := hall s hs
  obtain ⟨s', hs'⟩ := isSome_iff_exists.mp hsome
  have horderly : Along step Orderly (new 2 24 false) (twiceWritten ++ writesNext) := by
    decide +kernel
  exact ⟨s, s', hs, hrnd, hs', horderly, hcuts, rests_of_settled hs hrnd hs' horderly hcuts⟩

/-- A rollback discards a record no thread wrote, with a decision installed behind it that is
settled only afterwards. The next record is placed where the first one was, and a round meets
the slot in between. -/
def staleDecision : List SyncAction :=
  [.install 40 true, .decide, .install 40 false, .poison, .loadTip, .loadPublished, .endRound, .judge,
    .turnGate, .cutLog, .resume none, .decide, .install 40 true, .decide,
    .loadTip, .loadPublished, .scan, .settle, .settle]

open SyncState in
/-- The round settles past the last record, of which nothing is in the log, and a thread writes
it afterwards. -/
theorem settled_past_unwritten : ∃ s s' : SyncState,
    Lib.run step (new 1 24 false) staleDecision = some s ∧ s.round = .settled 64 ∧
      (∃ slot ∈ s.slots, slot.discarded = false ∧ slot.place.stop ≤ 64 ∧ slot.rests = false) ∧
      Lib.run step s [.enter 0 [2], .join 0, .check 0, .check 0] = some s' ∧
      ∃ w ∈ s'.writers, ∃ i ∈ w.inFlight, ∃ slot, s'.slots[i]? = some slot ∧
        slot.place.offset < 64 := by
  refine ⟨_, _, (some_get (by decide +kernel : isSome _)).symm, ?_, ?_,
    (some_get (by decide +kernel : isSome _)).symm, ?_⟩
  · decide +kernel
  · decide +kernel
  · decide +kernel

end RegolithStore
