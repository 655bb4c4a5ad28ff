import RegolithStore.Lib.Counting
import RegolithStore.Lib.Pointwise
import RegolithStore.Snapshot.Registry

/-! The entries of the registry's chains over every run. An entry's count is the number of
calls and handles that hold it; an entry that is taken and not counted has one owner, which
is writing it or freeing it; and a sequence is written only by the owner. So the sequence of
an entry stays what it is while a pin is on it. -/

namespace RegolithStore.Snapshot

open Lib List Function Call Option

variable {slot depth : Nat}

namespace Call

def holds (e : PinAt) : Call → Bool
  | joinCheck e' _ | remember e' _ | confirm e' _ | live e' _ | unpin e' _ => decide (e' = e)
  | _ => false

/-- The call has set the entry's bit and not counted itself yet, or clears the bit next. -/
def owns (e : PinAt) : Call → Bool
  | storeSeq e' _ | storePins e' _ | clear e' _ => decide (e' = e)
  | _ => false

end Call

def AfterUnpin.slot? : AfterUnpin → Option Nat
  | claim slot _ | announce slot _ => some slot
  | done => none

theorem AfterUnpin.holds_call (next : AfterUnpin) (e : PinAt) : next.call.holds e = false := by
  cases next <;> rfl

theorem AfterUnpin.owns_call (next : AfterUnpin) (e : PinAt) : next.call.owns e = false := by
  cases next <;> rfl

namespace Registry

variable (s : Registry)

def Ok : Call → Prop
  | .live e seq | .remember e seq | .confirm e seq | .storePins e seq =>
    s.InChain e ∧ s.seq e = seq
  | .joinPins e _ | .joinSeq e _ _ | .joinCheck e _ | .storeSeq e _ => s.InChain e
  | .joinSwap e _ pins => s.InChain e ∧ 1 ≤ pins
  | .unpin e next | .clear e next => s.InChain e ∧ ∀ slot ∈ next.slot?, slot < s.width
  | .visible slot | .hint slot _ | .grow slot _ _ => slot < s.width
  | .claim slot _ depth => slot < s.width ∧ depth < s.chunks slot
  | .released | .sample | .scanSlot .. | .scanNext .. | .scanTaken .. | .scanPins ..
  | .scanSeq .. | .listed _ => True

/-- How many owners an entry has: one from when its bit is set until it is counted, and from
when its last count left until the bit is cleared. -/
def owners (e : PinAt) : Nat := if s.taken e = true ∧ s.pins e = 0 then 1 else 0

structure Sound : Prop where
  width_pos : 0 < s.width
  counted : ∀ e, s.calls.countP (holds e) = s.pins e
  owned : ∀ e, s.calls.countP (Call.owns e) = s.owners e
  pinned : ∀ e, 1 ≤ s.pins e → s.taken e = true
  ok : ∀ c ∈ s.calls, s.Ok c
  hints : ∀ slot depth index, s.hint slot = some (depth, index) → s.InChain ⟨slot, depth, index⟩

variable {s} {s' : Registry} {i : Nat} {c c' : Call} {e : PinAt} {seq : Seq} {next : AfterUnpin}

section

variable (hwid : s'.width = s.width) (hchs : ∀ slot, s.chunks slot ≤ s'.chunks slot)

include hwid hchs

theorem InChain.mono (h : s.InChain e) : s'.InChain e :=
  ⟨hwid ▸ h.1, h.2.1.trans_le (hchs _), h.2.2⟩

theorem Ok.mono (hseq : ∀ e, c.holds e = true ∨ c.owns e = true → s'.seq e = s.seq e) (h : s.Ok c) :
    s'.Ok c := by
  cases c with
  | live e seq | remember e seq | confirm e seq =>
    exact ⟨h.1.mono hwid hchs, (hseq e (.inl (decide_eq_true rfl))).trans h.2⟩
  | storePins e seq =>
    exact ⟨h.1.mono hwid hchs, (hseq e (.inr (decide_eq_true rfl))).trans h.2⟩
  | joinPins e seq | joinSeq e seq pins | joinCheck e seq | storeSeq e seq =>
    exact InChain.mono hwid hchs h
  | joinSwap e seq pins => exact ⟨h.1.mono hwid hchs, h.2⟩
  | unpin e next | clear e next => exact ⟨h.1.mono hwid hchs, hwid ▸ h.2⟩
  | visible slot | hint slot seq | grow slot seq depth => exact lt_of_lt_of_eq h hwid.symm
  | claim slot seq depth => exact ⟨hwid ▸ h.1, h.2.trans_le (hchs slot)⟩
  | released | sample | scanSlot | scanNext | scanTaken | scanPins | scanSeq | listed => trivial

end

theorem ok_call (h : ∀ slot ∈ next.slot?, slot < s.width) : s.Ok next.call := by
  cases next with
  | claim slot seq | announce slot seq => exact h slot rfl
  | done => trivial

theorem Sound.one_le_pins (h : s.Sound) (hc : c ∈ s.calls) (hh : c.holds e = true) : 1 ≤ s.pins e :=
  h.counted e ▸ countP_pos_iff.mpr ⟨c, hc, hh⟩

theorem Sound.of_owns (h : s.Sound) (hc : c ∈ s.calls) (howns : c.owns e = true) :
    s.taken e = true ∧ s.pins e = 0 := by
  have hpos : 1 ≤ s.owners e := h.owned e ▸ countP_pos_iff.mpr ⟨c, hc, howns⟩
  by_contra hnot
  rw [owners, if_neg hnot] at hpos
  omega

/-- A call moves on, and the counts with it. -/
theorem Sound.moved (h : s.Sound) (hc : s.calls[i]? = some c) (hcls : s'.calls = s.calls.set i c')
    (hwid : s'.width = s.width) (hchs : ∀ slot, s.chunks slot ≤ s'.chunks slot)
    (hpins : ∀ e, s'.pins e + (c.holds e).toNat = s.pins e + (c'.holds e).toNat)
    (howners : ∀ e, s'.owners e + (c.owns e).toNat = s.owners e + (c'.owns e).toNat)
    (hpinned : ∀ e, 1 ≤ s'.pins e → s'.taken e = true) (hok : s'.Ok c')
    (hseq : ∀ j d, j ≠ i → s.calls[j]? = some d →
      ∀ e, d.holds e = true ∨ d.owns e = true → s'.seq e = s.seq e)
    (hhints : s'.hint = s.hint ∨ ∃ e, s'.InChain e ∧
      s'.hint = update s.hint e.slot (some (e.depth, e.index))) : s'.Sound where
  width_pos := hwid ▸ h.width_pos
  counted := fun e => by
    have hset : (s.calls.set i c').countP (holds e) + (c.holds e).toNat =
      s.calls.countP (holds e) + (c'.holds e).toNat := countP_set_add hc
    have := hpins e
    rw [hcls]
    rw [h.counted e] at hset
    omega
  owned := fun e => by
    have hset : (s.calls.set i c').countP (Call.owns e) + (c.owns e).toNat =
      s.calls.countP (Call.owns e) + (c'.owns e).toNat := countP_set_add hc
    have := howners e
    rw [hcls]
    rw [h.owned e] at hset
    omega
  pinned := hpinned
  ok := fun d hd => by
    rw [hcls] at hd
    obtain ⟨j, hj⟩ := mem_iff_getElem?.mp hd
    by_cases hji : j = i
    · subst hji
      rw [List.getElem?_set_self (lt_of_getElem? hc)] at hj
      exact some.inj hj ▸ hok
    · rw [getElem?_set_ne (Ne.symm hji)] at hj
      exact (h.ok d (mem_of_getElem? hj)).mono hwid hchs (hseq j d hji hj)
  hints := fun slot depth index hhint => by
    rcases hhints with hsame | ⟨e, he, hupd⟩
    · exact (h.hints slot depth index (hsame ▸ hhint)).mono hwid hchs
    · rw [hupd] at hhint
      by_cases hs : slot = e.slot
      · subst hs
        rw [update_self, some.injEq, Prod.mk.injEq] at hhint
        obtain ⟨rfl, rfl⟩ := hhint
        exact he
      · rw [update_of_ne hs] at hhint
        exact (h.hints slot depth index hhint).mono hwid hchs

theorem Sound.quiet (h : s.Sound) (hc : s.calls[i]? = some c) (hs : some (s.goes i c') = some s')
    (hsame : ∀ e, (c'.holds e, c'.owns e) = (c.holds e, c.owns e)) (hok : s.Ok c') :
    s'.Sound := by
  cases hs
  refine h.moved hc rfl rfl (fun _ => le_rfl) (fun e => ?_) (fun e => ?_) h.pinned ?_
    (fun _ _ _ _ _ _ => rfl) (.inl rfl)
  · rw [(Prod.mk.inj (hsame e)).1]
    rfl
  · rw [(Prod.mk.inj (hsame e)).2]
    rfl
  · exact Ok.mono rfl (fun _ => le_rfl) (fun _ _ => rfl) hok

/-- The call holds and owns no entry but `e`. -/
def OnlyAt (e : PinAt) (c : Call) : Prop := ∀ x, e ≠ x → c.holds x = false ∧ c.owns x = false

theorem onlyAt_call : OnlyAt e next.call :=
  fun x _ => ⟨next.holds_call x, next.owns_call x⟩

theorem Sound.movedAt (e : PinAt) (h : s.Sound) (hc : s.calls[i]? = some c)
    (hcls : s'.calls = s.calls.set i c') (hframe : s'.width = s.width ∧ s'.chunks = s.chunks ∧
      s'.seq = s.seq ∧ s'.hint = s.hint)
    (ho : ∀ x, x ≠ e → s'.pins x = s.pins x ∧ s'.taken x = s.taken x)
    (hf : OnlyAt e c) (hto : OnlyAt e c')
    (hpins : s'.pins e + (c.holds e).toNat = s.pins e + (c'.holds e).toNat)
    (howners : s'.owners e + (c.owns e).toNat = s.owners e + (c'.owns e).toNat)
    (hpinned : 1 ≤ s'.pins e → s'.taken e = true) (hok : s.Ok c') : s'.Sound := by
  obtain ⟨hwid, hchs, hseq, hhint⟩ := hframe
  have hg (slot : Nat) : s.chunks slot ≤ s'.chunks slot := (congrFun hchs slot).ge
  refine h.moved hc hcls hwid hg (fun x => ?_) (fun x => ?_) (fun x => ?_)
    (hok.mono hwid hg fun x _ => congrFun hseq x) (fun _ _ _ _ x _ => congrFun hseq x) (.inl hhint)
  · by_cases hx : e = x
    · exact hx ▸ hpins
    · rw [(ho x (Ne.symm hx)).1, (hf x hx).1, (hto x hx).1]
  · by_cases hx : e = x
    · exact hx ▸ howners
    · simp only [owners, ho x (Ne.symm hx)]
      rw [(hf x hx).2, (hto x hx).2]
  · by_cases hx : e = x
    · exact hx ▸ hpinned
    · rw [(ho x (Ne.symm hx)).1, (ho x (Ne.symm hx)).2]
      exact h.pinned x

variable (h : s.Sound)

include h

theorem Sound.joinSwap (hc : s.calls[i]? = some (.joinSwap e seq (s.pins e))) :
    ({ s with pins := update s.pins e (s.pins e + 1) }.goes i (.joinCheck e seq)).Sound := by
  obtain ⟨hin, hpos⟩ := h.ok _ (mem_of_getElem? hc)
  refine h.movedAt e hc rfl ⟨rfl, rfl, rfl, rfl⟩ (fun x hx => ⟨?_, rfl⟩) (fun _ _ => ⟨rfl, rfl⟩)
    (fun x hx => ⟨decide_eq_false hx, rfl⟩) ?_ ?_ (fun _ => h.pinned e hpos) hin
  · exact update_of_ne hx _ _
  · simp [holds]
  · simp only [owners, goes_pins, update_self]
    rw [if_neg (by omega), if_neg (by omega)]
    rfl

theorem Sound.claim {index : Nat}
    (hc : s.calls[i]? = some (.claim slot seq depth)) (hf : s.lowestFree slot depth = some index) :
    ({ s with taken := update s.taken ⟨slot, depth, index⟩ true }.goes
      i (.storeSeq ⟨slot, depth, index⟩ seq)).Sound := by
  obtain ⟨hs, hdep⟩ := h.ok _ (mem_of_getElem? hc)
  have hclr : s.taken ⟨slot, depth, index⟩ = false := by
    simpa using find?_some hf
  have hunpinned : s.pins ⟨slot, depth, index⟩ = 0 := by
    by_contra hpos
    have := h.pinned _ (Nat.one_le_iff_ne_zero.mpr hpos)
    simp [hclr] at this
  refine h.movedAt ⟨slot, depth, index⟩ hc rfl ⟨rfl, rfl, rfl, rfl⟩ (fun x hx => ⟨rfl, ?_⟩)
    (fun _ _ => ⟨rfl, rfl⟩) (fun x hx => ⟨rfl, decide_eq_false hx⟩) rfl ?_ (fun _ => ?_)
    ⟨hs, hdep, mem_range.mp (mem_of_find?_eq_some hf)⟩
  · exact update_of_ne hx _ _
  · simp [owners, Call.owns, hunpinned, hclr]
  · exact update_self ..

theorem Sound.storeSeq (hc : s.calls[i]? = some (.storeSeq e seq)) :
    ({ s with seq := update s.seq e seq }.goes i (.storePins e seq)).Sound := by
  have hmem := mem_of_getElem? hc
  obtain ⟨ht, hpins⟩ := h.of_owns hmem (decide_eq_true rfl)
  refine h.moved hc rfl rfl (fun _ => le_rfl) (fun x => rfl) (fun x => rfl) h.pinned
    ⟨h.ok _ hmem, update_self ..⟩ (fun j d hj hd x hx => ?_) (.inl rfl)
  refine update_of_ne (fun hxe => ?_) _ _
  subst hxe
  rcases hx with hh | howns
  · have := h.one_le_pins (mem_of_getElem? hd) hh
    omega
  · have htwo := two_le_countP hj hd hc howns (decide_eq_true rfl)
    rw [h.owned x, owners] at htwo
    split at htwo <;> omega

theorem Sound.storePins (hc : s.calls[i]? = some (.storePins e seq)) :
    ({ s with pins := update s.pins e 1 }.goes i (.remember e seq)).Sound := by
  have hmem := mem_of_getElem? hc
  obtain ⟨ht, hpins⟩ := h.of_owns hmem (decide_eq_true rfl)
  refine h.movedAt e hc rfl ⟨rfl, rfl, rfl, rfl⟩ (fun x hx => ⟨?_, rfl⟩)
    (fun x hx => ⟨rfl, decide_eq_false hx⟩) (fun x hx => ⟨decide_eq_false hx, rfl⟩) ?_ ?_
    (fun _ => ht) (h.ok (.storePins e seq) hmem)
  · exact update_of_ne hx _ _
  · simp [holds, hpins]
  · simp [owners, Call.owns, ht, hpins]

/-- The count of the call leaves the entry, and the last one to leave owns it. -/
theorem Sound.unpin (hc : s.calls[i]? = some (.unpin e next)) :
    ({ s with pins := update s.pins e (s.pins e - 1) }.goes
      i (if s.pins e = 1 then .clear e next else next.call)).Sound := by
  have hmem := mem_of_getElem? hc
  have hpos := h.one_le_pins hmem (decide_eq_true rfl)
  have ht := h.pinned e hpos
  have hok := h.ok _ hmem
  have ho (x : PinAt) (hx : x ≠ e) :
      update s.pins e (s.pins e - 1) x = s.pins x ∧ s.taken x = s.taken x :=
    ⟨update_of_ne hx _ _, rfl⟩
  split_ifs with hl
  · refine h.movedAt e hc rfl ⟨rfl, rfl, rfl, rfl⟩ ho (fun x hx => ⟨decide_eq_false hx, rfl⟩)
      (fun x hx => ⟨rfl, decide_eq_false hx⟩) ?_ ?_ (fun _ => ht) hok
    · simp [holds, hl]
    · simp [owners, Call.owns, ht, hl]
  · refine h.movedAt e hc rfl ⟨rfl, rfl, rfl, rfl⟩ ho (fun x hx => ⟨decide_eq_false hx, rfl⟩)
      onlyAt_call ?_ ?_ (fun _ => ht) (ok_call hok.2)
    · have hh : (Call.unpin e next).holds e = true := decide_eq_true rfl
      simp only [hh, next.holds_call, goes_pins, update_self, Bool.toNat_true, Bool.toNat_false]
      omega
    · rw [next.owns_call]
      simp only [owners, goes_pins, update_self]
      rw [if_neg (by omega), if_neg (by omega)]
      rfl

theorem Sound.clear (hc : s.calls[i]? = some (.clear e next)) :
    { s.goes i next.call with taken := update s.taken e false : Registry }.Sound := by
  have hmem := mem_of_getElem? hc
  obtain ⟨ht, hpins⟩ := h.of_owns hmem (decide_eq_true rfl)
  have howns : (Call.clear e next).owns e = true := decide_eq_true rfl
  refine h.movedAt e hc rfl ⟨rfl, rfl, rfl, rfl⟩ (fun x hx => ⟨rfl, ?_⟩)
    (fun x hx => ⟨rfl, decide_eq_false hx⟩) onlyAt_call ?_ ?_ (fun hpos => ?_)
    (ok_call (h.ok _ hmem).2)
  · exact update_of_ne hx _ _
  · rw [next.holds_call]
    rfl
  · simp [owners, howns, next.owns_call, ht, hpins]
  · exact absurd hpos (by simp [goes, hpins])

theorem Sound.grow (hc : s.calls[i]? = some (.grow slot seq depth)) :
    ({ s with chunks := update s.chunks slot (max (s.chunks slot) (depth + 1)) }.goes
      i (.claim slot seq depth)).Sound := by
  refine h.moved hc rfl rfl (fun x => ?_) (fun _ => rfl) (fun _ => rfl) h.pinned
    ⟨h.ok _ (mem_of_getElem? hc), ?_⟩ (fun _ _ _ _ _ _ => rfl) (.inl rfl)
  · by_cases hx : x = slot
    · subst hx
      simp
    · simp [update_of_ne hx]
  · simp

theorem Sound.stepCall (hc : s.calls[i]? = some c) (hs : s.stepCall i c = some s') : s'.Sound := by
  have hok := h.ok c (mem_of_getElem? hc)
  cases c with dsimp only [Registry.stepCall] at hs
  | visible slot => exact h.quiet hc hs (fun _ => rfl) hok
  | hint slot seq =>
    cases hhint : s.hint slot with
    | none =>
      simp only [hhint] at hs
      exact h.quiet hc hs (fun _ => rfl) hok
    | some place =>
      have hin := h.hints slot place.1 place.2 hhint
      simp only [hhint] at hs
      split at hs
      · exact h.quiet hc hs (fun _ => rfl) hin
      · exact h.quiet hc hs (fun _ => rfl) hok
  | joinPins e seq => exact h.quiet hc hs (fun _ => rfl) hok
  | joinSeq e seq pins =>
    split at hs
    · exact h.quiet hc hs (fun _ => rfl) hok.1
    · rename_i hmissed
      exact h.quiet hc hs (fun _ => rfl) ⟨hok, Nat.one_le_iff_ne_zero.mpr (not_or.mp hmissed).1⟩
  | joinSwap e seq pins =>
    split at hs
    · rename_i hpins
      subst hpins
      exact some.inj hs ▸ h.joinSwap hc
    · exact h.quiet hc hs (fun _ => rfl) hok.1
  | joinCheck e seq =>
    split at hs
    · rename_i hseq
      exact h.quiet hc hs (fun _ => rfl) ⟨hok, hseq⟩
    · exact h.quiet hc hs (fun _ => rfl) ⟨hok, fun _ hslot => some.inj hslot ▸ hok.1⟩
  | grow slot seq depth =>
    cases hs
    exact h.grow hc
  | claim slot seq depth =>
    cases hf : s.lowestFree slot depth with
    | none =>
      simp only [hf] at hs
      exact h.quiet hc hs (fun _ => rfl) hok.1
    | some index =>
      simp only [hf, some.injEq] at hs
      exact hs ▸ h.claim hc hf
  | storeSeq e seq =>
    cases hs
    exact h.storeSeq hc
  | storePins e seq =>
    cases hs
    exact h.storePins hc
  | remember e seq =>
    cases hs
    exact h.moved hc rfl rfl (fun _ => le_rfl) (fun _ => rfl) (fun _ => rfl) h.pinned hok
      (fun _ _ _ _ _ _ => rfl) (.inr ⟨e, hok.1, rfl⟩)
  | confirm e seq =>
    split at hs
    · exact h.quiet hc hs (fun _ => rfl) hok
    · exact h.quiet hc hs (fun _ => rfl) ⟨hok.1, fun _ hslot => some.inj hslot ▸ hok.1.1⟩
  | unpin e next =>
    cases hs
    exact h.unpin hc
  | clear e next =>
    cases hs
    exact h.clear hc
  | sample | scanNext | scanTaken | scanSeq =>
    exact h.quiet hc hs (fun _ => rfl) trivial
  | scanSlot found slot =>
    split_ifs at hs <;> exact h.quiet hc hs (fun _ => rfl) trivial
  | scanPins found slot depth more rest =>
    cases rest with
    | nil | cons index rest =>
      dsimp only at hs
      split_ifs at hs <;> exact h.quiet hc hs (fun _ => rfl) trivial
  | live e seq | released | listed seqs => nomatch hs

theorem Sound.begins (hpins : ∀ e, s'.pins e = s.pins e + (c.holds e).toNat)
    (hcnt : ∀ e, c.holds e = true → 1 ≤ s.pins e) (howns : ∀ e, c.owns e = false)
    (hok : s.Ok c) (hc : s'.calls = s.calls ++ [c])
    (hf : s'.width = s.width ∧ s'.chunks = s.chunks ∧ s'.seq = s.seq ∧ s'.hint = s.hint ∧
      s'.taken = s.taken) : s'.Sound := by
  obtain ⟨hwid, hchs, hseq, hhint, ht⟩ := hf
  have hg (slot : Nat) : s.chunks slot ≤ s'.chunks slot := (congrFun hchs slot).ge
  have hpos (e : PinAt) : s'.pins e = 0 ↔ s.pins e = 0 := by
    rw [hpins]
    cases hh : c.holds e with
    | false => rfl
    | true =>
      have := hcnt e hh
      omega
  refine ⟨hwid ▸ h.width_pos, fun e => ?_, fun e => ?_, fun e he => ?_, fun d hd => ?_, ?_⟩
  · rw [hc, countP_append, h.counted, countP_singleton, hpins]
    cases c.holds e <;> rfl
  · rw [hc, countP_append, h.owned, countP_singleton, howns]
    simp only [owners, ht, hpos]
    rfl
  · rw [ht]
    exact h.pinned e (Nat.one_le_iff_ne_zero.mpr fun hz => by have := (hpos e).mpr hz; omega)
  · have hmono {d : Call} (hd : s.Ok d) : s'.Ok d :=
      hd.mono hwid hg fun x _ => congrFun hseq x
    rw [hc, mem_append, mem_singleton] at hd
    rcases hd with hd | rfl
    · exact hmono (h.ok d hd)
    · exact hmono hok
  · intro slot depth index hs
    exact (h.hints slot depth index (hhint ▸ hs)).mono hwid hg

/-- Every access of every call keeps the invariant. -/
theorem Sound.step {a : Action} (hs : s.step a = some s') : s'.Sound := by
  cases a with
  | publish seq =>
    cases hs
    exact ⟨h.width_pos, h.counted, h.owned, h.pinned, h.ok, h.hints⟩
  | pinIn slot =>
    cases hs
    exact h.begins (c := .visible (slot % s.width)) (fun _ => rfl) (fun _ => nofun) (fun _ => rfl)
      (Nat.mod_lt slot h.width_pos) rfl ⟨rfl, rfl, rfl, rfl, rfl⟩
  | clonePin j =>
    rw [Registry.step] at hs
    split at hs
    · rename_i e seq hj
      have hmem := mem_of_getElem? hj
      have hpos := h.one_le_pins hmem (decide_eq_true rfl)
      cases hs
      refine h.begins (fun x => ?_) (fun x hx => ?_) (fun _ => rfl) (h.ok _ hmem) rfl
        ⟨rfl, rfl, rfl, rfl, rfl⟩
      · by_cases hx : e = x
        · subst hx
          simp [holds]
        · simp [holds, update_of_ne (Ne.symm hx), hx]
      · exact of_decide_eq_true hx ▸ hpos
    · nomatch hs
  | release j =>
    rw [Registry.step] at hs
    split at hs
    · rename_i e seq hj
      exact h.quiet hj hs (fun _ => rfl) ⟨(h.ok _ (mem_of_getElem? hj)).1, nofun⟩
    · nomatch hs
  | liveSeqs =>
    cases hs
    exact h.begins (c := .sample) (fun _ => rfl) (fun _ => nofun) (fun _ => rfl) trivial rfl
      ⟨rfl, rfl, rfl, rfl, rfl⟩
  | step j =>
    obtain ⟨c, hc, hs⟩ := bind_eq_some_iff.mp hs
    exact h.stepCall hc hs
  | swapFails j =>
    rw [Registry.step] at hs
    split at hs
    · rename_i e seq pins hj
      exact h.quiet hj hs (fun _ => rfl) (h.ok _ (mem_of_getElem? hj)).1
    · nomatch hs

omit h in
theorem sound_withWidth {width : Nat} (hwid : 0 < width) (horizon : Seq) :
    (withWidth width horizon).Sound :=
  ⟨hwid, fun _ => rfl, fun _ => rfl, nofun, nofun, nofun⟩

/-- So does every run. -/
theorem sound_run {as : List Action} (hrun : run step s as = some s') : s'.Sound :=
  run_invariant (fun _ _ _ h _ => h.step) h (along_of_forall (C := fun _ _ => True) (by simp) s)
    hrun

end Registry

end RegolithStore.Snapshot
