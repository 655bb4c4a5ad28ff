import RegolithStore.Snapshot.Entries

/-! What a scan of the registry lists: every snapshot that was live when the scan sampled, and no
sequence that was not announced, or being announced, while the scan ran. -/

namespace RegolithStore.Snapshot

open Lib List Option

namespace Call

def found : Call → List Seq
  | scanSlot found _ | scanNext found _ _ | scanTaken found _ _ _ | scanPins found _ _ _ _
  | scanSeq found _ _ _ _ _ => found
  | listed seqs => seqs
  | _ => []

def Ahead (e : PinAt) : Call → Prop
  | scanSlot _ slot => slot ≤ e.slot
  | scanNext _ slot depth => slot < e.slot ∨ slot = e.slot ∧ depth ≤ e.depth
  | scanTaken _ slot depth more =>
    slot < e.slot ∨ slot = e.slot ∧ (more = true ∧ depth < e.depth ∨ depth = e.depth)
  | scanPins _ slot depth more rest => slot < e.slot ∨ slot = e.slot ∧
      (more = true ∧ depth < e.depth ∨ depth = e.depth ∧ e.index ∈ rest)
  | scanSeq _ slot depth more index rest => slot < e.slot ∨ slot = e.slot ∧
      (more = true ∧ depth < e.depth ∨ depth = e.depth ∧ e.index ∈ index :: rest)
  | _ => False

def reading : Call → Option PinAt
  | scanSeq _ slot depth _ index _ => some ⟨slot, depth, index⟩
  | _ => none

def scans (c : Call) : Bool := c.scanning || c matches .listed _

end Call

namespace Registry

variable {s s' : Registry} {i : Nat} {c : Call} {e : PinAt} {seq : Seq} {as : List Action}
  {a : Action} {calls : List Call} {floor : Seq}

theorem stepCall_cases (hs : s.stepCall i c = some s') :
    ∃ c', s'.calls = s.calls.set i c' ∧ s'.horizon = s.horizon ∧
      (∀ e seq, c' = .live e seq → seq = s.horizon) ∧
      ∀ e, s'.seq e = s.seq e ∨ c' = .storePins e (s'.seq e) := by
  have hqt {c' : Call} (heq : some (s.goes i c') = some s')
      (hl : ∀ e seq, c' = .live e seq → seq = s.horizon) :
      ∃ c', s'.calls = s.calls.set i c' ∧ s'.horizon = s.horizon ∧
        (∀ e seq, c' = .live e seq → seq = s.horizon) ∧
        ∀ e, s'.seq e = s.seq e ∨ c' = .storePins e (s'.seq e) := by
    cases heq
    exact ⟨c', rfl, rfl, hl, fun _ => .inl rfl⟩
  cases c with
  | visible | joinPins | sample | scanNext | scanTaken | scanSeq => exact hqt hs nofun
  | hint slot seq =>
    rw [stepCall] at hs
    split at hs
    · split at hs
      · exact hqt hs nofun
      · exact hqt hs nofun
    · exact hqt hs nofun
  | joinSeq e seq pins | joinCheck e seq =>
    rw [stepCall] at hs
    split at hs
    · exact hqt hs nofun
    · exact hqt hs nofun
  | joinSwap e seq pins | claim slot seq depth =>
    rw [stepCall] at hs
    split at hs
    · cases hs
      exact ⟨_, rfl, rfl, nofun, fun _ => .inl rfl⟩
    · exact hqt hs nofun
  | grow slot seq depth | storePins e seq | remember e seq =>
    cases hs
    exact ⟨_, rfl, rfl, nofun, fun _ => .inl rfl⟩
  | storeSeq e seq =>
    cases hs
    refine ⟨_, rfl, rfl, nofun, fun x => ?_⟩
    by_cases hx : x = e
    · subst hx
      exact .inr (by simp)
    · exact .inl (Function.update_of_ne hx _ _)
  | confirm e seq =>
    rw [stepCall] at hs
    split at hs
    · rename_i hseq
      refine hqt hs fun e' seq' h => ?_
      cases h
      exact hseq.symm
    · exact hqt hs nofun
  | unpin e next =>
    cases hs
    refine ⟨_, rfl, rfl, fun e' seq' h => ?_, fun _ => .inl rfl⟩
    split at h
    · nomatch h
    · cases next <;> nomatch h
  | clear e next =>
    cases hs
    refine ⟨_, rfl, rfl, fun e' seq' h => ?_, fun _ => .inl rfl⟩
    cases next <;> nomatch h
  | scanSlot found slot =>
    rw [stepCall] at hs
    split at hs
    · split at hs
      · exact hqt hs nofun
      · exact hqt hs nofun
    · exact hqt hs nofun
  | scanPins found slot depth more rest =>
    cases rest with
    | nil | cons index rest =>
      rw [stepCall] at hs
      split at hs
      · exact hqt hs nofun
      · exact hqt hs nofun
  | live e seq | released | listed seqs => nomatch hs

/-- What an action does to the snapshots, the horizon, the sequences and the scans. -/
structure Effect (s : Registry) (a : Action) (s' : Registry) : Prop where
  horizon : s.horizon ≤ s'.horizon
  live : ∀ e seq, Call.live e seq ∈ s'.calls → Call.live e seq ∈ s.calls ∨ seq = s.horizon
  seq : ∀ e, s'.seq e = s.seq e ∨ Call.storePins e (s'.seq e) ∈ s'.calls
  scan : ∀ j c, s.calls[j]? = some c → c.scans = true →
    s'.calls[j]? = some c ∨ a = .step j ∧ s.stepCall j c = some s'

theorem mem_set_live {c' : Call} (h : Call.live e seq ∈ calls.set i c') :
    Call.live e seq ∈ calls ∨ c' = .live e seq :=
  (mem_or_eq_of_mem_set h).imp_right Eq.symm

theorem getElem?_append_of_some {j : Nat} {c d : Call} (h : calls[j]? = some c) :
    (calls ++ [d])[j]? = some c := by
  rw [List.getElem?_append_left (lt_of_getElem? h), h]

/-- What a step does to what scans rely on. -/
theorem effect_of_step (hs : s.step a = some s') : Effect s a s' := by
  -- A call that is no scan moves.
  have hgoes {j : Nat} {d d' : Call} (hd : s.calls[j]? = some d) (hscan : d.scans = false)
      (hl : ∀ e seq, d' ≠ .live e seq) : Effect s a (s.goes j d') := by
    refine ⟨le_rfl, fun e seq h => .inl ((mem_set_live h).resolve_right (hl e seq)),
      fun _ => .inl rfl, fun k c hk hc => .inl ?_⟩
    rw [goes_calls, getElem?_set_ne, hk]
    rintro rfl
    rw [mem_unique hd hk, hc] at hscan
    cases hscan
  cases a with
  | publish seq =>
    cases hs
    exact ⟨le_max_left _ _, fun _ _ => .inl, fun _ => .inl rfl, fun _ _ h _ => .inl h⟩
  | pinIn slot | liveSeqs =>
    cases hs
    exact ⟨le_rfl, fun e seq h => .inl (by simpa using h), fun _ => .inl rfl,
      fun _ _ h _ => .inl (getElem?_append_of_some h)⟩
  | clonePin j =>
    rw [step] at hs
    split at hs
    · rename_i e seq hj
      cases hs
      refine ⟨le_rfl, fun e' seq' h => .inl ?_, fun _ => .inl rfl,
        fun _ _ h _ => .inl (getElem?_append_of_some h)⟩
      rw [mem_append, mem_singleton] at h
      exact h.elim id fun heq => heq ▸ mem_of_getElem? hj
    · cases hs
  | release j =>
    rw [step] at hs
    split at hs
    · rename_i e seq hj
      exact some.inj hs ▸ hgoes hj rfl fun _ _ hl => by cases hl
    · cases hs
  | swapFails j =>
    rw [step] at hs
    split at hs
    · rename_i e seq pins hj
      exact some.inj hs ▸ hgoes hj rfl fun _ _ hl => by cases hl
    · cases hs
  | step j =>
    obtain ⟨d, hd, hcall⟩ := bind_eq_some_iff.mp hs
    obtain ⟨d', hcls, hh, hl, hseq⟩ := stepCall_cases hcall
    refine ⟨hh.ge, fun e seq h => ?_, fun e => ?_, fun k c hk hc => ?_⟩
    · rw [hcls] at h
      exact (mem_set_live h).imp_right (hl e seq)
    · refine (hseq e).imp_right fun heq => ?_
      rw [hcls, ← heq]
      exact List.mem_set (lt_of_getElem? hd) d'
    · by_cases hkj : k = j
      · subst hkj
        obtain rfl := mem_unique hd hk
        exact .inr ⟨rfl, hcall⟩
      · rw [hcls, getElem?_set_ne (Ne.symm hkj)]
        exact .inl hk

/-- The scan at `c` covers every live snapshot: it has listed it or has still to read its
entry, or the snapshot is no older than `floor`. -/
def CoversAt (floor : Seq) (c : Call) (s : Registry) : Prop :=
  ∀ e seq, Call.live e seq ∈ s.calls → seq ∈ c.found ∨ floor ≤ seq ∨ c.Ahead e

structure Covers (floor : Seq) (i : Nat) (s : Registry) : Prop where
  horizon : floor ≤ s.horizon
  scan : ∃ c, s.calls[i]? = some c ∧ c.scans = true ∧ CoversAt floor c s

theorem Sound.of_live (h : s.Sound) (hl : Call.live e seq ∈ s.calls) :
    s.InChain e ∧ s.seq e = seq ∧ 1 ≤ s.pins e ∧ s.taken e = true := by
  have hpos := h.one_le_pins hl (decide_eq_true rfl)
  exact ⟨(h.ok _ hl).1, (h.ok _ hl).2, hpos, h.pinned e hpos⟩

structure ScanStep (s : Registry) (c c' : Call) : Prop where
  scans : c'.scans = true
  kept : ∀ seq ∈ c.found, seq ∈ c'.found
  /-- An entry with a live snapshot is read, or is still to be read. -/
  ahead : ∀ e seq, Call.live e seq ∈ s.calls → c.Ahead e → seq ∈ c'.found ∨ c'.Ahead e
  read : ∀ seq ∈ c'.found, seq ∈ c.found ∨ ∃ e ∈ c.reading, s.seq e = seq
  reading : ∀ e ∈ c'.reading, 1 ≤ s.pins e

/-- What a step of a scan reads. -/
theorem Sound.scan_step (h : s.Sound) (hscan : c.scans = true)
    (hs : s.stepCall i c = some s') : ∃ c', s' = s.goes i c' ∧ ScanStep s c c' := by
  cases c with
  | scanSlot found slot =>
    rw [Registry.stepCall] at hs
    split at hs
    · split at hs
      · exact ⟨_, (some.inj hs).symm, rfl, fun _ => id, fun _ _ _ hle => .inr
          ((Nat.lt_or_eq_of_le hle).imp_right fun heq => ⟨heq, Nat.zero_le _⟩), fun _ => .inl, nofun⟩
      · rename_i hend
        refine ⟨_, (some.inj hs).symm, rfl, fun _ => id, fun e seq hl ha => .inr ?_,
          fun _ => .inl, nofun⟩
        have hdep := (h.of_live hl).1.2.1
        refine Nat.lt_of_le_of_ne ha ?_
        rintro rfl
        exact hend (Nat.zero_lt_of_lt hdep)
    · rename_i hend
      refine ⟨_, (some.inj hs).symm, rfl, fun _ => mem_sortedList.mpr,
        fun e seq hl ha => ?_, fun _ hseq => .inl (mem_sortedList.mp hseq), nofun⟩
      exact absurd (Nat.lt_of_le_of_lt ha (h.of_live hl).1.1) hend
  | scanNext found slot depth =>
    refine ⟨_, (some.inj hs).symm, rfl, fun _ => id, fun e seq hl ha => .inr ?_,
      fun _ => .inl, nofun⟩
    -- an entry further down lies in a chunk that is linked already
    have hdep := (h.of_live hl).1.2.1
    refine ha.imp_right fun ⟨hslot, hle⟩ => ⟨hslot, hle.lt_or_eq.imp_left fun hlt => ?_⟩
    subst hslot
    exact ⟨decide_eq_true (Nat.lt_of_le_of_lt hlt hdep), hlt⟩
  | scanTaken found slot depth more =>
    refine ⟨_, (some.inj hs).symm, rfl, fun _ => id, fun e seq hl ha => .inr ?_,
      fun _ => .inl, nofun⟩
    obtain ⟨hin, -, -, ht⟩ := h.of_live hl
    refine ha.imp_right fun ⟨hslot, hor⟩ => ⟨hslot, hor.imp_right fun hdep => ?_⟩
    subst hslot hdep
    exact ⟨rfl, mem_filter.mpr ⟨mem_range.mpr hin.2.2, ht⟩⟩
  | scanPins found slot depth more rest =>
    cases rest with
    | nil =>
      cases more with
      | true =>
        refine ⟨_, (some.inj hs).symm, rfl, fun _ => id, fun e seq _ ha => .inr ?_,
          fun _ => .inl, nofun⟩
        exact ha.imp_right fun ⟨hslot, hin⟩ => ⟨hslot, hin.elim And.right (by simp)⟩
      | false =>
        refine ⟨_, (some.inj hs).symm, rfl, fun _ => id, fun e seq _ ha => .inr ?_,
          fun _ => .inl, nofun⟩
        exact ha.resolve_right (by simp)
    | cons index rest =>
      rw [Registry.stepCall] at hs
      split at hs
      · rename_i hpos
        refine ⟨_, (some.inj hs).symm, rfl, fun _ => id, fun _ _ _ => .inr,
          fun _ => .inl, fun e he => ?_⟩
        exact some.inj he ▸ hpos
      · rename_i hf
        refine ⟨_, (some.inj hs).symm, rfl, fun _ => id, fun e seq hl ha => .inr ?_,
          fun _ => .inl, nofun⟩
        refine ha.imp_right fun ⟨hslot, hin⟩ => ⟨hslot, hin.imp_right fun ⟨hdep, hmem⟩ => ?_⟩
        refine ⟨hdep, (mem_cons.mp hmem).resolve_left fun hi => hf ?_⟩
        subst hslot hdep hi
        exact (h.of_live hl).2.2.1
  | scanSeq found slot depth more index rest =>
    refine ⟨_, (some.inj hs).symm, rfl, fun _ => mem_append_left _,
      fun e seq hl ha => ?_, fun seq hseq => ?_, nofun⟩
    · rcases ha with hslot | ⟨hslot, hdep | ⟨hdep, hmem⟩⟩
      · exact .inr (.inl hslot)
      · exact .inr (.inr ⟨hslot, .inl hdep⟩)
      · rcases mem_cons.mp hmem with hi | hr
        · subst hslot hdep hi
          exact .inl (mem_append_right _ (mem_singleton.mpr (h.of_live hl).2.1.symm))
        · exact .inr (.inr ⟨hslot, .inr ⟨hdep, hr⟩⟩)
    · rcases mem_append.mp hseq with hfnd | hread
      · exact .inl hfnd
      · exact .inr ⟨_, rfl, (mem_singleton.mp hread).symm⟩
  | listed seqs => nomatch hs
  | _ => nomatch hscan

/-- A scan goes on covering every live snapshot. -/
theorem Covers.step (hcov : Covers floor i s) (h : s.Sound)
    (hs : s.step a = some s') : Covers floor i s' := by
  have heff := effect_of_step hs
  obtain ⟨c, hc, hscan, hat⟩ := hcov.scan
  refine ⟨hcov.horizon.trans heff.horizon, ?_⟩
  rcases heff.scan i c hc hscan with hsame | ⟨-, hown⟩
  · -- The scan stands still: a snapshot that is new confirmed at the horizon.
    refine ⟨c, hsame, hscan, fun e seq hl => ?_⟩
    rcases heff.live e seq hl with hold | rfl
    · exact hat e seq hold
    · exact .inr (.inl hcov.horizon)
  · obtain ⟨c', rfl, hto⟩ := h.scan_step hscan hown
    refine ⟨c', ?_, hto.scans, fun e seq hl => ?_⟩
    · rw [goes_calls, List.getElem?_set_self (lt_of_getElem? hc)]
    · rcases heff.live e seq hl with hold | rfl
      · rcases hat e seq hold with hmem | hf | hcur
        · exact .inl (hto.kept seq hmem)
        · exact .inr (.inl hf)
        · exact (hto.ahead e seq hold hcur).imp_right .inr
      · exact .inr (.inl hcov.horizon)

/-- So along every run. -/
theorem covers_run (hc : Covers floor i s) (h : s.Sound)
    (hrun : run step s as = some s') : Covers floor i s' :=
  (run_invariant (I := fun s => s.Sound ∧ Covers floor i s)
    (fun _ _ _ hs _ hstep => ⟨hs.1.step hstep, hs.2.step hs.1 hstep⟩) ⟨h, hc⟩
    (along_of_forall (C := fun _ _ => True) (by simp) s) hrun).2

/-- From its sample on, a scan covers every live snapshot down to the horizon then. -/
theorem covers_sample (hc : s.calls[i]? = some .sample) (hs : s.step (.step i) = some s') :
    Covers s.horizon i s' := by
  rw [step, hc, bind_some] at hs
  cases hs
  refine ⟨le_rfl, .scanSlot [] 0, ?_, rfl, fun e seq _ => .inr (.inr (Nat.zero_le e.slot))⟩
  rw [goes_calls, List.getElem?_set_self (lt_of_getElem? hc)]

theorem published_le_horizon {published : Seq} (hrun : run step s as = some s')
    (hmem : Action.publish published ∈ as) : published ≤ s'.horizon := by
  obtain ⟨front, back, rfl⟩ := append_of_mem hmem
  obtain ⟨t, -, hrun⟩ := run_append.mp hrun
  obtain ⟨u, hpublish, hrun⟩ := run_cons.mp hrun
  have hu : published ≤ u.horizon := some.inj hpublish ▸ le_max_right _ _
  exact run_invariant (I := fun s => published ≤ s.horizon)
    (fun _ _ _ hle _ hs => hle.trans (effect_of_step hs).horizon) hu
    (along_of_forall (C := fun _ _ => True) (by simp) u) hrun

/-- At some moment of the run from `s`, while call `i` scanned, the sequence was announced or
was being announced. -/
def Seen (s : Registry) (i : Nat) (as : List Action) (seq : Seq) : Prop :=
  ∃ front back u, as = front ++ back ∧ run step s front = some u ∧ u.Scanning i ∧
    (seq ∈ u.announced ∨ u.Announcing seq)

theorem Seen.append {as bs : List Action} (h : Seen s i as seq) : Seen s i (as ++ bs) seq := by
  obtain ⟨front, back, u, rfl, hrun, hseen⟩ := h
  exact ⟨front, back ++ bs, u, append_assoc .., hrun, hseen⟩

theorem Sound.mem_announced (h : s.Sound) (hpos : 1 ≤ s.pins e) : s.seq e ∈ s.announced := by
  refine Registry.mem_announced.mpr ⟨e, ?_, hpos, rfl⟩
  rw [← h.counted e] at hpos
  obtain ⟨c, hc, hh⟩ := countP_pos_iff.mp hpos
  have hok := h.ok c hc
  cases c with
  | joinCheck e' seq => exact of_decide_eq_true hh ▸ hok
  | remember e' seq | confirm e' seq | live e' seq | unpin e' next =>
    exact of_decide_eq_true hh ▸ hok.1
  | _ => nomatch hh

/-- Everything the scan has read was seen, and so was what it would read now. -/
structure AllSeen (s : Registry) (i : Nat) (as : List Action) (c : Call) (t : Registry) : Prop where
  found : ∀ seq ∈ c.found, Seen s i as seq
  reading : ∀ e ∈ c.reading, Seen s i as (t.seq e)

theorem scanning_of_reading (he : e ∈ c.reading) : c.scanning = true := by
  cases c with
  | scanSeq => rfl
  | _ => nomatch he

/-- What a scan reads was announced while it ran. -/
theorem AllSeen.step {t t' : Registry} (h : AllSeen s i as c t) (hsnd : t.Sound)
    (hrun : run Registry.step s as = some t) (hc : t.calls[i]? = some c) (hscan : c.scans = true)
    (hs : t.step a = some t') :
    ∃ c', t'.calls[i]? = some c' ∧ c'.scans = true ∧ AllSeen s i (as ++ [a]) c' t' := by
  have heff := effect_of_step hs
  have hrun' : run Registry.step s (as ++ [a]) = some t' :=
    run_append.mpr ⟨t, hrun, run_cons.mpr ⟨t', hs, rfl⟩⟩
  rcases heff.scan i c hc hscan with hsame | ⟨-, hown⟩
  · refine ⟨c, hsame, hscan, fun seq hseq => (h.found seq hseq).append, fun e he => ?_⟩
    rcases heff.seq e with heq | hwriting
    · exact heq ▸ (h.reading e he).append
    · exact ⟨as ++ [a], [], t', by simp, hrun', ⟨c, hsame, scanning_of_reading he⟩,
        .inr ⟨e, hwriting⟩⟩
  · obtain ⟨c', rfl, hto⟩ := hsnd.scan_step hscan hown
    have hc' : (t.goes i c').calls[i]? = some c' := by
      rw [goes_calls, List.getElem?_set_self (lt_of_getElem? hc)]
    refine ⟨c', hc', hto.scans, fun seq hseq => ?_, fun e he => ?_⟩
    · rcases hto.read seq hseq with hold | ⟨e, he, rfl⟩
      · exact (h.found seq hold).append
      · exact (h.reading e he).append
    · -- The count the scan has just read is still there.
      refine ⟨as ++ [a], [], t.goes i c', by simp, hrun', ⟨c', hc', scanning_of_reading he⟩, .inl ?_⟩
      exact (hsnd.step hs).mem_announced (hto.reading e he)

theorem allSeen_run (hsnd : s.Sound) (hc : s.calls[i]? = some (.scanSlot [] 0))
    (hrun : run step s as = some s') :
    ∃ c, s'.calls[i]? = some c ∧ c.scans = true ∧ AllSeen s i as c s' := by
  induction as using List.reverseRecOn generalizing s' with
  | nil =>
    cases hrun
    exact ⟨_, hc, rfl, nofun, nofun⟩
  | append_singleton as a ih =>
    obtain ⟨t, hf, hl⟩ := run_append.mp hrun
    obtain ⟨u, hs, hu⟩ := run_cons.mp hl
    cases hu
    obtain ⟨c, hct, hscan, hseen⟩ := ih hf
    exact hseen.step (sound_run hsnd hf) hf hct hscan hs

/-- Take a scan that samples in `s` and has returned in `t`. A snapshot live in `t` is listed,
or is no older than the horizon the scan sampled, which is every sequence published before.
Every sequence listed was announced, or was written in an entry claimed to announce it, at a
moment while the scan ran. -/
theorem liveSeqs_covers {width : Nat} {horizon : Seq} {before after : List Action}
    {s t : Registry} {i : Nat} {seqs : List Seq} (hwidth : 0 < width)
    (hbefore : run step (withWidth width horizon) before = some s)
    (hsample : s.calls[i]? = some .sample) (hafter : run step s (.step i :: after) = some t)
    (hlisted : t.calls[i]? = some (.listed seqs)) :
    (∀ e seq, Call.live e seq ∈ t.calls → seq ∈ seqs ∨ s.horizon ≤ seq ∧
      ∀ published, Action.publish published ∈ before → published ≤ seq) ∧
    ∀ seq ∈ seqs, ∃ front back u, after = front ++ back ∧ run step s (.step i :: front) = some u ∧
      u.Scanning i ∧ (seq ∈ u.announced ∨ u.Announcing seq) := by
  have hsnd := sound_run (sound_withWidth hwidth horizon) hbefore
  obtain ⟨s₁, hfst, hrest⟩ := run_cons.mp hafter
  have hsound₁ := hsnd.step hfst
  constructor
  · intro e seq hlive
    have hcov := covers_run (covers_sample hsample hfst) hsound₁ hrest
    obtain ⟨c, hc, -, hat⟩ := hcov.scan
    obtain rfl := mem_unique hlisted hc
    rcases hat e seq hlive with hmem | hle | hahead
    · exact .inl hmem
    · exact .inr ⟨hle, fun p hp => (published_le_horizon hbefore hp).trans hle⟩
    · exact hahead.elim
  · intro seq hseq
    have hs₁ : s.goes i (.scanSlot [] 0) = s₁ := by
      rw [step, hsample] at hfst
      exact some.inj hfst
    have hc₁ : s₁.calls[i]? = some (.scanSlot [] 0) := by
      rw [← hs₁, goes_calls, List.getElem?_set_self (lt_of_getElem? hsample)]
    obtain ⟨c, hc, -, hseen⟩ := allSeen_run hsound₁ hc₁ hrest
    obtain rfl := mem_unique hlisted hc
    obtain ⟨front, back, u, hspl, hrun, hmoment⟩ := hseen.found seq hseq
    exact ⟨front, back, u, hspl, run_cons.mpr ⟨s₁, hfst, hrun⟩, hmoment⟩

/-- A snapshot at 5 is pinned, 7 is published, and a scan begins. -/
def pinsThenScans : List Action :=
  .pinIn 0 :: List.replicate 8 (.step 0) ++ [.publish 7, .liveSeqs]

/-- The scan lists the snapshot, which is still live. -/
theorem liveSeqs_covers_pinned : ∃ s t, run step (withWidth 1 5) pinsThenScans = some s ∧ run step s
    (.step 1 :: List.replicate 7 (.step 1)) = some t ∧ t.calls = [.live ⟨0, 0, 0⟩ 5, .listed [5]] ∧
    ((5 : Seq) ∈ [(5 : Seq)] ∨ s.horizon ≤ 5 ∧
      ∀ published, Action.publish published ∈ pinsThenScans → published ≤ 5) := by
  obtain ⟨s, hs, hcls⟩ := map_eq_some_iff.mp
    (show (run step (withWidth 1 5) pinsThenScans).map (·.calls) =
      some [.live ⟨0, 0, 0⟩ 5, .sample] by decide +kernel)
  obtain ⟨t, ht, hlst⟩ := map_eq_some_iff.mp (show (run step (withWidth 1 5)
        (pinsThenScans ++ .step 1 :: List.replicate 7 (.step 1))).map (·.calls) =
      some [.live ⟨0, 0, 0⟩ 5, .listed [5]] by decide +kernel)
  obtain ⟨s', hs', hrest⟩ := run_append.mp ht
  obtain rfl := mem_unique hs hs'
  refine ⟨s, t, hs, hrest, hlst, ?_⟩
  exact (liveSeqs_covers (by decide) hs (hcls ▸ rfl) hrest (hlst ▸ rfl)).1
    ⟨0, 0, 0⟩ 5 (by rw [hlst]; exact mem_cons_self)

/-- A snapshot at 5 is pinned, 7 is published, and a pin at 7 is about to claim an entry when
a scan begins. -/
def claimsThenScans : List Action :=
  .pinIn 0 :: List.replicate 8 (.step 0) ++ .publish 7 :: .pinIn 0 :: List.replicate 5 (.step 1) ++
    [.liveSeqs]

/-- The scan reads the count of the entry at 5; the snapshot is released, and the pin at 7
claims the entry and writes its sequence; the scan reads that and returns. -/
def readsRecycled : List Action :=
  List.replicate 4 (.step 2) ++ [.release 0, .step 0, .step 0, .step 1, .step 1] ++
    List.replicate 3 (.step 2)

/-- The list of a scan can hold a sequence that no pin had announced while the scan ran. -/
theorem liveSeqs_lists_unannounced : ∃ s t,
    run step (withWidth 1 5) claimsThenScans = some s ∧ s.calls[2]? = some .sample ∧
    run step s (.step 2 :: readsRecycled) = some t ∧ t.calls[2]? = some (.listed [7]) ∧
    ∀ front back u, readsRecycled = front ++ back → run step s (.step 2 :: front) = some u →
      7 ∉ u.announced := by
  obtain ⟨s, hs, hcls⟩ := map_eq_some_iff.mp
    (show (run step (withWidth 1 5) claimsThenScans).map (·.calls) =
      some [.live ⟨0, 0, 0⟩ 5, .claim 0 7 0, .sample] by decide +kernel)
  obtain ⟨t, ht, hlst⟩ := map_eq_some_iff.mp
    (show (run step (withWidth 1 5) (claimsThenScans ++ .step 2 :: readsRecycled)).map (·.calls) =
      some [.released, .storePins ⟨0, 0, 0⟩ 7, .listed [7]] by decide +kernel)
  obtain ⟨s', hs', hrest⟩ := run_append.mp ht
  obtain rfl := mem_unique hs hs'
  refine ⟨s, t, hs, by rw [hcls]; rfl, hrest, by rw [hlst]; rfl, fun front back u hspl hu => ?_⟩
  have hchecked : ∀ n < readsRecycled.length + 1,
      ((run step (withWidth 1 5) (claimsThenScans ++ .step 2 :: readsRecycled.take n)).all
        fun u => decide (7 ∉ u.announced)) = true := by decide +kernel
  have hfrt : readsRecycled.take front.length = front := by rw [hspl, take_left]
  have hmoment := hchecked front.length (by rw [hspl, length_append]; omega)
  rw [hfrt, run_append.mpr ⟨s, hs, hu⟩] at hmoment
  exact of_decide_eq_true hmoment

/-- In every run a live snapshot's sequence is announced, an announced sequence is that of an entry
some call or handle holds, and an entry that none holds or owns is free. -/
theorem announced_exact {width : Nat} {horizon : Seq} (hwidth : 0 < width)
    (hrun : run step (withWidth width horizon) as = some s) :
    (∀ e seq, Call.live e seq ∈ s.calls → seq ∈ s.announced) ∧
      (∀ seq ∈ s.announced, ∃ c ∈ s.calls, ∃ e, c.holds e = true ∧ s.seq e = seq) ∧
      ∀ e, (∀ c ∈ s.calls, c.holds e = false ∧ c.owns e = false) → s.taken e = false := by
  have h := sound_run (sound_withWidth hwidth horizon) hrun
  refine ⟨fun e seq hl => ?_, fun seq hseq => ?_, fun e hidle => ?_⟩
  · obtain ⟨-, rfl, hpos, -⟩ := h.of_live hl
    exact h.mem_announced hpos
  · obtain ⟨e, -, hpos, rfl⟩ := mem_announced.mp hseq
    obtain ⟨c, hc, hh⟩ := countP_pos_iff.mp (h.counted e ▸ hpos)
    exact ⟨c, hc, e, hh, rfl⟩
  · -- With no pin, a taken entry would have an owner.
    have hpins := h.counted e
    have howned := h.owned e
    rw [countP_eq_zero.mpr fun c hc => by simp [hidle c hc]] at hpins howned
    rw [owners, ← hpins] at howned
    simpa using howned

theorem announced_exact_pinned : ∃ s, run step (withWidth 1 5) pinsThenScans = some s ∧
    5 ∈ s.announced := by
  obtain ⟨s, hs, hc⟩ := map_eq_some_iff.mp
    (show (run step (withWidth 1 5) pinsThenScans).map (·.calls) =
      some [.live ⟨0, 0, 0⟩ 5, .sample] by decide +kernel)
  exact ⟨s, hs, (announced_exact (by decide) hs).1 ⟨0, 0, 0⟩ 5 (by rw [hc]; exact mem_cons_self)⟩

end Registry

end RegolithStore.Snapshot
