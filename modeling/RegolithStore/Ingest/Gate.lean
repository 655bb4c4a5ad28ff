import RegolithStore.Ingest.Tree

/-! What an ingest may rely on while its table is installed: nothing holds the compaction gate
beside it, and once its turn has come every memtable that holds a key of the table's range is at
or before the one it waits for. -/

namespace RegolithStore

open Lib List MemTable Option

variable {c : Config} {s s' : State} {i : Nat}

namespace Tree

def Install.Unheld (u : Install) (ms : List MemTable) : Prop :=
  ∀ m ∈ ms, m.holdsKeyIn u.table.smallest u.table.largest = false

/-- What the phase of an install says about the memtables. -/
def Install.Clear (u : Install) (view : ReadView) : Prop :=
  match u.phase with
  | .queued => True
  | .flushing none | .placed _ => u.Unheld view.memtables
  | .flushing (some target) => target < view.active.identity ∧
      (∀ m ∈ view.memtables, target < m.identity →
        m.holdsKeyIn u.table.smallest u.table.largest = false) ∧
      (target ∈ view.frozen.map identity ∨ ∀ m ∈ view.frozen, target < m.identity)

structure Gate (s : State) : Prop where
  identities : ((s.view.frozen ++ [s.view.active]).map identity).Pairwise (· < ·)
  next : ∀ m ∈ s.view.memtables, m.identity < s.nextIdentity
  done : s.gateAlone = true → ∀ p ∈ s.passes, p.isDone = true
  held : s.install.isSome → s.gateAlone = true
  clear : ∀ u ∈ s.install, u.Clear s.view

variable {m : MemTable} {view : ReadView}

theorem mem_memtables : m ∈ view.memtables ↔ m = view.active ∨ m ∈ view.frozen := by
  rw [ReadView.memtables, mem_cons, mem_reverse]

variable {wal : Option UInt64} {file : OutputFile} {rewritten : Bool}

section Inversions

theorem flush_eq_some (h : s.flush file rewritten = some s') : ∃ m rest, s.view.frozen = m :: rest ∧
      (m.flushTable file = none ∧ s' = { s with view := s.view.retireMemtable m } ∨
        ∃ f seq, m.flushTable file = some f ∧ m.sealedSeq = some seq ∧ f.id ∉ s.usedIds ∧
          s' = { s with
            view := s.view.installFlush m f seq (if rewritten then some m else none)
            usedIds := f.id :: s.usedIds }) := by
  unfold State.flush at h
  cases hf : s.view.frozen with
  | nil => simp [hf] at h
  | cons m rest =>
    refine ⟨m, rest, rfl, ?_⟩
    simp only [hf, head?_cons] at h
    split at h
    next hw => exact .inl ⟨hw, (some.inj h).symm⟩
    next f seq hw hseq =>
      obtain ⟨hu, h⟩ := ite_none_left_eq_some.mp h
      exact .inr ⟨f, seq, hw, hseq, hu, (some.inj h).symm⟩
    next => cases h

/-- To passes in flight a flush of the tree is the flush they know. -/
theorem flush_passes (h : s.flush file rewritten = some s') (c : Passes.Config)
    {p : Passes.State} (hv : p.version = s.view.version) (hids : p.usedIds = s.usedIds)
    (hfresh : file.fileId ∉ s.usedIds) (hp : ∀ m ∈ s.view.frozen,
      m.entries.Pairwise Entry.Before ∧ ∀ t ∈ m.rangeTombstones, t.start < t.stop) :
    ∃ m ∈ s.view.frozen, ∃ p', Passes.step c p (.flush file m) = some p' ∧
      p'.version = s'.view.version ∧ p'.usedIds = s'.usedIds := by
  obtain ⟨m, rest, hf, hcases⟩ := flush_eq_some h
  have hm : m ∈ s.view.frozen := hf ▸ mem_cons_self
  obtain ⟨hsort, htombs⟩ := hp m hm
  refine ⟨m, hm, ?_⟩
  rw [Passes.step, if_pos ⟨hsort, htombs, hids ▸ hfresh⟩]
  rcases hcases with ⟨hn, rfl⟩ | ⟨f, seq, hw, hseq, -, rfl⟩
  · exact ⟨p, by rw [hn], hv, hids⟩
  · refine ⟨_, by rw [hw, hseq], ?_, by rw [hids]⟩
    cases rewritten <;> exact congrArg (Version.applyEdits · _) hv


theorem pick_eq_some {picker : Picker} (h : s.pick c picker = some s') :
    s.gateAlone = false ∧ (picker.alone = true → ∀ p ∈ s.passes, p.holding = false) ∧
      ∃ job, picker.job c s.view.version = some job ∧ s' = { s with passes := s.passes ++
        [if picker.alone then .running job (picker.opts c) true else .picked job (picker.opts c)] } := by
  rw [State.pick, ite_none_left_eq_some, Bool.or_eq_true, not_or, Bool.and_eq_true, not_and] at h
  obtain ⟨hg, h⟩ := h
  obtain ⟨job, hjob, rfl⟩ := map_eq_some_iff.mp h
  refine ⟨by simpa using hg.1, fun ha p hp => ?_, job, hjob, rfl⟩
  simpa using fun hold => hg.2 ha (any_eq_true.mpr ⟨p, hp, hold⟩)

theorem pickFifo_eq_some (h : s.pickFifo c = some s') :
    s.gateAlone = false ∧ (∀ p ∈ s.passes, p.holding = false) ∧ s' = { s with passes := s.passes ++
      [.dropping (RegolithStore.pickFifo c.fifoLimit s.view.version)] } := by
  unfold State.pickFifo at h
  split_ifs at h with hg
  rw [Bool.or_eq_true, not_or] at hg
  refine ⟨by simpa using hg.1, fun p hp => ?_, (some.inj h).symm⟩
  simpa using fun hold => hg.2 (any_eq_true.mpr ⟨p, hp, hold⟩)

theorem claim_eq_some (h : s.claim i = some s') : ∃ job opts, s.passes[i]? = some (.picked job opts) ∧
    (s' = s.setPass i .done ∨ (∀ p ∈ s.passes, p.alone = false) ∧
      s' = s.setPass i (.claimed job opts)) := by
  unfold State.claim at h
  split at h
  next job opts hp =>
    refine ⟨job, opts, hp, ?_⟩
    split_ifs at h with hg
    · exact .inl (some.inj h).symm
    · refine .inr ⟨fun p hmem => ?_, (some.inj h).symm⟩
      rw [← Bool.not_eq_true]
      exact fun ha => hg (any_eq_true.mpr ⟨p, hmem, by simp [ha]⟩)
  next => cases h

theorem check_eq_some (h : s.check i = some s') :
    ∃ job opts, s.passes[i]? = some (.claimed job opts) ∧
      (s' = s.setPass i .done ∨ s' = s.setPass i (.running job opts false)) := by
  unfold State.check at h
  split at h
  next job opts hp =>
    refine ⟨job, opts, hp, ?_⟩
    split_ifs at h
    · exact .inr (some.inj h).symm
    · exact .inl (some.inj h).symm
  next => cases h

theorem write_eq_some {live : List Seq} {file : Nat → OutputFile}
    (h : s.write i live file = some s') : ∃ job opts alone,
      s.passes[i]? = some (.running job opts alone) ∧ live.Pairwise (· ≤ ·) ∧
      ((job.perform opts s.view.version live file).map LiveSst.id).Nodup ∧
      (∀ o ∈ job.perform opts s.view.version live file, o.id ∉ s.usedIds) ∧
      s' = { s.setPass i (.written job (job.perform opts s.view.version live file) alone) with
        usedIds := (job.perform opts s.view.version live file).map LiveSst.id ++ s.usedIds } := by
  unfold State.write at h
  split at h
  next job opts alone hp =>
    dsimp only at h
    split_ifs at h with hg
    exact ⟨job, opts, alone, hp, hg.1, hg.2.1, hg.2.2, (some.inj h).symm⟩
  next => cases h

theorem apply_eq_some (h : s.apply i = some s') :
    (∃ job outputs alone, s.passes[i]? = some (.written job outputs alone) ∧
      s' = (s.setVersion (s.view.version.applyEdits
        (job.installEdits s.view.version outputs))).setPass i .done) ∨
    ∃ ids, s.passes[i]? = some (.dropping ids) ∧ s' = (s.setVersion (s.view.version.applyEdits
        (ids.map (.removeFile 0)))).setPass i .done := by
  unfold State.apply at h
  split at h
  next job outputs alone hp => exact .inl ⟨job, outputs, alone, hp, (some.inj h).symm⟩
  next ids hp => exact .inr ⟨ids, hp, (some.inj h).symm⟩
  next => cases h

theorem queue_eq_some {table : StagedTable} {behind : Bool} (h : s.queue table behind = some s') :
    s.gateAlone = true ∧ table.fileId ∉ s.usedIds ∧ s' = { s with
      install := some ⟨table, behind,
        if behind then [] else l0Holders s.view.version table.smallest table.largest, .queued⟩
      usedIds := table.fileId :: s.usedIds } := by
  obtain ⟨hg, h⟩ := ite_none_right_eq_some.mp h
  exact ⟨hg.1, hg.2.2, (some.inj h).symm⟩

theorem enter_eq_some (h : s.enter wal = some s') : ∃ u, s.install = some u ∧ u.phase = .queued ∧
      (s' = s.endInstall ∨
        (∃ level, behindLevel s.view u.table.smallest u.table.largest = .ok level ∧
          s' = s.setPhase u (.placed level)) ∨
        s' = (s.rotate wal).setPhase u (.flushing (some s.view.active.identity)) ∨
        s.view.active.holdsKeyIn u.table.smallest u.table.largest = false ∧
          s' = s.setPhase u (.flushing ((s.view.frozen.reverse.find? fun m =>
            m.holdsKeyIn u.table.smallest u.table.largest).map identity))) := by
  unfold State.enter at h
  split at h
  next table behind probed hu =>
    refine ⟨_, hu, rfl, ?_⟩
    dsimp only at h
    split_ifs at h with hbehind ha
    · split at h
      next level hl => exact .inr (.inl ⟨level, hl, (some.inj h).symm⟩)
      next => exact .inl (some.inj h).symm
    · exact .inr (.inr (.inl (some.inj h).symm))
    · exact .inr (.inr (.inr ⟨by simpa using ha, (some.inj h).symm⟩))
  next => cases h

theorem place_eq_some (h : s.place = some s') : ∃ u, s.install = some u ∧
    ((∃ target, u.phase = .flushing (some target) ∧
        target ∉ s.view.frozen.map identity ∧ s' = s.setPhase u (.placed 0)) ∨
      u.phase = .flushing none ∧ s' = s.setPhase u (.placed (placement s.view.version
        u.table.smallest u.table.largest
        (probedHolds u.probed u.table.smallest u.table.largest)))) := by
  unfold State.place at h
  split at h
  next table behind probed target hu =>
    split_ifs at h with htgt
    exact ⟨_, hu, .inl ⟨target, rfl, htgt, (some.inj h).symm⟩⟩
  next table behind probed hu => exact ⟨_, hu, .inr ⟨rfl, (some.inj h).symm⟩⟩
  next => cases h

theorem installTable_eq_some (h : s.installTable = some s') :
    ∃ u level, s.install = some u ∧ u.phase = .placed level ∧ s.lastSeq.Fits 1 ∧
      s' = { (s.setVersion (s.view.version.applyEdits [.addFile level
          (u.table.installed (s.lastSeq + 1)), .setLastSeq (s.lastSeq + 1)])).endInstall with
        lastSeq := s.lastSeq + 1 } := by
  unfold State.installTable at h
  split at h
  next table behind probed level hu =>
    split_ifs at h with hf
    exact ⟨_, level, hu, rfl, hf, (some.inj h).symm⟩
  next => cases h

end Inversions

namespace Gate

variable {u : Install} {rest : List MemTable}

section

variable (h : Gate s) {p : Pass}

include h

theorem retire_head (hf : s.view.frozen = m :: rest) : (s.view.retireMemtable m).frozen = rest := by
  have hids := h.identities
  rw [hf, cons_append, map_cons, pairwise_cons] at hids
  rw [ReadView.retireMemtable, hf, filter_cons_of_neg (by simp)]
  refine filter_eq_self.mpr fun x hx => decide_eq_true ?_
  exact (hids.1 x.identity (mem_map_of_mem (mem_append_left _ hx))).ne'

theorem not_alone (hp : s.passes[i]? = some p) (hnot : p.isDone = false) : s.gateAlone = false := by
  rw [← Bool.not_eq_true]
  intro hg
  rw [h.done hg p (mem_of_getElem? hp)] at hnot
  cases hnot

theorem setPass (hp : s.gateAlone = true → p.isDone = true) : Gate (s.setPass i p) :=
  ⟨h.identities, h.next, fun hg q hq => (mem_or_eq_of_mem_set hq).elim (h.done hg q)
    fun heq => heq ▸ hp hg, h.held, h.clear⟩

theorem setPass_of {p q : Pass} (hq : s.passes[i]? = some q)
    (hnot : q.isDone = false) : Gate (s.setPass i p) :=
  h.setPass fun hg => absurd ((h.not_alone hq hnot).symm.trans hg) Bool.false_ne_true

theorem addPass (hg : s.gateAlone = false) (p : Pass) :
    Gate { s with passes := s.passes ++ [p] } :=
  ⟨h.identities, h.next, fun h' => absurd (hg.symm.trans h') Bool.false_ne_true, h.held, h.clear⟩

theorem setVersion (v : Version) : Gate (s.setVersion v) :=
  ⟨h.identities, h.next, h.done, h.held, h.clear⟩

theorem endInstall : Gate s.endInstall :=
  ⟨h.identities, h.next, h.done, by simp [State.endInstall], by simp [State.endInstall]⟩

theorem setPhase (hu : s.install = some u) {phase : InstallPhase}
    (hc : Install.Clear { u with phase } s.view) : Gate (s.setPhase u phase) :=
  ⟨h.identities, h.next, h.done, fun _ => h.held (hu ▸ rfl), fun _ hx => mem_some_iff.mp hx ▸ hc⟩

end

theorem clear_of_not_ordered (hu : s.install = some u) (h : s.ordered = false)
    (view : ReadView) : u.Clear view := by
  obtain ⟨table, behind, probed, phase⟩ := u
  cases phase with
  | queued => trivial
  | flushing target | placed level => simp [State.ordered, hu] at h

variable (h : Gate s)

include h

theorem commit (ho : s.ordered = false) (ops : List WriteBatchOp) : Gate (s.commit ops) := by
  have hidentity : (s.commit ops).view.active.identity = s.view.active.identity :=
    identity_apply
  refine ⟨?_, fun m hm => ?_, h.done, h.held, fun u hu => clear_of_not_ordered hu ho _⟩
  · have hids := h.identities
    rw [map_append, map_singleton] at hids ⊢
    rwa [hidentity]
  · rcases mem_memtables.mp hm with rfl | hm
    · rw [hidentity]
      exact h.next _ (mem_memtables.mpr (.inl rfl))
    · exact h.next m (mem_memtables.mpr (.inr hm))

theorem identity_lt_active (hm : m ∈ s.view.frozen) : m.identity < s.view.active.identity := by
  have hids := h.identities
  rw [map_append, pairwise_append] at hids
  exact hids.2.2 _ (mem_map_of_mem hm) _ (by simp)

theorem rotate (hc : ∀ u ∈ s.install, u.Clear (s.rotate wal).view) : Gate (s.rotate wal) := by
  have hids := h.identities
  have hlt := h.next s.view.active (mem_memtables.mpr (.inl rfl))
  refine ⟨?_, fun m hm => ?_, h.done, h.held, hc⟩
  · simp only [State.rotate, ReadView.rotate, map_append, map_cons, map_nil] at hids ⊢
    refine pairwise_append.mpr ⟨hids, pairwise_singleton _ _, fun a ha b hb => ?_⟩
    obtain rfl := mem_singleton.mp hb
    rcases mem_append.mp ha with ha | ha
    · obtain ⟨m, hm, rfl⟩ := mem_map.mp ha
      exact h.next m (mem_memtables.mpr (.inr hm))
    · rw [mem_singleton.mp ha]
      exact hlt
  · rcases mem_memtables.mp hm with rfl | hm
    · exact Nat.lt_succ_self s.nextIdentity
    · rcases mem_append.mp hm with hm | hm
      · exact (h.next m (mem_memtables.mpr (.inr hm))).trans (Nat.lt_succ_self _)
      · rw [mem_singleton.mp hm]
        exact hlt.trans (Nat.lt_succ_self _)

/-- A memtable that leaves was the oldest. -/
theorem retire (hf : s.view.frozen = m :: rest)
    (view : ReadView) (ha : view.active = s.view.active) (hr : view.frozen = rest)
    (ids : List UInt64) : Gate { s with view, usedIds := ids } := by
  have hsub : ∀ x ∈ view.memtables, x ∈ s.view.memtables := fun x hx => by
    rw [mem_memtables, ha, hr] at hx
    rw [mem_memtables, hf]
    exact hx.imp id (mem_cons_of_mem _)
  have hids := h.identities
  rw [hf, cons_append, map_cons, pairwise_cons] at hids
  refine ⟨?_, fun x hx => h.next x (hsub x hx), h.done, h.held, fun u hu => ?_⟩
  · rw [ha, hr]
    exact hids.2
  have hc := h.clear u hu
  unfold Install.Clear at hc ⊢
  split
  next => trivial
  next hph => exact fun x hx => (by simpa only [hph] using hc : u.Unheld _) x (hsub x hx)
  next level hph =>
    exact fun x hx => (by simpa only [hph] using hc : u.Unheld _) x (hsub x hx)
  next target hph =>
    simp only [hph] at hc
    obtain ⟨hlt, hunheld, hwhere⟩ := hc
    refine ⟨ha ▸ hlt, fun x hx => hunheld x (hsub x hx), ?_⟩
    rw [hf, map_cons, mem_cons] at hwhere
    rw [hr]
    rcases hwhere with (rfl | hmem) | hall
    · exact .inr fun x hx => hids.1 _ (mem_map_of_mem (mem_append_left _ hx))
    · exact .inl hmem
    · exact .inr fun x hx => hall x (.tail _ hx)

theorem flush (hs : s.flush file rewritten = some s') : Gate s' := by
  obtain ⟨m, rest, hf, ⟨-, rfl⟩ | ⟨f, seq, -, -, -, rfl⟩⟩ := flush_eq_some hs
  · exact h.retire hf (s.view.retireMemtable m) rfl (h.retire_head hf) s.usedIds
  · cases rewritten with
    | false => exact ⟨h.identities, h.next, h.done, h.held, h.clear⟩
    | true => exact h.retire hf (s.view.installFlush m f seq m) rfl (h.retire_head hf) _

theorem clear_target {target : Option Nat}
    (ha : s.view.active.holdsKeyIn u.table.smallest u.table.largest = false)
    (htgt : (s.view.frozen.reverse.find? fun m =>
      m.holdsKeyIn u.table.smallest u.table.largest).map identity = target) :
    Install.Clear { u with phase := .flushing target } s.view := by
  cases hf : s.view.frozen.reverse.find? fun m =>
      m.holdsKeyIn u.table.smallest u.table.largest with
  | none =>
    rw [hf] at htgt
    subst htgt
    intro m hm
    rcases mem_cons.mp hm with rfl | hm
    · exact ha
    · simpa using find?_eq_none.mp hf m hm
  | some m =>
    rw [hf] at htgt
    subst htgt
    obtain ⟨-, newer, older, hs, hn⟩ := find?_eq_some_iff_append.mp hf
    have hmem : m ∈ s.view.frozen := mem_reverse.mp (by simp [hs])
    refine ⟨h.identity_lt_active hmem, fun x hx hlt => ?_, .inl (mem_map_of_mem hmem)⟩
    rcases mem_memtables.mp hx with rfl | hx
    · exact ha
    -- what is not newer has no larger identity
    have hids := h.identities
    rw [map_append, pairwise_append] at hids
    have hd : s.view.frozen.reverse.Pairwise fun a b => b.identity < a.identity :=
      pairwise_reverse.mpr (pairwise_map.mp hids.1)
    rw [hs, pairwise_append, pairwise_cons] at hd
    have hx : x ∈ newer ++ m :: older := hs ▸ mem_reverse.mpr hx
    rcases mem_append.mp hx with hx | hx
    · simpa using hn x hx
    · rcases mem_cons.mp hx with rfl | hx
      · exact absurd hlt (lt_irrefl _)
      · exact absurd hlt (hd.2.1.1 x hx).asymm

omit h in
theorem unheld_of_behindLevel {level : Nat}
    (h : behindLevel view u.table.smallest u.table.largest = .ok level) :
    u.Unheld view.memtables := by
  unfold behindLevel at h
  dsimp only at h
  split_ifs at h with hg
  rw [Bool.or_eq_true, not_or] at hg
  intro m hm
  have hmem : m ∈ view.active :: view.frozen := by
    rcases mem_memtables.mp hm with rfl | hm
    · exact mem_cons_self
    · exact .tail _ hm
  simpa using fun hold => hg.1 (any_eq_true.mpr ⟨m, hmem, hold⟩)

theorem enter (hs : s.enter wal = some s') : Gate s' := by
  obtain ⟨u, hu, hqueued, rfl | ⟨level, hl, rfl⟩ | rfl | ⟨ha, rfl⟩⟩ := enter_eq_some hs
  · exact h.endInstall
  · exact h.setPhase hu (unheld_of_behindLevel hl)
  · have hrot : Gate (s.rotate wal) := h.rotate fun x hx => by
      obtain rfl := mem_some_iff.mp (hu ▸ hx)
      simp only [Install.Clear, hqueued]
    refine hrot.setPhase hu ⟨h.next _ (mem_memtables.mpr (.inl rfl)), fun m hm hlt => ?_, ?_⟩
    · rcases mem_memtables.mp hm with rfl | hm
      · rfl
      · -- the frozen memtables, the one just sealed with them, are no newer
        rcases mem_append.mp hm with hm | hm
        · exact absurd hlt (h.identity_lt_active hm).asymm
        · rw [mem_singleton.mp hm] at hlt
          exact absurd hlt (lt_irrefl _)
    · refine .inl (mem_map.mpr ⟨_, mem_append_right _ (mem_singleton_self _), rfl⟩)
  · exact h.setPhase hu (h.clear_target ha rfl)

theorem place (hs : s.place = some s') : Gate s' := by
  obtain ⟨u, hu, ⟨target, hph, hgone, rfl⟩ | ⟨hph, rfl⟩⟩ := place_eq_some hs
  · have hc := h.clear u hu
    simp only [Install.Clear, hph] at hc
    obtain ⟨hlt, hunheld, hwhere⟩ := hc
    have hall := hwhere.resolve_left hgone
    refine h.setPhase hu fun m hm => hunheld m hm ?_
    rcases mem_memtables.mp hm with rfl | hm
    · exact hlt
    · exact hall m hm
  · have hc := h.clear u hu
    simp only [Install.Clear, hph] at hc
    exact h.setPhase hu hc

/-- Every step keeps the gate's promises. -/
theorem step {a : Action} (hs : step c s a = some s') : Gate s' := by
  cases a with
  | commit ops =>
    obtain ⟨⟨ho, -⟩, hs⟩ := ite_none_right_eq_some.mp hs
    exact some.inj hs ▸ h.commit ho ops
  | rotate wal =>
    rw [Tree.step, ite_none_left_eq_some] at hs
    obtain ⟨ho, hs⟩ := hs
    refine some.inj hs ▸ h.rotate fun u hu => clear_of_not_ordered hu ?_ _
    simpa using ho
  | flush file | flushFails file => exact h.flush hs
  | pick picker =>
    obtain ⟨hg, -, job, -, rfl⟩ := pick_eq_some hs
    exact h.addPass hg _
  | pickFifo =>
    obtain ⟨hg, -, rfl⟩ := pickFifo_eq_some hs
    exact h.addPass hg _
  | claim i =>
    obtain ⟨job, opts, hp, rfl | ⟨-, rfl⟩⟩ := claim_eq_some hs <;> exact h.setPass_of hp rfl
  | check i =>
    obtain ⟨job, opts, hp, rfl | rfl⟩ := check_eq_some hs <;> exact h.setPass_of hp rfl
  | write i live file =>
    obtain ⟨job, opts, alone, hp, -, -, -, rfl⟩ := write_eq_some hs
    exact ⟨h.identities, h.next, (h.setPass_of hp rfl).done, h.held, h.clear⟩
  | apply i =>
    obtain ⟨job, outputs, alone, hp, rfl⟩ | ⟨ids, hp, rfl⟩ := apply_eq_some hs
    · exact (h.setVersion _).setPass fun _ => rfl
    · exact (h.setVersion _).setPass fun _ => rfl
  | fail i =>
    cases hs
    exact h.setPass fun _ => rfl
  | takeGate =>
    rw [Tree.step, ite_none_left_eq_some, Bool.or_eq_true, not_or] at hs
    obtain ⟨⟨-, hd⟩, hs⟩ := hs
    cases hs
    refine ⟨h.identities, h.next, fun _ => ?_, fun _ => rfl, h.clear⟩
    simpa using hd
  | releaseGate =>
    rw [Tree.step, ite_none_right_eq_some, Bool.and_eq_true] at hs
    obtain ⟨⟨-, hn⟩, hs⟩ := hs
    cases hs
    refine ⟨h.identities, h.next, Bool.noConfusion, fun hsome => ?_, h.clear⟩
    rw [isNone_iff_eq_none.mp hn] at hsome
    cases hsome
  | queue table behind =>
    obtain ⟨hg, -, rfl⟩ := queue_eq_some hs
    refine ⟨h.identities, h.next, h.done, fun _ => hg, fun u hu => ?_⟩
    cases hu
    trivial
  | enter wal => exact h.enter hs
  | place => exact h.place hs
  | install =>
    obtain ⟨u, level, -, -, -, rfl⟩ := installTable_eq_some hs
    exact ⟨h.identities, h.next, h.done, h.endInstall.held, nofun⟩
  | giveUp =>
    cases hs
    exact h.endInstall

end Gate

theorem gate_opened (v : Version) (active : MemTable) (lastSeq : Seq) :
    Gate (opened v active lastSeq) where
  identities := pairwise_singleton _ _
  next m hm := by
    rcases mem_memtables.mp hm with rfl | hm
    · exact Nat.lt_succ_self _
    · cases hm
  done h := by cases h
  held h := by cases h
  clear u hu := by cases hu

end Tree

end RegolithStore
