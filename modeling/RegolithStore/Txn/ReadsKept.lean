import RegolithStore.Txn.SharedReads

/-! What a commit validates of the reads several threads made. A cell only grows stricter, and
where no key is ever pushed twice it is the one the commit keeps. Two threads that both find no
cell of a key push one each: when the first has read its own back before the second pushes, the
commit keeps only the second. -/

namespace RegolithStore

open Lib List TrackedCell Option

def ReadPhase.call? : ReadPhase → Option ReadCall
  | .idle => none
  | .lookup call | .push call | .announce call _ | .link call _ | .count call | .reread call
  | .fold call _ | .mark call _ | .raise call _ => some call
  | .build call | .publish call | .walk call | .seed call _ => call

namespace SharedReads

variable {call : ReadCall} {thread node : Nat} {d : DoneRead}

/-! ### Reads in cells -/

structure Kept (c : TrackedCell) (d : DoneRead) : Prop where
  forUpdate : d.call.forUpdate = true → c.forUpdate = true
  whole : d.call.parts? = none → c.Whole
  parts : ∀ parts, d.call.parts? = some parts → c.HoldsParts parts
  observed : c.firstReadSeq ≤ d.served

theorem Kept.grown {c c' : TrackedCell} (h : Kept c d) (hg : c.Grown c') :
    Kept c' d :=
  ⟨fun hd => hg.forUpdate (h.forUpdate hd), fun hd => hg.whole (h.whole hd),
    fun parts hd => hg.parts parts (h.parts parts hd), hg.firstReadSeq ▸ h.observed⟩

variable (s : SharedReads)

/-- What a thread knows of the node it found. -/
def PhaseOk : ReadPhase → Prop
  | .fold call node => ∃ cell, s.nodes[node]? = some (call.key, cell)
  | .mark call node => call.parts? = none ∧
      ∃ cell, s.nodes[node]? = some (call.key, cell) ∧ cell.Whole
  | .raise call node => call.parts? = none ∧ ∃ cell, s.nodes[node]? = some (call.key, cell) ∧
      cell.Whole ∧ (call.forUpdate = true → cell.forUpdate = true)
  | _ => True

/-- A cell is read no earlier than it was first read; one that may be read by parts was first
read at the begin snapshot. -/
def CellOk (c : TrackedCell) : Prop :=
  c.firstReadSeq ≤ c.readSeq ∧ (s.mode = .optimistic → c.firstReadSeq = s.snapshotSeq)

def IndexOk (nodes : List (Key × TrackedCell)) (index : Key → Option Nat) : Prop :=
  ∀ key node, index key = some node → ∃ cell, nodes[node]? = some (key, cell)

/-- A call by parts is only made where the transaction projects. -/
def CallOk (call : ReadCall) : Prop :=
  ∀ parts, call.parts? = some parts → s.mode = .optimistic

structure Sound (s : SharedReads) : Prop where
  keys : (s.nodes.map Prod.fst).Nodup
  cells : ∀ n ∈ s.nodes, s.CellOk n.2
  index : ∀ index ∈ s.index, IndexOk s.nodes index
  calls : ∀ thread, ∀ call ∈ (s.threads thread).call?, s.CallOk call
  threads : ∀ thread, s.PhaseOk (s.threads thread)
  reads : ∀ d ∈ s.reads, d.call.parts? ≠ some [] →
    ∃ cell, (d.call.key, cell) ∈ s.nodes ∧ Kept cell d

/-! ### What a step does to the list and the index -/

/-- The list and the index of `s'` are those of `s` or grew from them; the threads and the
reads are still those of `s`. -/
structure Moves (s s' : SharedReads) : Prop where
  mode : s'.mode = s.mode
  snapshotSeq : s'.snapshotSeq = s.snapshotSeq
  threads : s'.threads = s.threads
  reads : s'.reads = s.reads
  grows : ∀ (node : Nat) key cell, s.nodes[node]? = some (key, cell) →
    ∃ cell', s'.nodes[node]? = some (key, cell') ∧ Grown cell cell'
  keys : (s'.nodes.map Prod.fst).Nodup
  cells : ∀ n ∈ s'.nodes, s.CellOk n.2
  index : ∀ index ∈ s'.index, IndexOk s'.nodes index

variable {s s' : SharedReads} {cell : TrackedCell} {phase : ReadPhase} {key : Key}

variable (h : Sound s)

include h

theorem Sound.moves_of_nodes (hmode : s'.mode = s.mode) (hseq : s'.snapshotSeq = s.snapshotSeq)
    (hthreads : s'.threads = s.threads) (hr : s'.reads = s.reads) (hnodes : s'.nodes = s.nodes)
    (hindex : s'.index = s.index ∨ s'.index = some fun _ => none) : Moves s s' := by
  refine ⟨hmode, hseq, hthreads, hr, fun node key cell hnode => ?_, hnodes ▸ h.keys,
    hnodes ▸ h.cells, fun index hi => ?_⟩
  · exact ⟨cell, hnodes ▸ hnode, TrackedCell.Grown.refl cell⟩
  · rw [hnodes]
    rcases hindex with hs | he
    · exact h.index index (hs ▸ hi)
    · obtain rfl : (fun _ => none) = index := mem_unique he hi
      intro key node hn
      cases hn

theorem Sound.moves_refl : Moves s s :=
  h.moves_of_nodes rfl rfl rfl rfl rfl (.inl rfl)

theorem Sound.moves_linked (node : Nat) : Moves s (s.linked node) := by
  unfold linked
  split
  case h_1 key cell index hnode hidx =>
    refine ⟨rfl, rfl, rfl, rfl, fun node key cell hnode => ⟨cell, hnode, .refl cell⟩, h.keys,
      h.cells, ?_⟩
    intro index' hidx' key' node' hnode'
    cases hidx'
    have hold := h.index index hidx
    rcases eq_or_ne key' key with rfl | hne
    · rw [Function.update_self] at hnode'
      cases hn : index key' with
      | none =>
        rw [hn] at hnode'
        cases hnode'
        exact ⟨cell, hnode⟩
      | some newest =>
        rw [hn] at hnode'
        cases hnode'
        rcases max_choice newest node with hmax | hmax
        · rw [hmax]
          exact hold key' newest hn
        · rw [hmax]
          exact ⟨cell, hnode⟩
    · rw [Function.update_of_ne hne] at hnode'
      exact hold key' node' hnode'
  case h_2 => exact h.moves_refl

theorem Sound.moves_fold (node : Nat) {f : TrackedCell → TrackedCell}
    (hgrown : ∀ c, Grown c (f c)) : Moves s (s.fold node f) := by
  have hget : ∀ i : Nat, (s.fold node f).nodes[i]? =
      (s.nodes[i]?).map fun n => if i = node then (n.1, f n.2) else n := by
    intro i
    rw [fold, getElem?_modify]
    by_cases hi : i = node
    · simp [hi]
    · simp [hi, Ne.symm hi]
  have hgrow : ∀ (i : Nat) key cell, s.nodes[i]? = some (key, cell) →
      ∃ cell', (s.fold node f).nodes[i]? = some (key, cell') ∧ Grown cell cell' := by
    intro i key cell hcell
    rw [hget, hcell, map_some]
    split_ifs with hi
    · exact ⟨f cell, rfl, hgrown cell⟩
    · exact ⟨cell, rfl, .refl cell⟩
  have hkeys : (s.fold node f).nodes.map Prod.fst = s.nodes.map Prod.fst := by
    refine ext_getElem? fun i => ?_
    rw [getElem?_map, getElem?_map, hget, Option.map_map]
    congr 1
    funext n
    split_ifs <;> rfl
  refine ⟨rfl, rfl, rfl, rfl, hgrow, hkeys ▸ h.keys, fun n hn => ?_, fun index hidx key i hi => ?_⟩
  · obtain ⟨i, hi⟩ := getElem?_of_mem hn
    rw [hget, map_eq_some_iff] at hi
    obtain ⟨n, hold, rfl⟩ := hi
    obtain ⟨hle, hf⟩ := h.cells n (mem_of_getElem? hold)
    split_ifs
    · have hg := hgrown n.2
      exact ⟨hg.firstReadSeq ▸ hle.trans hg.readSeq, fun hmode => hg.firstReadSeq ▸ hf hmode⟩
    · exact ⟨hle, hf⟩
  · obtain ⟨cell, hcell⟩ := h.index index hidx key i hi
    obtain ⟨cell', hcell', -⟩ := hgrow i key cell hcell
    exact ⟨cell', hcell'⟩

theorem Sound.moves_push (hnew : call.key ∉ s.nodes.map Prod.fst) :
    Moves s { s with nodes := s.nodes ++ [(call.key, s.cellOf call)] } := by
  have hg : ∀ (node : Nat) key cell, s.nodes[node]? = some (key, cell) →
      (s.nodes ++ [(call.key, s.cellOf call)])[node]? = some (key, cell) := by
    intro node key cell hnode
    rw [List.getElem?_append_left (lt_of_getElem? hnode), hnode]
  refine ⟨rfl, rfl, rfl, rfl, fun node key cell hnode => ⟨cell, hg node key cell hnode, .refl cell⟩,
    ?_, fun n hn => ?_, fun index hi key node hnode => ?_⟩
  · rw [map_append, map_singleton]
    exact List.Nodup.append h.keys (nodup_singleton _) (by simpa using hnew)
  · rcases mem_concat.mp hn with hold | rfl
    · exact h.cells n hold
    · refine ⟨le_rfl, fun hmode => ?_⟩
      cases call with
      | get key | getParts key parts => rfl
      | getForUpdate key horizon => simp [cellOf, SharedReads.horizon, hmode]
  · obtain ⟨cell, hc⟩ := h.index index hi key node hnode
    exact ⟨cell, hg node key cell hc⟩

omit h

/-! ### What a step keeps -/

theorem Moves.phaseOk (h : Moves s s') (hph : s.PhaseOk phase) :
    s'.PhaseOk phase := by
  cases phase with
  | fold call node =>
    obtain ⟨cell, hcell⟩ := hph
    obtain ⟨cell', hcell', -⟩ := h.grows node _ cell hcell
    exact ⟨cell', hcell'⟩
  | mark call node =>
    obtain ⟨hp, cell, hcell, hw⟩ := hph
    obtain ⟨cell', hcell', hgrown⟩ := h.grows node _ cell hcell
    exact ⟨hp, cell', hcell', hgrown.whole hw⟩
  | raise call node =>
    obtain ⟨hp, cell, hcell, hw, hupd⟩ := hph
    obtain ⟨cell', hcell', hgrown⟩ := h.grows node _ cell hcell
    exact ⟨hp, cell', hcell', hgrown.whole hw, fun hc => hgrown.forUpdate (hupd hc)⟩
  | _ => trivial

theorem Moves.sound_at (hm : Moves s s') (h : Sound s) {thread : Nat} (hph : s'.PhaseOk phase)
    (hcall : ∀ call ∈ phase.call?, s.CallOk call) : Sound (s'.at_ thread phase) := by
  refine ⟨hm.keys, fun n hn => ?_, hm.index, fun other call hcall' => ?_, fun other => ?_,
    fun d hd hp => ?_⟩
  · obtain ⟨hle, hf⟩ := hm.cells n hn
    exact ⟨hle, fun hmode => (hf (hm.mode ▸ hmode)).trans hm.snapshotSeq.symm⟩
  · have hok : s.CallOk call := by
      rcases eq_or_ne other thread with rfl | hne
      · rw [threads_at_self] at hcall'
        exact hcall call hcall'
      · rw [threads_at_of_ne _ hne, hm.threads] at hcall'
        exact h.calls other call hcall'
    exact fun parts hp => hm.mode ▸ hok parts hp
  · rcases eq_or_ne other thread with rfl | hne
    · rw [threads_at_self]
      exact hph
    · rw [threads_at_of_ne _ hne, hm.threads]
      exact hm.phaseOk (h.threads other)
  · obtain ⟨cell, hcell, hk⟩ := h.reads d (hm.reads ▸ hd) hp
    obtain ⟨node, hnode⟩ := getElem?_of_mem hcell
    obtain ⟨cell', hcell', hgrown⟩ := hm.grows node _ cell hnode
    exact ⟨cell', mem_of_getElem? hcell', hk.grown hgrown⟩

theorem Moves.sound_done (hm : Moves s s') (h : Sound s) {thread : Nat}
    {served : Seq} (hr : call.parts? ≠ some [] →
      ∃ cell, (call.key, cell) ∈ s'.nodes ∧ Kept cell ⟨call, served⟩) :
    Sound (s'.done thread call served) := by
  have hidle : Sound (s'.at_ thread .idle) := hm.sound_at h trivial fun call hc => nomatch hc
  refine { hidle with reads := fun d hd hp => ?_ }
  rcases mem_concat.mp hd with hold | rfl
  · exact hidle.reads d hold hp
  · exact hr hp

theorem Sound.of_newest (h : Sound s) {node : Nat} (hn : s.newest key = some node) :
    ∃ cell, s.nodes[node]? = some (key, cell) := by
  unfold newest at hn
  split at hn
  case h_1 index _ hi => exact h.index index hi key node hn
  case h_2 =>
    have hany := find?_some hn
    rw [Option.any_eq_true] at hany
    obtain ⟨⟨found, cell⟩, hc, hkey⟩ := hany
    obtain rfl : found = key := of_decide_eq_true hkey
    exact ⟨cell, hc⟩

/-- No key is pushed that is listed already. -/
def pushesNew (s : SharedReads) : ReadAction → Bool
  | .step thread => match s.threads thread with
    | .push call => decide (call.key ∉ s.nodes.map Prod.fst)
    | _ => true
  | .call .. | .ensureIndexed _ => true

include h

theorem Sound.start (thread : Nat) (call : ReadCall) : Sound (s.start thread call) := by
  have hp : ∀ call : ReadCall, call.parts? = none → ∀ c ∈ (ReadPhase.lookup call).call?,
      s.CallOk c := by
    intro call hn c hc parts hpts
    cases hc
    rw [hn] at hpts
    cases hpts
  cases call with
  | get key => exact h.moves_refl.sound_at h trivial (hp (.get key) rfl)
  | getForUpdate key horizon =>
    exact h.moves_refl.sound_at h trivial (hp (.getForUpdate key horizon) rfl)
  | getParts key parts =>
    rw [SharedReads.start]
    split_ifs with hprojects he
    · refine h.moves_refl.sound_done h fun hne => ?_
      exact absurd (congrArg some he) hne
    · refine h.moves_refl.sound_at h trivial fun c hc parts' hpts => ?_
      exact (of_decide_eq_true hprojects).1
    · exact h.moves_refl.sound_at h trivial (hp (.get key) rfl)

theorem Sound.stepFold (hph : s.threads thread = .fold call node) :
    Sound (s.stepFold thread call node) := by
  obtain ⟨cell, hcell⟩ : ∃ cell, s.nodes[node]? = some (call.key, cell) := by
    have hok := h.threads thread
    rwa [hph] at hok
  have hcall : s.CallOk call := h.calls thread call (hph ▸ rfl)
  have hget : ∀ f : TrackedCell → TrackedCell,
      (s.fold node f).nodes[node]? = some (call.key, f cell) := by
    intro f
    rw [fold, getElem?_modify, hcell]
    simp
  have hw : call.parts? = none →
      Sound ((s.fold node (·.widenToFull)).at_ thread (.mark call node)) := by
    intro hn
    refine (h.moves_fold node fun _ => grown_widenToFull).sound_at h ?_
      fun c hc => some.inj hc ▸ hcall
    exact ⟨hn, _, hget _, whole_widenToFull⟩
  cases call with
  | get key | getForUpdate key horizon => exact hw rfl
  | getParts key parts =>
    refine (h.moves_fold node fun _ => grown_widen parts).sound_done h fun _ => ?_
    refine ⟨cell.widen parts, mem_of_getElem? (hget _), nofun, nofun, ?_, ?_⟩
    · rintro parts' hp
      cases hp
      exact holdsParts_widen parts
    · exact ((h.cells _ (mem_of_getElem? hcell)).2 (hcall parts rfl)).le

theorem Sound.raise
    (hph : s.threads thread = .raise call node) (hn : s.nodes[node]? = some (key, cell)) :
    Sound ((s.fold node (·.raise (s.horizon call))).done thread call
      (max cell.readSeq (s.horizon call))) := by
  have hok := h.threads thread
  rw [hph] at hok
  obtain ⟨hp, cell', hcell', hw, hupd⟩ := hok
  obtain ⟨rfl, rfl⟩ := Prod.mk.inj (mem_unique hn hcell')
  refine (h.moves_fold node fun _ => grown_raise _).sound_done h fun _ => ?_
  refine ⟨cell.raise (s.horizon call), ?_, hupd, fun _ => hw, ?_, ?_⟩
  · refine mem_of_getElem? (i := node) ?_
    rw [fold, getElem?_modify, hn]
    simp
  · intro parts hs
    rw [hp] at hs
    cases hs
  · exact (h.cells _ (mem_of_getElem? hn)).1.trans (le_max_left _ _)

omit h in
theorem callOk_afterIndex {call : Option ReadCall} (hcall : ∀ c ∈ call, s.CallOk c) :
    ∀ c ∈ (afterIndex call).call?, s.CallOk c := by
  cases call with
  | none => exact fun c hc => nomatch hc
  | some call => exact hcall

omit h in
theorem phaseOk_afterIndex (call : Option ReadCall) : s.PhaseOk (afterIndex call) := by
  cases call <;> trivial

theorem Sound.found (hcall : s.CallOk call) (hn : s.newest call.key = some node) :
    Sound (s.at_ thread (.fold call node)) :=
  h.moves_refl.sound_at h (h.of_newest hn) fun _ hc => some.inj hc ▸ hcall

/-- Every step of a thread keeps the reads in their cells. -/
theorem Sound.stepThread {thread : Nat} (hnew : s.pushesNew (.step thread) = true)
    (hs : s.stepThread thread = some s') : Sound s' := by
  unfold SharedReads.stepThread at hs
  have hcall := h.calls thread
  cases hph : s.threads thread with simp only [hph] at hs hcall
  | idle => cases hs
  | lookup call =>
    split at hs
    case h_1 node hn =>
      cases hs
      exact h.found (hcall call rfl) hn
    case h_2 =>
      cases hs
      exact h.moves_refl.sound_at h trivial hcall
  | push call =>
    cases hs
    rw [pushesNew, hph] at hnew
    exact (h.moves_push (of_decide_eq_true hnew)).sound_at h trivial hcall
  | announce call node =>
    cases hs
    split_ifs
    · exact h.moves_refl.sound_at h trivial hcall
    · exact h.moves_refl.sound_at h trivial hcall
  | link call node =>
    cases hs
    exact (h.moves_linked node).sound_at h trivial hcall
  | count call =>
    cases hs
    have hmoves : Moves s { s with len := s.len + 1 } :=
      h.moves_of_nodes rfl rfl rfl rfl rfl (.inl rfl)
    split_ifs
    · exact hmoves.sound_at h trivial hcall
    · exact hmoves.sound_at h trivial hcall
  | build call =>
    split at hs
    case h_1 =>
      cases hs
      exact h.moves_refl.sound_at h (phaseOk_afterIndex call) (callOk_afterIndex hcall)
    case h_2 =>
      cases hs
      have hmoves : Moves s { s with index := some fun _ => none } :=
        h.moves_of_nodes rfl rfl rfl rfl rfl (.inr rfl)
      exact hmoves.sound_at h trivial hcall
  | publish call =>
    cases hs
    have hmoves : Moves s { s with published := true } :=
      h.moves_of_nodes rfl rfl rfl rfl rfl (.inl rfl)
    exact hmoves.sound_at h trivial hcall
  | walk call =>
    cases hs
    exact h.moves_refl.sound_at h trivial hcall
  | seed call rest =>
    cases rest with
    | nil =>
      cases hs
      have hmoves : Moves s { s with seeded := true } :=
        h.moves_of_nodes rfl rfl rfl rfl rfl (.inl rfl)
      exact hmoves.sound_at h (phaseOk_afterIndex call) (callOk_afterIndex hcall)
    | cons node rest =>
      cases hs
      exact (h.moves_linked node).sound_at h trivial hcall
  | reread call =>
    split at hs
    case h_1 node hn =>
      cases hs
      exact h.found (hcall call rfl) hn
    case h_2 => cases hs
  | fold call node =>
    cases hs
    exact h.stepFold hph
  | mark call node =>
    have hok := h.threads thread
    simp only [hph] at hs hcall hok
    obtain ⟨hp, cell, hcell, hw⟩ := hok
    cases hs
    split_ifs with hupd
    · refine (h.moves_fold node fun _ => grown_markForUpdate).sound_at h ?_ hcall
      refine ⟨hp, cell.markForUpdate, ?_, hw, fun _ => rfl⟩
      rw [fold, getElem?_modify, hcell]
      simp
    · exact h.moves_refl.sound_at h ⟨hp, cell, hcell, hw, fun hc => absurd hc hupd⟩ hcall
  | raise call node =>
    split at hs
    case h_1 key cell hn =>
      cases hs
      exact h.raise hph hn
    case h_2 => cases hs

/-- Every step that pushes no listed key keeps the invariant. -/
theorem Sound.step {a : ReadAction} (hnew : s.pushesNew a = true)
    (hs : s.step a = some s') : Sound s' := by
  cases a with
  | call thread call =>
    obtain ⟨-, rfl⟩ := guarded_eq_some.mp hs
    exact h.start thread call
  | ensureIndexed thread =>
    obtain ⟨-, rfl⟩ := guarded_eq_some.mp hs
    exact h.moves_refl.sound_at h trivial fun _ hc => nomatch hc
  | step thread => exact h.stepThread hnew hs

omit h

def new (mode : TxMode) (level : IsolationLevel) (snapshotSeq : Seq) (spillAt : Nat) :
    SharedReads where
  mode := mode
  level := level
  snapshotSeq := snapshotSeq
  spillAt := spillAt

theorem sound_new (mode : TxMode) (level : IsolationLevel) (snapshotSeq : Seq) (spillAt : Nat) :
    Sound (new mode level snapshotSeq spillAt) where
  keys := nodup_nil
  cells := nofun
  index := nofun
  calls := nofun
  threads := fun _ => trivial
  reads := nofun

/-! ### The commit -/

/-- The check is at least as strict as the read. -/
structure AsStrict (check : ConflictKey) (d : DoneRead) : Prop where
  key : check.key = d.call.key
  forUpdate : d.call.forUpdate = true → check.access = .readForUpdate
  whole : d.call.parts? = none → ∀ parts, check.rule ≠ .parts parts
  parts : ∀ parts held, d.call.parts? = some parts → check.rule = .parts held →
    ∀ part ∈ parts, part ∈ held
  observed : check.observedSeq ≤ d.served

/-- The check made of a cell is as strict as its reads. -/
theorem Kept.check (h : Kept cell d) (hpts : d.call.parts? ≠ some []) (written : Key → Bool) : ∃
    check, s.check written (d.call.key, cell) = some check ∧ AsStrict check d := by
  have hrule : ∀ parts, s.fullReadRule ≠ .parts parts := by
    intro parts
    rw [fullReadRule]
    split_ifs <;> exact nofun
  have hf : AsStrict ⟨d.call.key, cell.firstReadSeq,
      if cell.forUpdate then .readForUpdate else .read, s.fullReadRule⟩ d :=
    ⟨rfl, fun hd => if_pos (h.forUpdate hd), fun _ => hrule,
      fun _ held _ hh => absurd hh (hrule held), h.observed⟩
  unfold SharedReads.check
  cases hprojection : cell.projection with
  | none => exact ⟨_, rfl, hf⟩
  | some p =>
    dsimp only
    by_cases hp : p.full = true
    · rw [if_pos hp]
      exact ⟨_, rfl, hf⟩
    · -- the read was by parts, and they are in the set
      obtain ⟨parts, hs⟩ : ∃ parts, d.call.parts? = some parts := by
        cases hd : d.call.parts? with
        | none => exact absurd (h.whole hd p hprojection) hp
        | some parts => exact ⟨parts, rfl⟩
      have hh := h.parts parts hs p hprojection
      have hne : p.parts ≠ [] := by
        intro hnil
        rw [hnil] at hh
        refine hpts (hs.trans (congrArg some (eq_nil_iff_forall_not_mem.mpr ?_)))
        exact fun part hpart => not_mem_nil (hh part hpart)
      have hupd : d.call.forUpdate = false := by
        cases hc : d.call with
        | getParts key parts => rfl
        | get key | getForUpdate key horizon => rw [hc] at hs; cases hs
      split_ifs
      · refine ⟨_, rfl, rfl, ?_, fun hn => ?_, fun _ held _ hrule' => ?_, h.observed⟩
        · rw [hupd]
          exact nofun
        · rw [hs] at hn
          cases hn
        · exact absurd hrule' (hrule held)
      · refine ⟨_, rfl, rfl, ?_, fun hn => ?_, fun parts' held hparts' hrule' => ?_, h.observed⟩
        · rw [hupd]
          exact nofun
        · rw [hs] at hn
          cases hn
        · obtain rfl := mem_unique hs hparts'
          obtain rfl := ReadRule.parts.inj hrule'
          exact hh

theorem mem_newest_of_nodup {nodes : List (Key × TrackedCell)}
    (hkeys : (nodes.map Prod.fst).Nodup) {n : Key × TrackedCell} (hn : n ∈ nodes) :
    n ∈ dedupBy (fun first later => decide (first.1 = later.1))
      (stableSort Prod.fst nodes.reverse) := by
  have hsrt : n ∈ stableSort Prod.fst nodes.reverse :=
    mem_stableSort.mpr (mem_reverse.mpr hn)
  rcases exists_same_mem_dedupBy hsrt with hmem | ⟨m, hm, hs⟩
  · exact hmem
  · have hm' : m ∈ nodes :=
      mem_reverse.mp (mem_stableSort.mp ((dedupBy_sublist _).subset hm))
    rwa [inj_on_of_nodup_map hkeys hm' hn (of_decide_eq_true hs)] at hm

/-- The reads of `s` are in its validation set, wherever the level asks for them. -/
def ReadsKept (s : SharedReads) : Prop :=
  ∀ written merged : Key → Bool, ∀ d ∈ s.reads, d.call.parts? ≠ some [] →
    s.level.asks written merged d.call.key d.call.forUpdate = true →
    ∃ check ∈ s.validationSet written merged, AsStrict check d

/-- So the reads are in the validation set. -/
theorem Sound.readsKept (h : Sound s) : s.ReadsKept := by
  intro written merged d hd hp hasks
  obtain ⟨cell, hc, hk⟩ := h.reads d hd hp
  obtain ⟨check, hchk, hstrict⟩ := hk.check hp written
  refine ⟨check, mem_filterMap.mpr ⟨_, mem_filter.mpr ⟨?_, ?_⟩, hchk⟩, hstrict⟩
  · exact mem_newest_of_nodup h.keys hc
  · -- a cell is for update if one of its reads is
    cases hupd : d.call.forUpdate with
    | true =>
      rw [hupd] at hasks
      rwa [hk.forUpdate hupd]
    | false =>
      rw [hupd] at hasks
      unfold IsolationLevel.asks at hasks ⊢
      split_ifs at hasks ⊢ with hevery hcommitted
      · rfl
      · exact hasks
      · rw [Bool.false_or] at hasks
        rw [hasks, Bool.or_true]

/-- In every run in which no key is pushed that is listed already, the commit validates every
read as strictly as it was made. -/
theorem readsKept_of_pushesNew (mode : TxMode) (level : IsolationLevel) (snapshotSeq : Seq)
    (spillAt : Nat) {actions : List ReadAction}
    (hnew : Along SharedReads.step (fun s a => s.pushesNew a = true)
      (new mode level snapshotSeq spillAt) actions)
    (hrun : run SharedReads.step (new mode level snapshotSeq spillAt) actions = some s) :
    s.ReadsKept :=
  (run_invariant (fun _ _ _ hs hC hstep => hs.step hC hstep)
    (sound_new mode level snapshotSeq spillAt) hnew hrun).readsKept

/-! ### Two first reads of one key -/

/-- A thread that finds no cell of its key, up to its return. -/
def firstRead (thread : Nat) : List ReadAction := List.replicate 7 (.step thread)

/-- A read for update and a plain read; the second thread looks once the first has pushed. -/
def readsInTurn : List ReadAction :=
  [.call 0 (.getForUpdate [1] 5), .call 1 (.get [1]), .step 0, .step 0] ++
    List.replicate 4 (.step 1) ++ List.replicate 6 (.step 0)

/-- Two reads, one after the other's push. -/
theorem readsKept_of_pushesNew_inTurn :
    ∃ s, run SharedReads.step (new .optimistic .repeatableRead 5 16) readsInTurn = some s ∧
      s.reads = [⟨.get [1], 5⟩, ⟨.getForUpdate [1] 5, 5⟩] ∧ s.ReadsKept := by
  obtain ⟨s, hrun, hrds⟩ : ∃ s,
      run SharedReads.step (new .optimistic .repeatableRead 5 16) readsInTurn = some s ∧
        s.reads = [⟨.get [1], 5⟩, ⟨.getForUpdate [1] 5, 5⟩] := by
    refine map_eq_some_iff.mp ?_
    decide +kernel
  refine ⟨s, hrun, hrds, ?_⟩
  exact readsKept_of_pushesNew .optimistic .repeatableRead 5 16 (by decide +kernel) hrun

/-- Both threads look and find nothing; the first pushes, reads its cell back and returns
before the second pushes. -/
def readsRaced : List ReadAction :=
  [.call 0 (.getForUpdate [1] 5), .call 1 (.get [1]), .step 1, .step 0] ++
    firstRead 0 ++ firstRead 1

/-- The read for update is in a cell the commit does not keep. -/
theorem readForUpdate_lost :
    ∃ s, run SharedReads.step (new .optimistic .repeatableRead 5 16) readsRaced = some s ∧
      s.reads = [⟨.getForUpdate [1] 5, 5⟩, ⟨.get [1], 5⟩] ∧
      (s.validationSet (fun _ => false) fun _ => false).map
        (fun check => (check.key, check.access)) = [([1], .read)] ∧ ¬ s.ReadsKept := by
  obtain ⟨s, hrun, hs⟩ : ∃ s,
      run SharedReads.step (new .optimistic .repeatableRead 5 16) readsRaced = some s ∧
        (s.reads, s.level, (s.validationSet (fun _ => false) fun _ => false).map
          fun check => (check.key, check.access)) =
        ([⟨.getForUpdate [1] 5, 5⟩, ⟨.get [1], 5⟩], .repeatableRead, [([1], .read)]) := by
    refine map_eq_some_iff.mp ?_
    decide +kernel
  simp only [Prod.mk.injEq] at hs
  obtain ⟨hrds, hlvl, hchecks⟩ := hs
  refine ⟨s, hrun, hrds, hchecks, fun hkept => ?_⟩
  obtain ⟨check, hchk, hstrict⟩ := hkept (fun _ => false) (fun _ => false)
    ⟨.getForUpdate [1] 5, 5⟩ (by rw [hrds]; exact mem_cons_self) nofun (hlvl ▸ rfl)
  have hmem := mem_map_of_mem (f := fun check : ConflictKey => (check.key, check.access)) hchk
  rw [hchecks, mem_singleton] at hmem
  have haccess := (Prod.mk.inj hmem).2
  rw [hstrict.forUpdate rfl] at haccess
  cases haccess

end SharedReads

end RegolithStore
