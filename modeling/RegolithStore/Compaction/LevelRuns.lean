import RegolithStore.Compaction.Passes
import RegolithStore.Lib.Pointwise

/-! When passes in flight keep every level a sorted run. Claims keep two passes from reading one
table, not from writing over one another: a pass writes the hull of all its inputs, and a table
flushed into a gap of that hull can be taken down by another pass meanwhile. An install is safe
when the keys the pass holds lie to one side of every other table of its target level, and of
every pass writing into it, once its claims are held. -/

namespace RegolithStore

open Lib List Function Version LiveSst

variable {other : Job} {o f : LiveSst}

namespace Job

variable (job : Job) {outputs : List LiveSst}

def Below (c : Key) : Prop := ∀ k, job.Holds k → k < c

def Above (c : Key) : Prop := ∀ k, job.Holds k → c ≤ k

def ClearOf (f : LiveSst) : Prop := job.Below f.smallest ∨ job.Above f.largest

/-- The two passes lie to two sides of a key. -/
def ApartFrom (other : Job) : Prop :=
  ∃ c, (job.Below c ∧ other.Above c) ∨ (other.Below c ∧ job.Above c)

theorem ApartFrom.symm {job : Job} (h : job.ApartFrom other) : other.ApartFrom job := by
  obtain ⟨c, h⟩ := h
  exact ⟨c, h.symm⟩

def replaced : List UInt64 :=
  (if job.level = job.target then job.inputs.map LiveSst.id else []) ++ job.below.map LiveSst.id

/-- What is known of the outputs of a pass once they are written. -/
structure Fits (outputs : List LiveSst) : Prop where
  sound : ∀ o ∈ outputs, o.Sound
  apart : outputs.Pairwise fun a b => Apart smallest largest b a
  below : ∀ o ∈ outputs, ∀ c, job.Below c → o.smallest < c ∧ o.largest ≤ c
  above : ∀ o ∈ outputs, ∀ c, job.Above c → c ≤ o.smallest

theorem perform_fits (hs : job.Sorted) (opts : CompactionOptions) (v : Version)
    {live : List Seq} (hl : live.Pairwise (· ≤ ·)) (file : Nat → OutputFile) :
    job.Fits (job.perform opts v live file) where
  sound _ ho := Job.output_sound hs hl ho
  apart := Job.outputs_apart hs hl file
  below _ ho _ hc := Job.output_below ho hc
  above _ ho _ hc := hc _ (Job.output_holds ho (Job.output_hull ho).1)

variable {job} {v : Version}

theorem Fits.apart_of_clear (h : job.Fits outputs) (ho : o ∈ outputs)
    (hf : job.ClearOf f) : Apart smallest largest o f := by
  rcases hf with hf | hf
  · exact .inr ⟨(h.below o ho _ hf).2, (h.below o ho _ hf).1⟩
  · exact .inl (h.above o ho _ hf)

theorem Fits.clear_of_apart (h : job.Fits outputs) (ho : o ∈ outputs)
    (hap : other.ApartFrom job) : other.ClearOf o := by
  obtain ⟨c, ⟨hoth, hjob⟩ | ⟨hjob, hoth⟩⟩ := hap
  · exact .inl fun k hk => (hoth k hk).trans_le (h.above o ho c hjob)
  · exact .inr fun k hk => (h.below o ho c hjob).2.trans (hoth k hk)

theorem levels_edits (htgt : job.target ≠ 0) (v : Version) (outputs : List LiveSst) (l : Nat) :
    (v.applyEdits (job.edits outputs)).levels l =
      if l = job.target then
        outputs.foldl (fun run f => insertRun smallest f run)
          ((v.levels l).filter fun f => f.id ∉ job.replaced)
      else if l = job.level then (v.levels l).filter fun f => f.id ∉ job.inputs.map LiveSst.id
      else v.levels l := by
  rw [edits, applyEdits_append, applyEdits_append,
    levels_addFiles htgt, levels_removeFiles, levels_removeFiles]
  split_ifs with h1 h2
  · rw [h1, update_self, update_self]
    congr 1
    by_cases hl : job.level = job.target
    · simp only [replaced, hl, update_self, filter_filter, mem_append, not_or]
      congr 1
      funext f
      simp [Bool.and_comm]
    · rw [update_of_ne (Ne.symm hl), replaced, if_neg hl, nil_append]
  · subst h2
    simp [h1]
  · simp [h1, h2]

theorem mem_levels_edits (htgt : job.target ≠ 0) {l : Nat}
    (h : f ∈ (v.applyEdits (job.edits outputs)).levels l) :
    (f ∈ v.levels l ∧ (l = job.target → f.id ∉ job.replaced)) ∨ l = job.target ∧ f ∈ outputs := by
  rw [levels_edits htgt] at h
  split_ifs at h with h1 h2
  · rcases mem_append.mp ((foldl_insertRun_perm _ _).subset h) with h | h
    · exact .inr ⟨h1, h⟩
    · rw [mem_filter] at h
      exact .inl ⟨h.1, fun _ => by simpa using h.2⟩
  · exact .inl ⟨mem_of_mem_filter h, fun h => absurd h h1⟩
  · exact .inl ⟨h, fun h => absurd h h1⟩

/-- Installing outputs that fit keeps the levels sorted runs, when the pass is clear of
every table it leaves in the level. -/
theorem Fits.sortedRuns_edits (h : job.Fits outputs) (htgt : job.target ≠ 0)
    (hs : ∀ l, ∀ f ∈ v.levels l, f.Sound) (hruns : v.SortedRuns)
    (hc : ∀ f ∈ v.levels job.target, f.id ∉ job.replaced → job.ClearOf f) :
    (v.applyEdits (job.edits outputs)).SortedRuns := by
  intro l h1 h2
  rw [levels_edits htgt]
  split_ifs with hl hl'
  · subst hl
    refine ((hruns _ h1 h2).sublist filter_sublist).foldl_insertRun ?_ ?_ ?_ h.apart
    · exact fun f hf => (hs _ f (mem_of_mem_filter hf)).ordered
    · exact fun o ho => (h.sound o ho).ordered
    · intro o ho f hf
      rw [mem_filter] at hf
      exact h.apart_of_clear ho (hc f hf.1 (by simpa using hf.2))
  · exact (hruns l h1 h2).sublist filter_sublist
  · exact hruns l h1 h2

end Job

namespace Passes

def Phase.Writing : Phase → Prop
  | .running | .written _ => True
  | _ => False

/-- A check is clear when the pass lies to one side of every other table of the level it
writes and of every pass still writing into it. -/
def ClearCheck (s : State) : Action → Prop
  | .check slot => ∀ job, s.passes slot = some ⟨job, .claimed⟩ →
      (∀ f ∈ s.version.levels job.target, f.id ∉ job.replaced → job.ClearOf f) ∧
      ∀ slot' other, slot' ≠ slot → s.passes slot' = some other → other.phase.Writing →
        other.job.target = job.target → job.ApartFrom other.job
  | _ => True

/-- A job of sound tables that writes a level below L0. -/
structure JobOk (job : Job) : Prop where
  sound : ∀ f ∈ job.files, f.Sound
  target_pos : 1 ≤ job.target

structure Inv (v : Version) (passes : Nat → Option Pass) : Prop where
  sound : ∀ l, ∀ f ∈ v.levels l, f.Sound
  runs : v.SortedRuns
  jobs : ∀ slot p, passes slot = some p → JobOk p.job
  clear : ∀ slot p, passes slot = some p → p.phase.Writing →
    ∀ f ∈ v.levels p.job.target, f.id ∉ p.job.replaced → p.job.ClearOf f
  apart : ∀ i j p q, i ≠ j → passes i = some p → passes j = some q → p.phase.Writing →
    q.phase.Writing → q.job.target = p.job.target → p.job.ApartFrom q.job
  fits : ∀ slot job outputs, passes slot = some ⟨job, .written outputs⟩ → job.Fits outputs

variable {v : Version} {passes : Nat → Option Pass} {phase : Phase} {job : Job} {x : Option Pass}
  {p : Pass}

theorem Inv.init (hs : ∀ l, ∀ f ∈ v.levels l, f.Sound) (hruns : v.SortedRuns) :
    Inv v fun _ => none :=
  ⟨hs, hruns, nofun, nofun, nofun, nofun⟩

theorem update_eq_some {slot i : Nat} (h : update passes slot x i = some p) :
    i = slot ∧ x = some p ∨ i ≠ slot ∧ passes i = some p := by
  by_cases hi : i = slot
  · subst hi
    exact .inl ⟨rfl, by simpa using h⟩
  · exact .inr ⟨hi, by simpa [hi] using h⟩

section

variable (h : Inv v passes) {slot : Nat}

include h

theorem Inv.update_idle (slot : Nat)
    (hx : ∀ p ∈ x, JobOk p.job ∧ ¬ p.phase.Writing) : Inv v (update passes slot x) where
  sound := h.sound
  runs := h.runs
  jobs i p hp := by
    rcases update_eq_some hp with ⟨-, hp⟩ | ⟨-, hp⟩
    · exact (hx p hp).1
    · exact h.jobs i p hp
  clear i p hp hw := by
    rcases update_eq_some hp with ⟨-, hp⟩ | ⟨-, hp⟩
    · exact absurd hw (hx p hp).2
    · exact h.clear i p hp hw
  apart i j p q hij hp hq hpw hqw := by
    rcases update_eq_some hp with ⟨-, hp⟩ | ⟨-, hp⟩
    · exact absurd hpw (hx p hp).2
    · rcases update_eq_some hq with ⟨-, hq⟩ | ⟨-, hq⟩
      · exact absurd hqw (hx q hq).2
      · exact h.apart i j p q hij hp hq hpw hqw
  fits i job outputs hp := by
    rcases update_eq_some hp with ⟨-, hp⟩ | ⟨-, hp⟩
    · exact absurd trivial (hx _ hp).2
    · exact h.fits i job outputs hp

theorem Inv.start (slot : Nat) (hjob : JobOk job) (hph : ¬ phase.Writing) :
    Inv v (update passes slot (some ⟨job, phase⟩)) :=
  h.update_idle slot (by rintro p ⟨⟩; exact ⟨hjob, hph⟩)

theorem Inv.rest (hs : passes slot = some p)
    (hph : ¬ phase.Writing) : Inv v (update passes slot (some ⟨p.job, phase⟩)) :=
  h.start slot (h.jobs slot p hs) hph

/-- A pass that checked clear begins to write. -/
theorem Inv.update_writing (slot : Nat) (hjob : JobOk job)
    (hc : ∀ f ∈ v.levels job.target, f.id ∉ job.replaced → job.ClearOf f)
    (hapart : ∀ i q, i ≠ slot → passes i = some q → q.phase.Writing → q.job.target = job.target →
      job.ApartFrom q.job)
    (hf : ∀ outputs, phase = .written outputs → job.Fits outputs) :
    Inv v (update passes slot (some ⟨job, phase⟩)) where
  sound := h.sound
  runs := h.runs
  jobs i p hp := by
    rcases update_eq_some hp with ⟨-, hp⟩ | ⟨-, hp⟩
    · cases hp
      exact hjob
    · exact h.jobs i p hp
  clear i p hp hw := by
    rcases update_eq_some hp with ⟨-, hp⟩ | ⟨-, hp⟩
    · cases hp
      exact hc
    · exact h.clear i p hp hw
  apart i j p q hij hp hq hpw hqw htgt := by
    rcases update_eq_some hp with ⟨hi, hp⟩ | ⟨hi, hp⟩ <;>
      rcases update_eq_some hq with ⟨hj, hq⟩ | ⟨hj, hq⟩
    · exact absurd (hi.trans hj.symm) hij
    · cases hp
      exact hapart j q hj hq hqw htgt
    · cases hq
      exact (hapart i p hi hp hpw htgt.symm).symm
    · exact h.apart i j p q hij hp hq hpw hqw htgt
  fits i job' outputs hp := by
    rcases update_eq_some hp with ⟨-, hp⟩ | ⟨-, hp⟩
    · cases hp
      exact hf outputs rfl
    · exact h.fits i job' outputs hp

theorem Inv.of_l0 {v' : Version} (hl : ∀ l, 1 ≤ l → v'.levels l = v.levels l)
    (hs : ∀ f ∈ v'.levels 0, f.Sound) : Inv v' passes where
  sound l f hf := by
    rcases Nat.eq_zero_or_pos l with rfl | hpos
    · exact hs f hf
    · exact h.sound l f (hl l hpos ▸ hf)
  runs l h1 h2 := hl l h1 ▸ h.runs l h1 h2
  jobs := h.jobs
  clear slot p hp hw f hf := h.clear slot p hp hw f (hl _ (h.jobs slot p hp).target_pos ▸ hf)
  apart := h.apart
  fits := h.fits

/-- An install by a clear pass keeps the level a sorted run. -/
theorem Inv.install {outputs : List LiveSst}
    (hs : passes slot = some ⟨job, .written outputs⟩) (hph : ¬ phase.Writing) :
    Inv (v.applyEdits (job.edits outputs)) (update passes slot (some ⟨job, phase⟩)) := by
  have hjob := h.jobs slot _ hs
  have hfits := h.fits slot job outputs hs
  have htgt : job.target ≠ 0 := Nat.one_le_iff_ne_zero.mp hjob.target_pos
  have hidle := h.rest hs hph
  refine ⟨fun l f hf => ?_, hfits.sortedRuns_edits htgt h.sound h.runs
    (h.clear slot _ hs trivial), hidle.jobs, fun i p hp hw f hf hid => ?_, hidle.apart,
    hidle.fits⟩
  · rcases Job.mem_levels_edits htgt hf with ⟨hf, -⟩ | ⟨-, hf⟩
    · exact h.sound l f hf
    · exact hfits.sound f hf
  · -- a new table of the level is clear of the others still writing into it
    rcases Job.mem_levels_edits htgt hf with ⟨hf, -⟩ | ⟨hl, hf⟩
    · exact hidle.clear i p hp hw f hf hid
    · rcases update_eq_some hp with ⟨-, hp⟩ | ⟨hi, hp⟩
      · cases hp
        exact absurd hw hph
      · exact hfits.clear_of_apart hf (h.apart i slot p _ hi hp hs hw trivial hl.symm)

end

variable {c : Config} {s s' : State}

theorem JobOk.of_from (hfrom : job.From v) (hs : ∀ l, ∀ f ∈ v.levels l, f.Sound) : JobOk job where
  sound f hf := (mem_append.mp hf).elim (fun h => hs _ f (hfrom.inputs f h))
    fun h => hs _ f (hfrom.below f h)
  target_pos := hfrom.target_pos

theorem flush_inv (h : Inv s.version s.passes) (hf : f.Sound) (m : MemTable) (seq : Seq) :
    Inv (s.version.applyEdits (m.flushEdits f seq)) s.passes := by
  refine h.of_l0 (fun l hl => ?_) ?_
  · rw [m.levels_flushEdits, update_of_ne (Nat.one_le_iff_ne_zero.mp hl)]
  · rw [m.levels_flushEdits, update_self]
    exact forall_mem_concat.mpr ⟨h.sound 0, hf⟩

/-- Every step with clear checks keeps the invariant. -/
theorem step_inv {a : Action} (h : Inv s.version s.passes) (hc : ClearCheck s a)
    (hs : step c s a = some s') : Inv s'.version s'.passes := by
  cases a with simp only [step] at hs
  | flush file m =>
    split_ifs at hs with hg
    split at hs
    · cases hs
      exact h
    · rename_i f seq hf _
      cases hs
      exact flush_inv h (writeTable_sound hf hg.1 hg.2.1) m seq
    · cases hs
  | pickSize slot level flags =>
    split at hs
    · rename_i job _ hp
      cases hs
      exact h.start slot (.of_from (pickSize_from hp) h.sound) id
    · cases hs
  | pickDeletion slot flags oldestLive =>
    split at hs
    · rename_i job _ hp
      cases hs
      exact h.start slot (.of_from (pickLevel_from hp) h.sound) id
    · cases hs
  | claim slot =>
    split at hs
    · rename_i job _ hslot
      cases hs
      exact h.rest hslot id
    · rename_i job _ id' todo hslot
      split_ifs at hs
      · cases hs
        exact h.rest hslot id
      · cases hs
        exact h.rest hslot id
    · cases hs
  | check slot =>
    split at hs
    · rename_i job hslot
      split_ifs at hs
      · cases hs
        obtain ⟨hl, hothers⟩ := hc job hslot
        exact h.update_writing slot (h.jobs slot _ hslot) hl hothers fun _ hn => by cases hn
      · cases hs
        exact h.rest hslot id
    · cases hs
  | write slot live file =>
    split at hs
    · rename_i job hslot
      split_ifs at hs with hg
      cases hs
      have hjob := h.jobs slot _ hslot
      refine h.update_writing slot hjob (h.clear slot _ hslot trivial) ?_ ?_
      · exact fun i q hi hq hw ht => h.apart slot i _ q hi.symm hslot hq trivial hw ht
      · rintro outputs ⟨⟩
        exact job.perform_fits (fun f hf => (hjob.sound f hf).sorted) c.opts s.version hg.1 file
    · cases hs
  | install slot =>
    split at hs
    · rename_i job outputs hslot
      cases hs
      exact h.install hslot id
    · cases hs
  | fail slot =>
    split at hs
    · rename_i job hslot
      cases hs
      exact h.rest hslot id
    · rename_i job _ hslot
      cases hs
      exact h.rest hslot id
    · cases hs
  | release slot =>
    split at hs
    · cases hs
      exact h.update_idle slot fun _ hn => by cases hn
    · rename_i job id' left hslot
      cases hs
      exact h.rest hslot id
    · cases hs

/-- In every run whose checks are clear, every version published has sorted runs below L0,
whatever the interleaving, the flags each pick sees, the snapshots and the operator. -/
theorem findOverlap_eq_none_of_clear_checks (c : Config) {v : Version} {as : List Action}
    (hsound : ∀ l, ∀ f ∈ v.levels l, f.Sound) (hruns : v.findOverlap = none)
    (hclear : Along (step c) ClearCheck (State.init v) as)
    (hrun : run (step c) (State.init v) as = some s') : s'.version.findOverlap = none := by
  have hinit : Inv (State.init v).version (State.init v).passes := .init hsound
    ((findOverlap_eq_none_iff fun l f hf => (hsound l f hf).ordered).mp hruns)
  have hinv : Inv s'.version s'.passes :=
    run_invariant (I := fun s => Inv s.version s.passes)
      (fun s a s' h hc hstep => step_inv h hc hstep) hinit hclear hrun
  exact (findOverlap_eq_none_iff fun l f hf => (hinv.sound l f hf).ordered).mpr hinv.runs

def plainConfig : Config := ⟨⟨1000, none, none⟩, fun _ _ _ => 0⟩

def putAt (key : UInt8) (seq : Seq) : Entry := ⟨[key], seq, .value, []⟩

def deleteAt (key : UInt8) (seq : Seq) : Entry := ⟨[key], seq, .deletion, []⟩

def sealedAt (entries : List Entry) (seq : Seq) : MemTable := ⟨0, entries, [], some seq, none⟩

/-- Two flushes, and a pass over L0 that picks and claims both tables. -/
def claimL0 (q : Seq) : List Action :=
  [.flush ⟨1, 1⟩ (sealedAt [putAt 97 (q + 1), putAt 98 (q + 2)] (q + 2)),
    .flush ⟨2, 1⟩ (sealedAt [putAt 121 (q + 3), putAt 122 (q + 4)] (q + 4)),
    .pickSize 0 0 .now, .claim 0, .claim 0, .claim 0]

/-- One table at L1, its keys below those of `claimL0`. -/
def underClaims : Version :=
  { Version.new with levels := fun l => if l = 1 then [⟨2, ⟨9, [65], [66], 1, 2, none, none⟩,
      ⟨[putAt 65 1, putAt 66 2], RangeTombstoneSet.fromVec []⟩⟩] else [] }

/-- A table flushed below all of these is taken down for its deletions. -/
def claimBeside : List Action :=
  [.flush ⟨3, 1⟩ (sealedAt [deleteAt 48 7, deleteAt 49 8, putAt 50 9] 9),
    .pickDeletion 1 .now ⊤, .claim 1, .claim 1]

theorem below_of_entries {c : Key} (h : ∀ f ∈ job.files, f.tombstones = [] ∧
    ∀ e ∈ f.reader.entries, e.userKey < c) : job.Below c := by
  rintro k ⟨f, hf, ⟨e, he, rfl⟩ | ⟨t, ht, -⟩⟩
  · exact (h f hf).2 e he
  · simp [(h f hf).1] at ht

theorem above_of_entries {c : Key} (h : ∀ f ∈ job.files, f.tombstones = [] ∧
    ∀ e ∈ f.reader.entries, c ≤ e.userKey) : job.Above c := by
  rintro k ⟨f, hf, ⟨e, he, rfl⟩ | ⟨t, ht, -⟩⟩
  · exact (h f hf).2 e he
  · simp [(h f hf).1] at ht

/-- The first check is clear: the pass lies above the table of L1, and it is the only one. -/
theorem clearCheck_claimL0 {t : State}
    (ht : run (step plainConfig) (State.init underClaims) (claimL0 2) = some t) :
    ClearCheck t (.check 0) := by
  intro job hjob
  have hfacts : (run (step plainConfig) (State.init underClaims) (claimL0 2)).all fun t =>
      (t.passes 0).all fun p => decide (p.job.target = 1 ∧
        (∀ f ∈ t.version.levels p.job.target, f.largest ≤ [97]) ∧
        ∀ f ∈ p.job.files, f.tombstones = [] ∧ ∀ e ∈ f.reader.entries, [97] ≤ e.userKey) := by
    decide +kernel
  simp only [ht, hjob, Option.all_some, decide_eq_true_eq] at hfacts
  obtain ⟨-, hlevel, hkeys⟩ := hfacts
  refine ⟨fun f hf _ => .inr fun k hk => (hlevel f hf).trans (above_of_entries hkeys k hk),
    fun i q hi hq => ?_⟩
  have hslots : ∀ a ∈ claimL0 2, a.slot? ≠ some i := by simp [claimL0, Action.slot?, hi.symm]
  have hframe : t.passes i = none :=
    run_frame (fun a ha s s' h => step_passes_of_ne (hslots a ha) h) ht
  rw [hq] at hframe
  cases hframe

/-- The second check is clear of the table of L1 and of the pass that is writing. -/
theorem clearCheck_claimBeside {t : State} (ht : run (step plainConfig) (State.init underClaims)
      (claimL0 2 ++ .check 0 :: claimBeside) = some t) : ClearCheck t (.check 1) := by
  intro job hjob
  have hfacts : (run (step plainConfig) (State.init underClaims)
      (claimL0 2 ++ .check 0 :: claimBeside)).all fun t =>
      (t.passes 0).all (fun p : Pass => decide (∀ f ∈ p.job.files, f.tombstones = [] ∧
        ∀ e ∈ f.reader.entries, [65] ≤ e.userKey)) &&
      (t.passes 1).all (fun p : Pass => decide (
        (∀ f ∈ t.version.levels p.job.target, [65] ≤ f.smallest) ∧
        ∀ f ∈ p.job.files, f.tombstones = [] ∧ ∀ e ∈ f.reader.entries, e.userKey < [65])) := by
    decide +kernel
  simp only [ht, hjob, Option.all_some, Bool.and_eq_true, decide_eq_true_eq] at hfacts
  obtain ⟨hfirst, hlevel, hkeys⟩ := hfacts
  have hbelow : job.Below [65] := below_of_entries hkeys
  refine ⟨fun f hf _ => .inl fun k hk => (hbelow k hk).trans_le (hlevel f hf),
    fun i q hi hq _ _ => ?_⟩
  by_cases hz : i = 0
  · rw [← hz, hq, Option.all_some, decide_eq_true_eq] at hfirst
    exact ⟨[65], .inl ⟨hbelow, above_of_entries hfirst⟩⟩
  · have hslots : ∀ a ∈ claimL0 2 ++ .check 0 :: claimBeside, a.slot? ≠ some i := by
      simp [claimL0, claimBeside, Action.slot?, Ne.symm hz, hi.symm]
    have hframe : t.passes i = none :=
      run_frame (fun a ha s s' h => step_passes_of_ne (hslots a ha) h) ht
    rw [hq] at hframe
    cases hframe

/-- Two passes with keys apart write L1 at once, beside a table that is there already. -/
def writeBeside : List Action := claimL0 2 ++ .check 0 :: claimBeside ++ .check 1 ::
  [.write 0 [] fun _ => ⟨4, 1⟩, .write 1 [] fun _ => ⟨5, 1⟩, .install 1, .install 0]

/-- Two passes that write L1 at once. -/
theorem findOverlap_eq_none_of_writeBeside :
    ∃ s, run (step plainConfig) (State.init underClaims) writeBeside = some s ∧
      (s.version.levels 1).map LiveSst.id = [5, 9, 4] ∧ s.version.findOverlap = none := by
  have hsome : (run (step plainConfig) (State.init underClaims) writeBeside).any fun s =>
      decide ((s.version.levels 1).map LiveSst.id = [5, 9, 4]) := by decide +kernel
  obtain ⟨s, hrun, hids⟩ := (Option.any_eq_true ..).mp hsome
  refine ⟨s, hrun, of_decide_eq_true hids,
    findOverlap_eq_none_of_clear_checks plainConfig (fun l f hf => ?_) (by decide) ?_ hrun⟩
  · by_cases hl : l = 1
    · simp only [underClaims, hl, if_true, mem_singleton] at hf
      rw [hf]
      exact sound_of_bounds (by decide)
    · simp [underClaims, hl] at hf
  · have hfirst : Along (step plainConfig) ClearCheck (State.init underClaims)
        (claimL0 2 ++ .check 0 :: claimBeside) :=
      along_append.mpr ⟨along_of_forall (by simp [claimL0, ClearCheck]) _, fun t ht =>
        ⟨clearCheck_claimL0 ht, fun t _ => along_of_forall (by simp [claimBeside, ClearCheck]) t⟩⟩
    exact along_append.mpr ⟨hfirst, fun t ht => ⟨clearCheck_claimBeside ht, fun t _ =>
      along_of_forall (by simp [ClearCheck]) t⟩⟩

/-- While it writes, a table flushed between its keys is taken down for its deletions. The
claims are disjoint, every pick sees the flags as they are, and the level is left with the
one output inside the other. -/
theorem findOverlap_of_two_passes : Version.new.findOverlap.isNone ∧
    (run (step plainConfig) (State.init .new) (claimL0 0 ++ [.check 0,
      .flush ⟨3, 1⟩ (sealedAt [deleteAt 109 5, deleteAt 110 6, putAt 111 7] 7),
      .pickDeletion 1 .now ⊤, .claim 1, .claim 1, .check 1,
      .write 1 [] fun _ => ⟨4, 1⟩, .install 1,
      .write 0 [] fun _ => ⟨5, 1⟩, .install 0])).any fun s => s.version.findOverlap.isSome := by
  decide +kernel

end Passes

end RegolithStore
