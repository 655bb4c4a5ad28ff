import RegolithStore.Flush.Flusher
import RegolithStore.Lib.Leveled

/-! The sources of a published view. A memtable leaves the frozen list in the publication that
brings its table, so no view holds both, nor two tables of one memtable, unless a rewrite of the
manifest fails after a flush's edit was installed: the table is then published beside its
memtable, and the next flush writes a second one. -/

namespace RegolithStore

open Lib List ManifestRecord VersionSet Version
open Option (some.inj)

variable {v : Version} {id : UInt64}

theorem Version.mem_listedIds :
    id ∈ v.listedIds ↔ ∃ level < maxLevels, ∃ f ∈ v.levels level, f.id = id := by
  rw [listedIds, mem_map]
  constructor
  · rintro ⟨p, hp, rfl⟩
    obtain ⟨hl, hf⟩ := mem_leveled.mp (show p ∈ leveled v.levels maxLevels from hp)
    exact ⟨p.1, hl, p.2, hf, rfl⟩
  · rintro ⟨level, hl, f, hf, rfl⟩
    exact ⟨(level, f), mem_leveled.mpr ⟨hl, hf⟩, rfl⟩

theorem Version.mem_listedIds_addFile {f : LiveSst} :
    id ∈ (v.addFile 0 f).listedIds ↔ id ∈ v.listedIds ∨ id = f.id := by
  simp only [mem_listedIds, mem_addFile]
  constructor
  · rintro ⟨level, hl, g, hg | ⟨-, rfl⟩, rfl⟩
    · exact .inl ⟨level, hl, g, hg, rfl⟩
    · exact .inr rfl
  · rintro (⟨level, hl, g, hg, rfl⟩ | rfl)
    · exact ⟨level, hl, g, .inl hg, rfl⟩
    · exact ⟨0, by decide, f, .inr ⟨rfl, rfl⟩, rfl⟩

variable {calls : ApplyCalls} {edits : List VersionEdit}

namespace VersionSet

variable {checks : ManifestChecks} {vs vs' : VersionSet}

/-- No rewrite of the manifest fails once the batch is installed. -/
def RewriteHolds (checks : ManifestChecks) (vs : VersionSet) (edits : List VersionEdit)
    (calls : ApplyCalls) : Prop :=
  ∀ installed, vs.logged checks edits calls = some installed →
    installed.rewriteDue (vs.unlogged ≠ []) = true → ¬ installed.RewriteFails checks calls.rewrite

theorem current_apply (vs : VersionSet) (edits : List VersionEdit) (calls : ApplyCalls) :
    (vs.apply checks edits calls).2.current = vs.current ∨
      (vs.apply checks edits calls).2.current = vs.current.applyEdits edits := by
  cases hlog : vs.logged checks edits calls with
  | none => exact .inl (apply_of_logged_none hlog).2.1
  | some installed =>
    obtain ⟨hcur, -, heq⟩ := apply_of_logged hlog
    rw [heq]
    split_ifs
    · exact .inr ((current_compactManifest _ _).trans hcur)
    · exact .inr hcur

theorem current_of_apply_ok (h : vs.apply checks edits calls = (.ok (), vs')) :
    vs'.current = vs.current.applyEdits edits := by
  cases hlog : vs.logged checks edits calls with
  | none =>
    obtain ⟨⟨e, he⟩, -⟩ := apply_of_logged_none hlog
    rw [h] at he
    cases he
  | some installed =>
    obtain ⟨hcur, -, heq⟩ := apply_of_logged hlog
    rw [heq] at h
    split_ifs at h
    · have hcomp := @current_compactManifest checks installed calls.rewrite
      rw [h] at hcomp
      exact hcomp.trans hcur
    · exact (Prod.mk.inj h).2 ▸ hcur

theorem RewriteHolds.current_of_apply_error {e : IoError} (hrew : vs.RewriteHolds checks edits calls)
    (h : vs.apply checks edits calls = (.error e, vs')) : vs'.current = vs.current := by
  cases hlog : vs.logged checks edits calls with
  | none =>
    have := (apply_of_logged_none hlog).2.1
    rwa [h] at this
  | some installed =>
    obtain ⟨-, hw, heq⟩ := apply_of_logged hlog
    rw [heq] at h
    split_ifs at h with hdue
    · have hok := (@compactManifest_ok_iff checks installed hw calls.rewrite).mpr
        (hrew installed hlog hdue)
      rw [h] at hok
      cases hok
    · cases h

end VersionSet

namespace FlushStore

variable {checks : ManifestChecks} {s s' : FlushStore} {memtable : MemTable} {versions : VersionSet}
  {table : LiveSst} {fileId : UInt64} {seq : Seq}

/-- What holds between the steps of flushes that no failed rewrite cut short. -/
structure Inv (s : FlushStore) : Prop where
  version : s.view.version = s.versions.current
  active_lt : s.view.active.identity < s.nextIdentity
  frozen : ∀ m ∈ s.view.frozen, m.identity < s.nextIdentity ∧ m.identity ≠ s.view.active.identity
  listed_lt : ∀ id ∈ s.versions.current.listedIds, id < s.versions.current.nextFileId
  taken_lt : ∀ p ∈ s.taken, p.1 < s.versions.current.nextFileId ∧ p.2 < s.nextIdentity
  taken_eq : ∀ id m m', (id, m) ∈ s.taken → (id, m') ∈ s.taken → m = m'
  job : ∀ j, s.job = some j → (∃ m ∈ s.view.frozen, m.identity = j.memtable.identity) ∧
    ∀ id, j.fileId = some id → (id, j.memtable.identity) ∈ s.taken ∧
      id ∉ s.versions.current.listedIds ∧ ∀ table, j.table = some table → table.id = id
  listed : ∀ id identity, (id, identity) ∈ s.taken → id ∈ s.versions.current.listedIds →
    (∀ m ∈ s.view.frozen, m.identity ≠ identity) ∧ s.view.active.identity ≠ identity
  unique : ∀ id id' identity, (id, identity) ∈ s.taken → (id', identity) ∈ s.taken →
    id ∈ s.versions.current.listedIds → id' ∈ s.versions.current.listedIds → id = id'

variable (h : s.Inv)

include h

theorem Inv.disjoint : s.Disjoint := by
  constructor
  · intro m hm p hp ht
    rw [h.version] at hp
    exact (h.listed _ _ ht (mem_map_of_mem hp)).1 m hm rfl
  · intro p hp q hq identity htp htq
    rw [h.version] at hp hq
    exact h.unique _ _ identity htp htq (mem_map_of_mem hp) (mem_map_of_mem hq)

/-- A step of a flush that leaves the version's tables and next id, and may retire memtables
and drop the job. -/
theorem Inv.shrink {frozen : List MemTable} {job : Option FlushJob}
    (hf : ∀ m ∈ frozen, m ∈ s.view.frozen) (hjob : job = none) :
    Inv { s with view := { s.view with frozen }, job } := by
  refine ⟨h.version, h.active_lt, fun m hm => h.frozen m (hf m hm), h.listed_lt, h.taken_lt,
    h.taken_eq, ?_, fun id identity ht hl => ?_, h.unique⟩
  · rintro j hj
    rw [hjob] at hj
    cases hj
  · obtain ⟨hno, ha⟩ := h.listed id identity ht hl
    exact ⟨fun m hm => hno m (hf m hm), ha⟩

theorem Inv.retire (memtable : MemTable) :
    Inv { s with view := s.view.retireMemtable memtable, job := none } :=
  h.shrink (fun _ hm => (mem_filter.mp hm).1) rfl

theorem Inv.endSection (hl : ∀ id ∈ versions.current.listedIds, id < versions.current.nextFileId ∧
      (id ∈ s.taken.map Prod.fst → id ∈ s.versions.current.listedIds))
    (hn : s.versions.current.nextFileId ≤ versions.current.nextFileId) :
    (s.endSection versions none).Inv := by
  have hold : ∀ {id identity}, (id, identity) ∈ s.taken → id ∈ versions.current.listedIds →
      id ∈ s.versions.current.listedIds := fun htkn hid =>
    (hl _ hid).2 (mem_map.mpr ⟨_, htkn, rfl⟩)
  refine ⟨rfl, h.active_lt, h.frozen, fun id hid => (hl id hid).1, fun p hp =>
    ⟨lt_of_lt_of_le (h.taken_lt p hp).1 hn, (h.taken_lt p hp).2⟩, h.taken_eq, fun j hj => ?_,
    fun id identity htkn hid => h.listed id identity htkn (hold htkn hid),
    fun id id' identity ht ht' hid hid' => h.unique id id' identity ht ht' (hold ht hid)
      (hold ht' hid')⟩
  obtain ⟨hf, hids⟩ := h.job j hj
  refine ⟨hf, fun id hid => ?_⟩
  obtain ⟨htkn, hno, htable⟩ := hids id hid
  exact ⟨htkn, fun hnew => hno (hold htkn hnew), htable⟩

theorem Inv.endSection_same (hs : versions.current = s.versions.current) :
    (s.endSection versions none).Inv := by
  refine h.endSection (fun id hid => ?_) (by rw [hs])
  rw [hs] at hid ⊢
  exact ⟨h.listed_lt id hid, fun _ => hid⟩

theorem Inv.dropJob : Inv { s with job := none } :=
  h.shrink (fun _ hm => hm) rfl

theorem Inv.write (entries : List Entry) (ts : List RangeTombstone) :
    Inv { s with view := { s.view with
      active := { s.view.active with entries, rangeTombstones := ts } } } :=
  ⟨h.version, h.active_lt, h.frozen, h.listed_lt, h.taken_lt, h.taken_eq, h.job, h.listed, h.unique⟩

theorem Inv.rotate (seq : Seq) (wal : Option UInt64) :
    Inv { s with
      view := s.view.rotate seq wal (.new s.nextIdentity), nextIdentity := s.nextIdentity + 1 } := by
  refine ⟨h.version, Nat.lt_succ_self _, fun m hm => ?_, h.listed_lt, fun p hp =>
    ⟨(h.taken_lt p hp).1, Nat.lt_succ_of_lt (h.taken_lt p hp).2⟩, h.taken_eq, fun j hj => ?_,
    fun id identity ht hl => ?_, h.unique⟩
  · rcases mem_append.mp hm with hm | hm
    · have := (h.frozen m hm).1
      exact ⟨Nat.lt_succ_of_lt this, Nat.ne_of_lt this⟩
    · rw [mem_singleton.mp hm]
      exact ⟨Nat.lt_succ_of_lt h.active_lt, Nat.ne_of_lt h.active_lt⟩
  · obtain ⟨⟨m, hm, hid⟩, hids⟩ := h.job j hj
    exact ⟨⟨m, mem_append_left _ hm, hid⟩, hids⟩
  · obtain ⟨hno, ha⟩ := h.listed id identity ht hl
    refine ⟨fun m hm => ?_, Nat.ne_of_gt (h.taken_lt _ ht).2⟩
    rcases mem_append.mp hm with hm | hm
    · exact hno m hm
    · rw [mem_singleton.mp hm]
      exact ha

theorem Inv.begin (hjob : s.job = none) : s.begin.Inv := by
  rw [FlushStore.begin]
  cases hh : s.view.frozen.head? with
  | none => exact h
  | some memtable =>
    have hmem : memtable ∈ s.view.frozen := mem_of_mem_head? hh
    dsimp only
    split_ifs
    · have := h.retire memtable
      rwa [← hjob] at this
    · refine ⟨h.version, h.active_lt, h.frozen, h.listed_lt, h.taken_lt, h.taken_eq, ?_, h.listed,
        h.unique⟩
      rintro j ⟨⟩
      exact ⟨⟨memtable, hmem, rfl⟩, by simp⟩

/-- The id a flush takes is new to every table. -/
theorem Inv.takeFileId (hjob : ∃ j, s.job = some j ∧ j.memtable = memtable)
    (hl : s.versions.current.nextFileId ≠ ⊤) (calls : ApplyCalls) :
    (s.takeFileId checks memtable calls).Inv := by
  have hup : s.versions.current.nextFileId < s.versions.current.nextFileId + 1 :=
    UInt64.lt_add_one hl
  have hsection : ∀ versions : VersionSet, versions.current = s.versions.current ∨
      versions.current = s.versions.current.applyEdits
        [.setNextFileId (s.versions.current.nextFileId + 1)] →
      (s.endSection versions none).Inv := by
    rintro versions (hs | hset)
    · exact h.endSection_same hs
    · refine h.endSection (fun id hid => ?_) ?_
      · rw [hset] at hid ⊢
        exact ⟨lt_trans (h.listed_lt id hid) hup, fun _ => hid⟩
      · rw [hset]
        exact hup.le
  have hcur := @current_apply checks s.versions
    [.setNextFileId (s.versions.current.nextFileId + 1)] calls
  rw [FlushStore.takeFileId]
  rcases ha : s.versions.apply checks [.setNextFileId (s.versions.current.nextFileId + 1)] calls
    with ⟨_ | _, versions⟩ <;> rw [ha] at hcur <;> simp only
  · exact (hsection versions hcur).dropJob
  · have hset := current_of_apply_ok ha
    have hinv := hsection versions (.inr hset)
    have hn : versions.current.nextFileId = s.versions.current.nextFileId + 1 := by
      rw [hset]
      rfl
    have hfr : ∀ identity, (s.versions.current.nextFileId, identity) ∉ s.taken := fun _ htkn =>
      lt_irrefl _ (h.taken_lt _ htkn).1
    have hids : versions.current.listedIds = s.versions.current.listedIds := by
      rw [hset]
      rfl
    have hunl : s.versions.current.nextFileId ∉ versions.current.listedIds := by
      rw [hids]
      exact fun hid => lt_irrefl _ (h.listed_lt _ hid)
    obtain ⟨j, hj, rfl⟩ := hjob
    obtain ⟨⟨m, hm, hid⟩, -⟩ := h.job j hj
    refine ⟨hinv.version, hinv.active_lt, hinv.frozen, hinv.listed_lt, ?_, ?_, ?_, ?_, ?_⟩
    · rintro p (_ | ⟨_, hp⟩)
      · exact ⟨hn ▸ hup, hid ▸ (h.frozen m hm).1⟩
      · exact hinv.taken_lt p hp
    · rintro id m₁ m₂ (_ | ⟨_, h1⟩) (_ | ⟨_, h2⟩)
      · rfl
      · exact absurd h2 (hfr m₂)
      · exact absurd h1 (hfr m₁)
      · exact h.taken_eq id m₁ m₂ h1 h2
    · rintro j' ⟨⟩
      refine ⟨⟨m, hm, hid⟩, ?_⟩
      rintro id ⟨⟩
      exact ⟨mem_cons_self, hunl, by simp⟩
    · rintro id identity (_ | ⟨_, htkn⟩) hlst
      · exact absurd hlst hunl
      · exact hinv.listed id identity htkn hlst
    · rintro id id' identity (_ | ⟨_, ht⟩) (_ | ⟨_, ht'⟩) hid hid'
      · rfl
      · exact absurd hid hunl
      · exact absurd hid' hunl
      · exact hinv.unique id id' identity ht ht' hid hid'

theorem Inv.writeTable (hjob : s.job = some ⟨memtable, some fileId, none⟩)
    (written : Except IoError UInt64) : (s.writeTable memtable fileId written).Inv := by
  cases written with
  | error e => exact h.dropJob
  | ok fileSize =>
    simp only [FlushStore.writeTable]
    cases htable : memtable.flushTable ⟨fileId, fileSize⟩ with
    | none => exact h.retire memtable
    | some table =>
      refine ⟨h.version, h.active_lt, h.frozen, h.listed_lt, h.taken_lt, h.taken_eq, ?_, h.listed,
        h.unique⟩
      rintro j ⟨⟩
      obtain ⟨hf, hids⟩ := h.job _ hjob
      obtain ⟨ht, hno, -⟩ := hids fileId rfl
      refine ⟨hf, ?_⟩
      rintro id ⟨⟩
      refine ⟨ht, hno, ?_⟩
      rintro _ ⟨⟩
      obtain ⟨summary, -, rfl⟩ := Option.map_eq_some_iff.mp htable
      rfl

omit h

theorem mem_listedIds_flushEdits : id ∈ (v.applyEdits (memtable.flushEdits table seq)).listedIds ↔
      id ∈ v.listedIds ∨ id = table.id := by
  rw [← mem_listedIds_addFile, mem_listedIds, mem_listedIds, memtable.levels_flushEdits]
  rfl

/-- Table in and memtable out in one publication. -/
theorem Inv.installed (h : s.Inv) (hjob : s.job = some ⟨memtable, some fileId, some table⟩)
    (hcur : versions.current = s.versions.current.applyEdits (memtable.flushEdits table seq)) :
    Inv { s.endSection versions (some memtable) with job := none } := by
  obtain ⟨⟨m, hm, hid⟩, hids⟩ := h.job _ hjob
  obtain ⟨htkn, hno, htable⟩ := hids fileId rfl
  have htableId := htable table rfl
  have hn : versions.current.nextFileId = s.versions.current.nextFileId := by
    rw [hcur, MemTable.flushEdits]
    cases memtable.sealedWal <;> rfl
  have hlst : ∀ id, id ∈ versions.current.listedIds ↔
      id ∈ s.versions.current.listedIds ∨ id = fileId := by
    intro id
    rw [hcur, mem_listedIds_flushEdits, htableId]
  have hf : ∀ m' ∈ (s.view.publishVersion versions.current (some memtable)).frozen,
      m' ∈ s.view.frozen ∧ m'.identity ≠ memtable.identity := fun m' hm' => by
    simpa using mem_filter.mp hm'
  -- A memtable with a listed table is gone from the frozen list: another cannot come from it.
  have ho : ∀ id, (id, memtable.identity) ∈ s.taken → id ∉ s.versions.current.listedIds :=
    fun id ht hid' => (h.listed id _ ht hid').1 m hm hid
  refine ⟨rfl, h.active_lt, fun m' hm' => h.frozen m' (hf m' hm').1, fun id hid' => ?_,
    fun p hp => ?_, h.taken_eq, by simp, fun id identity ht hid' => ?_,
    fun id id' identity ht ht' hl hl' => ?_⟩
  · show id < versions.current.nextFileId
    rw [hn]
    rcases (hlst id).mp hid' with hid' | rfl
    · exact h.listed_lt id hid'
    · exact (h.taken_lt _ htkn).1
  · exact ⟨lt_of_lt_of_eq (h.taken_lt p hp).1 hn.symm, (h.taken_lt p hp).2⟩
  · rcases (hlst id).mp hid' with hold | rfl
    · obtain ⟨hgone, ha⟩ := h.listed id identity ht hold
      exact ⟨fun m' hm' => hgone m' (hf m' hm').1, ha⟩
    · obtain rfl := h.taken_eq id _ _ ht htkn
      exact ⟨fun m' hm' => (hf m' hm').2, fun heq => (h.frozen m hm).2 (hid.trans heq.symm)⟩
  · rcases (hlst id).mp hl with hl | rfl <;> rcases (hlst id').mp hl' with hl' | rfl
    · exact h.unique id id' identity ht ht' hl hl'
    · obtain rfl := h.taken_eq id' _ _ ht' htkn
      exact absurd hl (ho id ht)
    · obtain rfl := h.taken_eq id _ _ ht htkn
      exact absurd hl' (ho id' ht')
    · rfl

/-- What the section of a flush publishes: nothing, or its table, with the memtable retired or
left. -/
theorem Inv.view_install (h : s.Inv) (calls : ApplyCalls) :
    (s.install checks memtable table calls).view = s.view ∨
      ∃ seq, memtable.sealedSeq = some seq ∧ ∃ retired : Bool,
        (s.install checks memtable table calls).view =
          s.view.installFlush memtable table seq (if retired then some memtable else none) := by
  rw [FlushStore.install]
  cases hseq : memtable.sealedSeq with
  | none => exact .inl rfl
  | some seq =>
    have hcur := @current_apply checks s.versions (memtable.flushEdits table seq) calls
    rcases ha : s.versions.apply checks (memtable.flushEdits table seq) calls with
      ⟨e | _, versions⟩ <;> simp only [ha] at hcur ⊢
    · rcases hcur with hs | hset
      · refine .inl (show s.view.publishVersion versions.current none = s.view from ?_)
        rw [hs, ← h.version]
        rfl
      · refine .inr ⟨seq, rfl, false, show s.view.publishVersion versions.current none = _ from ?_⟩
        rw [hset, ← h.version]
        rfl
    · refine .inr ⟨seq, rfl, true, show s.view.publishVersion versions.current memtable = _ from ?_⟩
      rw [current_of_apply_ok ha, ← h.version]
      rfl

/-- Where the flush under way installs its table, no rewrite of the manifest fails after the
edit is installed. -/
def RewriteHolds (checks : ManifestChecks) (s : FlushStore) : FlushOp → Prop
  | .install calls => ∀ memtable fileId table seq,
      s.job = some ⟨memtable, some fileId, some table⟩ → memtable.sealedSeq = some seq →
        s.versions.RewriteHolds checks (memtable.flushEdits table seq) calls
  | _ => True

theorem Inv.install (h : s.Inv) (hjob : s.job = some ⟨memtable, some fileId, some table⟩) (hrew : RewriteHolds checks s (.install calls)) :
    (s.install checks memtable table calls).Inv := by
  rw [FlushStore.install]
  cases hseq : memtable.sealedSeq with
  | none => exact h.dropJob
  | some seq =>
    have hh := hrew memtable fileId table seq hjob hseq
    rcases ha : s.versions.apply checks (memtable.flushEdits table seq) calls with
      ⟨e | _, versions⟩ <;> simp only [ha]
    · exact (h.endSection_same (hh.current_of_apply_error ha)).dropJob
    · exact h.installed hjob (current_of_apply_ok ha)

theorem Inv.section (h : s.Inv) (hallows : s.allows edits = true)
    (calls : ApplyCalls) : (s.endSection (s.versions.apply checks edits calls).2 none).Inv := by
  rcases @current_apply checks s.versions edits calls with hs | hset
  · exact h.endSection_same hs
  · simp only [allows, Bool.and_eq_true, decide_eq_true_eq, all_eq_true] at hallows
    refine h.endSection (fun id hid => ?_) (by rw [hset]; exact hallows.1)
    rw [hset] at hid ⊢
    obtain ⟨hlt, hl⟩ := hallows.2 id hid
    refine ⟨hlt, fun ht => ?_⟩
    simpa [contains_iff_mem, ht] using hl

/-- Every step but a failed rewrite keeps the invariant. -/
theorem Inv.step (h : s.Inv) {op : FlushOp} (hrew : RewriteHolds checks s op)
    (hs : s.step checks op = some s') : s'.Inv := by
  cases op with
  | write entries ts => exact some.inj hs ▸ h.write entries ts
  | rotate seq wal => exact some.inj hs ▸ h.rotate seq wal
  | begin =>
    simp only [FlushStore.step] at hs
    split_ifs at hs with hjob
    exact some.inj hs ▸ h.begin (Option.isNone_iff_eq_none.mp hjob)
  | takeFileId calls =>
    simp only [FlushStore.step] at hs
    split at hs
    · rename_i memtable table hjob
      split_ifs at hs with hl
      exact some.inj hs ▸ h.takeFileId ⟨_, hjob, rfl⟩ hl calls
    · cases hs
  | writeTable written =>
    simp only [FlushStore.step] at hs
    split at hs
    · rename_i memtable fileId hjob
      exact some.inj hs ▸ h.writeTable hjob written
    · cases hs
  | install calls =>
    simp only [FlushStore.step] at hs
    split at hs
    · rename_i memtable fileId table hjob
      exact some.inj hs ▸ h.install hjob hrew
    · cases hs
  | «section» edits calls =>
    simp only [FlushStore.step] at hs
    split_ifs at hs with hallows
    exact some.inj hs ▸ h.section hallows calls

theorem inv_opened (active : MemTable)
    (h : ∀ id ∈ versions.current.listedIds, id < versions.current.nextFileId) :
    (opened versions active).Inv :=
  ⟨rfl, Nat.lt_succ_self _, nofun, h,
    nofun, nofun,
    fun _ hj => (Option.some_ne_none _ hj.symm).elim, nofun,
    nofun⟩

/-- In every run of a store just opened in which no rewrite of the manifest fails after a
flush's edit was installed, the sources of every view published are disjoint. -/
theorem disjoint_of_run {versions : VersionSet} {active : MemTable} {ops : List FlushOp}
    (hopened : ∀ id ∈ versions.current.listedIds, id < versions.current.nextFileId)
    (hrewrites : Along (step checks) (RewriteHolds checks) (opened versions active) ops)
    (hrun : run (step checks) (opened versions active) ops = some s) : s.Disjoint :=
  (run_invariant (fun _ _ _ hinv hC hstep => Inv.step hinv hC hstep)
    (inv_opened active hopened) hrewrites hrun).disjoint

/-! A flush of one memtable, step by step. -/

def shortFlush : List FlushOp :=
  [.write [⟨[107], 1, .value, [1]⟩] [], .rotate 1 none, .begin,
    .takeFileId ⟨sampleAeadNonce, none, none, sampleRename⟩,
    .writeTable (.ok 100)]

def shortCalls : ApplyCalls :=
  ⟨sampleAeadNonce, none, none, sampleRename⟩

def sampleOpened : FlushStore :=
  opened (create sampleManifestChecks "MANIFEST" sampleDir none
    sampleSalt) (.new 0)

def shortMemtable : MemTable := ⟨0, [⟨[107], 1, .value, [1]⟩], [], some 1, none⟩

def shortTable : LiveSst :=
  ⟨1, ⟨1, [107], [107], 100, 1, none, some ⟨0, 0, 0⟩⟩, ⟨[⟨[107], 1, .value, [1]⟩], .fromVec []⟩⟩

def shortWritten : FlushStore :=
  (run (step sampleManifestChecks) sampleOpened shortFlush).getD sampleOpened

/-- A memtable flushed without a rewrite. -/
theorem disjoint_of_short_flush : ∃ s, run (step sampleManifestChecks) sampleOpened
        (shortFlush ++ [.install shortCalls]) = some s ∧
      s.view.version.listedIds = [1] ∧ s.view.frozen.map MemTable.identity = [] ∧ s.Disjoint := by
  have hbef : run (step sampleManifestChecks) sampleOpened shortFlush =
    some shortWritten := rfl
  have hjob : shortWritten.job = some ⟨shortMemtable, some 1, some shortTable⟩ := rfl
  have hnotDue : (shortWritten.versions.logged sampleManifestChecks
      (shortMemtable.flushEdits shortTable 1) shortCalls).all
        (fun installed => !installed.rewriteDue (shortWritten.versions.unlogged ≠ [])) = true := by
    decide +kernel
  have hrewrites : Along (step sampleManifestChecks)
      (RewriteHolds sampleManifestChecks) sampleOpened
        (shortFlush ++ [.install shortCalls]) := by
    refine along_append.mpr ⟨⟨trivial, fun _ _ => ⟨trivial, fun _ _ => ⟨trivial, fun _ _ =>
      ⟨trivial, fun _ _ => ⟨trivial, fun _ _ => trivial⟩⟩⟩⟩⟩, fun t ht => ?_⟩
    obtain rfl := Option.mem_unique hbef ht
    refine ⟨fun memtable fileId table seq hj hseq installed hlog hdue => ?_, fun _ _ => trivial⟩
    rw [hjob, Option.some.injEq, FlushJob.mk.injEq] at hj
    obtain ⟨rfl, -, htable⟩ := hj
    cases htable
    obtain rfl : 1 = seq := some.inj hseq
    rw [hlog, Option.all_some, hdue] at hnotDue
    cases hnotDue
  have hrun : (run (step sampleManifestChecks) sampleOpened
      (shortFlush ++ [.install shortCalls])).map (fun s => (s.view.version.listedIds,
        s.view.frozen.map MemTable.identity)) = some ([1], []) := by
    decide +kernel
  obtain ⟨s, hrun, hview⟩ := Option.map_eq_some_iff.mp hrun
  exact ⟨s, hrun, (Prod.mk.inj hview).1, (Prod.mk.inj hview).2,
    disjoint_of_run (fun _ h => absurd h not_mem_nil) hrewrites hrun⟩

/-- When the rewrite fails after the flush's edit was installed, the view published next holds
the memtable and its table. -/
theorem not_disjoint_of_failed_rewrite {installed : VersionSet} (hf : memtable ∈ s.view.frozen)
    (ht : (table.id, memtable.identity) ∈ s.taken) (hseq : memtable.sealedSeq = some seq)
    (hlog : s.versions.logged checks (memtable.flushEdits table seq) calls = some installed)
    (hdue : installed.rewriteDue (s.versions.unlogged ≠ []) = true)
    (hfails : installed.RewriteFails checks calls.rewrite) : ¬
    (s.install checks memtable table calls).Disjoint := by
  obtain ⟨hcur, hw, heq⟩ := VersionSet.apply_of_logged hlog
  rw [if_pos hdue] at heq
  have hv := @VersionSet.current_compactManifest checks installed calls.rewrite
  rcases hcomp : installed.compactManifest checks calls.rewrite with ⟨e | _, versions⟩
  · rw [hcomp] at heq hv
    simp only [FlushStore.install, hseq, heq]
    rintro ⟨hno, -⟩
    have hl : table.id ∈ versions.current.listedIds := by
      rw [hv, hcur, mem_listedIds_flushEdits]
      exact .inr rfl
    obtain ⟨p, hp, hid⟩ := mem_map.mp hl
    exact hno memtable hf p hp (hid ▸ ht)
  · have hok : (installed.compactManifest checks calls.rewrite).1 = .ok () := by rw [hcomp]
    exact absurd hfails ((VersionSet.compactManifest_ok_iff hw calls.rewrite).mp hok)

/-! A memtable holds one value under a long key. The record of its table takes the manifest
past the size it is rewritten at, and the temporary file of the rewrite fails. -/

-- Stated of any table: the kernel would look into the long key.
theorem length_tableRecords {f : SsTableMeta} (hs : f.smallestKey.length = 33000)
    (hl : f.largestKey.length = 33000) (hg : f.globalSeq = none) :
    (encodeAll [.addFile 0 f, .tableCounts 1 ⟨0, 0, 0⟩, .setLastSeq 1]).length = 66079 := by
  simp [encodeAll, encode, encodeBytes, hs, hl, hg]

def longKey : Key := List.replicate 33000 97

def longFlush : List FlushOp :=
  [.write [⟨longKey, 1, .value, [1]⟩] [], .rotate 1 none, .begin,
    .takeFileId ⟨sampleAeadNonce, none, none, sampleRename⟩,
    .writeTable (.ok 33100)]

def longCalls : ApplyCalls :=
  ⟨sampleAeadNonce, none, none,
    { sampleRename with temporary := some ⟨.other, "no space"⟩ }⟩

def longMemtable : MemTable := ⟨0, [⟨longKey, 1, .value, [1]⟩], [], some 1, none⟩

def longTable : LiveSst :=
  ⟨1, ⟨1, longKey, longKey, 33100, 1, none, some ⟨0, 0, 0⟩⟩,
    ⟨[⟨longKey, 1, .value, [1]⟩], .fromVec []⟩⟩

def longWritten : FlushStore :=
  (run (step sampleManifestChecks) sampleOpened longFlush).getD sampleOpened

/-- A key long enough that the flush rewrites the manifest. -/
theorem not_disjoint_of_long_key :
    ∃ s, run (step sampleManifestChecks) sampleOpened (longFlush ++ [.install longCalls]) =
      some s ∧ ¬ s.Disjoint := by
  have hrun : run (step sampleManifestChecks) sampleOpened longFlush = some longWritten :=
    rfl
  have hjob : longWritten.job = some ⟨longMemtable, some 1, some longTable⟩ := rfl
  have hrecs : longWritten.versions.batchRecords (longMemtable.flushEdits longTable 1) =
      [.addFile 0 longTable.metadata, .tableCounts 1 ⟨0, 0, 0⟩, .setLastSeq 1] := rfl
  have hlen : (encodeAll (longWritten.versions.batchRecords
      (longMemtable.flushEdits longTable 1))).length = 66079 := by
    rw [hrecs]
    exact length_tableRecords length_replicate length_replicate rfl
  obtain ⟨installed, hlog, hbyt⟩ := @exists_logged_of_plain
    sampleManifestChecks longWritten.versions (longMemtable.flushEdits longTable 1)
    longCalls rfl (by simp [hrecs]) rfl (by omega) rfl rfl rfl
  have hdue : installed.rewriteDue (longWritten.versions.unlogged ≠ []) = true := by
    have htbl : installed.current.listedTables.length = 1 := by
      rw [(VersionSet.apply_of_logged hlog).1]
      rfl
    have hold : longWritten.versions.manifestBytes = 30 := rfl
    rw [hlen, hold] at hbyt
    rw [rewriteDue, htbl, hbyt, Bool.or_eq_true]
    exact .inr (by decide)
  refine ⟨longWritten.install sampleManifestChecks longMemtable longTable longCalls, ?_,
    not_disjoint_of_failed_rewrite mem_cons_self mem_cons_self rfl hlog hdue
      (rewriteFails_of_temporary rfl)⟩
  rw [run_append]
  refine ⟨longWritten, hrun, ?_⟩
  rw [run_cons]
  exact ⟨_, by simp only [step, hjob], rfl⟩

end FlushStore

end RegolithStore
