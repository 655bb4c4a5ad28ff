import RegolithStore.Lib.HostFile
import RegolithStore.Store.Table

/-! Staging an external table (`ingest.rs`, `block/stamp.rs`, `sstable/global_seq.rs`). The copy
is validated where it will be served from: sizes, column families, and each user key once, in
order. Installed, every entry and every range tombstone of it reads at the one sequence the
ingest drew: a stored key is read with that sequence in the place of its own. The copy or link
of the file, its sealing and the host's calls are left out. -/

namespace RegolithStore

open Lib List

variable {e : Entry} {k : Key}

/-- The entry as a table stamped with `seq` reads it: `stamp::swap` puts the stamp in the place
of the sequence in its key. -/
def Entry.readAt (seq : Seq) (e : Entry) : Entry := { e with seq }

def tombstonesAt (ts : List RangeTombstone) (seq : Seq) : List RangeTombstone :=
  ts.map fun t => { t with seq }

/-- `with_global_seq`, of a table that was ingested. -/
def SsTableReader.withGlobalSeq (r : SsTableReader) (seq : Seq) : SsTableReader where
  entries := r.entries.map (Entry.readAt seq)
  rangeTombstones := .fromVec (tombstonesAt r.rangeTombstones.tombstones seq)

/-- What the ingest asks of each key and value, and which errors are typed. -/
structure IngestChecks where
  validatePrefixedKeySize : Key → Except IoError Unit
  validateValueSize : Value → Except IoError Unit
  validateUserKey : Key → Except IoError Unit
  isTyped : IoError → Bool

namespace IngestChecks

variable (checks : IngestChecks) {last : Option Key} {es : List Entry}

/-- An error of staging names the source, unless it is typed. -/
def named (source : String) (e : IoError) : IoError :=
  if checks.isTyped e then e else ⟨e.kind, "ingest: " ++ source ++ ": " ++ e.message⟩

/-- The loop of `validate_entries`; `last` is the key of the entry before. -/
def validateEntries : Option Key → List Entry → Except IoError Unit
  | _, [] => .ok ()
  | last, e :: es => do
    checks.validatePrefixedKeySize e.userKey
    checks.validateValueSize e.value
    (checks.validateUserKey e.userKey).mapError fun err =>
      ⟨err.kind, "holds a key outside live column families: " ++ err.message⟩
    if last.any fun k => decide (e.userKey ≤ k) then
      .error ⟨.invalidInput, "holds more than one entry for a key, or keys out of order; " ++
        "an ingested file holds each key once, as SstFileWriter writes it"⟩
    else validateEntries (some e.userKey) es

def validateBound (source which : String) (bound : Key) : Except IoError Unit :=
  (checks.validatePrefixedKeySize bound >>= fun _ => checks.validateUserKey bound).mapError
    fun err =>
      ⟨err.kind, "ingest: " ++ source ++ " holds a range tombstone " ++ which ++
        " it cannot take: " ++ err.message⟩

/-- Only the bounds' keys are looked at: not their order, nor what the range covers. -/
def validateTombstones (source : String) (ts : List RangeTombstone) : Except IoError Unit :=
  ts.forM fun t => do
    checks.validateBound source "start" t.start
    checks.validateBound source "end" t.stop

theorem lt_of_validateEntries (h : checks.validateEntries last (e :: es) = .ok ()) :
    (∀ k ∈ last, k < e.userKey) ∧ checks.validateEntries (some e.userKey) es = .ok () := by
  simp only [validateEntries, bind, Except.bind] at h
  split at h
  · cases h
  split at h
  · cases h
  split at h
  · cases h
  split_ifs at h with hl
  refine ⟨fun k hk => ?_, h⟩
  have hk : last = some k := hk
  simpa [hk] using hl

theorem ascending_of_validateEntries (h : checks.validateEntries last es = .ok ()) :
    (∀ k ∈ last, ∀ e ∈ es, k < e.userKey) ∧ es.Pairwise fun a b => a.userKey < b.userKey := by
  induction es generalizing last with
  | nil => exact ⟨by simp, .nil⟩
  | cons e es ih =>
    obtain ⟨hl, hr⟩ := checks.lt_of_validateEntries h
    obtain ⟨hn, hasc⟩ := ih hr
    have hn := hn e.userKey rfl
    refine ⟨fun k hk => forall_mem_cons.mpr ⟨hl k hk, fun x hx => ?_⟩, .cons hn hasc⟩
    exact (hl k hk).trans (hn x hx)

end IngestChecks

/-- A table built outside the database. Its file has a `u64` of bytes, so its entries can be
counted in one. -/
structure ExternalTable where
  reader : SsTableReader
  fileSize : UInt64
  countable : reader.entries.length < 2 ^ 64

/-- A table in the table directory and validated, not yet in the version. -/
structure StagedTable where
  fileId : UInt64
  reader : SsTableReader
  smallest : Key
  largest : Key
  fileSize : UInt64
  numEntries : UInt64
  deletions : Deletions
  ascending : reader.entries.Pairwise fun a b => a.userKey < b.userKey
  range : tableKeyRange (pointRange reader.entries) reader.rangeTombstones.tombstones =
    some (smallest, largest)
  counted : numEntries.toNat = reader.entries.length

/-- The point deletions: every entry begins its key, and their sequence is filled in later. -/
def stagedDeletions (es : List Entry) : Deletions :=
  ((es.map (Entry.readAt 0)).foldl (fun c e => c.see e true)
    (DeletionCounter.hiddenBy (.fromVec []))).counted

/-- `stage`, of a file that could be copied and opened. -/
def stage (checks : IngestChecks) (source : String) (fileId : UInt64) (file : ExternalTable) :
    Except IoError StagedTable :=
  match hentries : checks.validateEntries none file.reader.entries with
  | .error e => .error (checks.named source e)
  | .ok () =>
    match checks.validateTombstones source file.reader.rangeTombstones.tombstones with
    | .error e => .error e
    | .ok () =>
      match hrange : tableKeyRange (pointRange file.reader.entries)
          file.reader.rangeTombstones.tombstones with
      | none => .error ⟨.invalidInput, "ingest: source file " ++ source ++ " is empty"⟩
      | some (smallest, largest) => .ok
          { fileId, smallest, largest
            reader := file.reader
            fileSize := file.fileSize
            numEntries := UInt64.ofNat file.reader.entries.length
            deletions := stagedDeletions file.reader.entries
            ascending := (checks.ascending_of_validateEntries hentries).2
            range := hrange
            counted := UInt64.toNat_ofNat_of_lt' file.countable }

namespace StagedTable

variable (t : StagedTable) (seq : Seq)

/-- The live table the install makes of it, at the sequence it drew. -/
def installed : LiveSst where
  sequenceCeiling := seq
  metadata :=
    { fileId := t.fileId
      smallestKey := t.smallest
      largestKey := t.largest
      fileSize := t.fileSize
      numEntries := t.numEntries
      globalSeq := some seq
      deletions := some { t.deletions with newestSeq := if 0 < t.deletions.points then seq else 0 } }
  reader := t.reader.withGlobalSeq seq

def Holds (k : Key) : Prop :=
  (∃ e ∈ t.reader.entries, e.userKey = k) ∨
    ∃ u ∈ t.reader.rangeTombstones.tombstones, u.Covers k

variable {t seq}

theorem mem_installed_entries : e ∈ (t.installed seq).reader.entries ↔
    ∃ x ∈ t.reader.entries, x.readAt seq = e := mem_map

theorem mem_installed_tombstones {u : RangeTombstone} : u ∈ (t.installed seq).tombstones ↔
    ∃ x ∈ t.reader.rangeTombstones.tombstones, { x with seq } = u :=
  RangeTombstoneSet.mem_fromVec.trans mem_map

theorem installed_holds : (t.installed seq).Holds k ↔ t.Holds k := by
  refine or_congr ?_ ?_
  · simp only [mem_installed_entries, exists_exists_and_eq_and]
    rfl
  · simp only [mem_installed_tombstones, exists_exists_and_eq_and]
    rfl

theorem installed_seq : (∀ e ∈ (t.installed seq).reader.entries, e.seq = seq) ∧
    ∀ u ∈ (t.installed seq).tombstones, u.seq = seq := by
  refine ⟨fun e he => ?_, fun u hu => ?_⟩
  · obtain ⟨x, -, rfl⟩ := mem_installed_entries.mp he
    rfl
  · obtain ⟨x, -, rfl⟩ := mem_installed_tombstones.mp hu
    rfl

theorem installed_ascending :
    (t.installed seq).reader.entries.Pairwise fun a b => a.userKey < b.userKey :=
  pairwise_map.mpr t.ascending

theorem installed_sorted : (t.installed seq).reader.entries.Pairwise Entry.Before :=
  installed_ascending.imp .inl

theorem within (hk : t.Holds k) : t.smallest ≤ k ∧ k ≤ t.largest := by
  obtain ⟨hp, hr⟩ := tableKeyRange_within t.range
  rcases hk with ⟨e, he, rfl⟩ | ⟨u, hu, hk⟩
  · have hne := ne_nil_of_mem he
    obtain ⟨h1, h2⟩ := hp _ (pointRange_eq_some hne)
    obtain ⟨h3, h4⟩ := userKey_bounds hne (t.ascending.imp .inl) he
    exact ⟨h1.trans h3, h4.trans h2⟩
  · obtain ⟨h1, h2⟩ := hr u hu
    exact ⟨h1.trans hk.1, hk.2.le.trans h2⟩

theorem ordered (hprop : ∀ u ∈ t.reader.rangeTombstones.tombstones, u.start < u.stop) :
    t.smallest ≤ t.largest := by
  obtain ⟨hpts, hr⟩ := tableKeyRange_within t.range
  rcases (tableKeyRange_attained t.range).1 with ⟨p, hp, -⟩ | ⟨u, hu, -⟩
  · have hne : t.reader.entries ≠ [] := by
      rintro hnil
      simp [hnil, pointRange] at hp
    obtain ⟨h1, h2⟩ := t.within (.inl ⟨_, head_mem hne, rfl⟩)
    exact h1.trans h2
  · obtain ⟨h1, h2⟩ := hr u hu
    exact h1.trans ((hprop u hu).le.trans h2)

theorem installed_sound (hp : ∀ u ∈ t.reader.rangeTombstones.tombstones, u.start < u.stop) :
    (t.installed seq).Sound :=
  ⟨t.ordered hp, installed_sorted, fun _ hk => t.within (installed_holds.mp hk)⟩

end StagedTable

end RegolithStore
