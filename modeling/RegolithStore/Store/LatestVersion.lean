import RegolithStore.Store.SourceWalk

/-! The newest version of a key (`latest_version_bounded`): the newest entry at or below a
ceiling, of any kind, unless a range tombstone over the key outranks it. -/

namespace RegolithStore

open Lib List

variable {rt q : Seq}

inductive WriteKind
  | put
  | delete
  | merge
  | rangeDelete
  deriving DecidableEq

def WriteKind.isDeletion : WriteKind → Bool
  | delete | rangeDelete => true
  | put | merge => false

def ValueType.writeKind : ValueType → WriteKind
  | deletion => .delete
  | value => .put
  | merge => .merge

namespace ReadView

variable (view : ReadView) (k : Key) (ceil : Seq) (floor : Option Seq)

/-- Nothing a table holds can be above `floor`. -/
def skipsTables : Bool := floor.any fun f => decide (view.version.lastSeq ≤ f)

/-- What is looked up at one source: a table is left out where nothing in the tables can be
above the floor. -/
def latestIn : Source → List Entry
  | .memtable m => (Source.memtable m).visible k ceil
  | .table f => if view.skipsTables floor then [] else (Source.table f).visible k ceil

/-- A tombstone that outranks the newest entry stands in for it. -/
def latestVisit (maxRtSeq : Seq) (_ : Unit) (s : Source) :
    Except (Seq × WriteKind) Unit :=
  match (view.latestIn k ceil floor s).head? with
  | some e => .error (if e.seq < maxRtSeq then (maxRtSeq, .rangeDelete)
      else (e.seq, e.valueType.writeKind))
  | none => .ok ()

def latestVersionBounded : Option (Seq × WriteKind) :=
  match view.walkNewestFirst k ceil (view.latestVisit k ceil floor) () with
  | .error version => some version
  | .ok ((), maxRtSeq) => if 0 < maxRtSeq then some (maxRtSeq, .rangeDelete) else none

def latestVersionUpto : Option (Seq × WriteKind) := view.latestVersionBounded k ceil none

def latestVersionInView : Option (Seq × WriteKind) := view.latestVersionUpto k ⊤

def latestVersionAfter (floor : Seq) : Option (Seq × WriteKind) :=
  (view.latestVersionBounded k ⊤ (some floor)).filter fun v => decide (floor < v.1)

end ReadView

/-- The newest of the entries under the tombstone `rt`. -/
def newestOf (rt : Seq) : List Entry → Option (Seq × WriteKind)
  | [] => if 0 < rt then some (rt, .rangeDelete) else none
  | e :: _ => some (if e.seq < rt then (rt, .rangeDelete) else (e.seq, e.valueType.writeKind))

private theorem filter_newestOf_append {floor : Seq} (es : List Entry) {older : List Entry}
    (h : ∀ e ∈ older, e.seq ≤ floor) :
    (newestOf rt (es ++ older)).filter (fun v => decide (floor < v.1)) =
      (newestOf rt es).filter fun v => decide (floor < v.1) := by
  rcases es with _ | ⟨e, es⟩
  · rcases older with _ | ⟨e, older⟩
    · rfl
    have he : e.seq ≤ floor := h e mem_cons_self
    rw [nil_append, newestOf, newestOf]
    by_cases hrt : e.seq < rt
    · rw [if_pos hrt, if_pos (Seq.pos_of_lt hrt)]
    · have hle : rt ≤ floor := (not_lt.mp hrt).trans he
      split_ifs <;> simp [Option.filter, not_lt.mpr he, not_lt.mpr hle]
  · rfl

/-- Something is above `q` when the newest is. -/
theorem exists_newestOf {es : List Entry} (h : es.Pairwise fun a b => b.seq < a.seq) :
    (∃ v ∈ newestOf rt es, q < v.1) ↔ q < rt ∨ ∃ e ∈ es, q < e.seq := by
  rcases es with _ | ⟨e, es⟩
  · rw [newestOf]
    split_ifs with hrt
    · simp
    · have hle : ¬ q < rt := fun hq => hrt (Seq.pos_of_lt hq)
      simp [hle]
  · have hn : (∃ e' ∈ e :: es, q < e'.seq) ↔ q < e.seq := by
      refine ⟨fun ⟨e', he', hq⟩ => ?_, fun hq => ⟨e, mem_cons_self, hq⟩⟩
      rcases mem_cons.mp he' with rfl | he'
      · exact hq
      · exact hq.trans ((pairwise_cons.mp h).1 e' he')
    rw [newestOf, hn]
    split_ifs with hrt
    · simp only [Option.mem_some_iff, exists_eq_left']
      exact ⟨.inl, fun hq => hq.elim id fun hq => hq.trans hrt⟩
    · simp only [Option.mem_some_iff, exists_eq_left']
      exact ⟨.inr, fun hq => hq.elim (fun hq => hq.trans_le (not_lt.mp hrt)) id⟩

namespace ReadView

variable {view : ReadView} {k : Key} {ceil floor : Seq} {lo hi : Seq}

private def latestStep (m : Seq) (_ : Unit) (e : Entry) : Except (Seq × WriteKind) Unit :=
  .error (if e.seq < m then (m, .rangeDelete) else (e.seq, e.valueType.writeKind))

private theorem latestStep_steady : Steady Entry.seq latestStep := fun m m' s e h h' => by
  rw [latestStep, latestStep, if_neg (lt_asymm h), if_neg (lt_asymm h')]

private theorem latestVisit_eq (floor : Option Seq) (m : Seq) (u : Unit) (s : Source) :
    view.latestVisit k ceil floor m u s = (view.latestIn k ceil floor s).foldlM (latestStep m) u := by
  rw [latestVisit]
  cases view.latestIn k ceil floor s <;> rfl

theorem latestIn_subset (floor : Option Seq) (s : Source) :
    view.latestIn k ceil floor s ⊆ s.visible k ceil := by
  cases s with
  | memtable m => exact List.Subset.refl _
  | table f =>
    rw [latestIn]
    split_ifs
    · exact nil_subset _
    · exact List.Subset.refl _

theorem LsmOrdered.latestVersionBounded_eq (h : view.LsmOrdered) (floor : Option Seq) :
    view.latestVersionBounded k ceil floor = newestOf (view.coveringSeq k ceil)
      (view.sources.flatMap (view.latestIn k ceil floor)) := by
  rw [latestVersionBounded, h.walkNewestFirst_eq (latestVisit_eq floor) latestStep_steady
    (latestIn_subset floor)]
  cases view.sources.flatMap (view.latestIn k ceil floor) <;> rfl

theorem LsmOrdered.latestVersionUpto_eq (h : view.LsmOrdered) :
    view.latestVersionUpto k ceil = newestOf (view.coveringSeq k ceil) (view.visible k ceil) := by
  have hall : view.latestIn k ceil none = fun s => s.visible k ceil := by
    funext s
    cases s <;> rfl
  rw [latestVersionUpto, h.latestVersionBounded_eq, hall, visible]

/-- Nothing a table holds is above the `last_seq` of its version. -/
def TablesWithin (view : ReadView) : Prop :=
  ∀ f ∈ view.version.tables, (∀ e ∈ f.reader.entries, e.seq ≤ view.version.lastSeq) ∧
    ∀ t ∈ f.tombstones, t.seq ≤ view.version.lastSeq

instance : Decidable view.TablesWithin :=
  inferInstanceAs (Decidable (∀ f ∈ view.version.tables, _ ∧ _))

/-- Leaving the tables out changes no answer above the floor. -/
theorem LsmOrdered.latestVersionAfter_eq (h : view.LsmOrdered) (hw : view.TablesWithin) :
    view.latestVersionAfter k floor =
      (view.latestVersionInView k).filter fun v => decide (floor < v.1) := by
  rw [latestVersionAfter, latestVersionInView, h.latestVersionUpto_eq, h.latestVersionBounded_eq,
    visible, sources, flatMap_append, flatMap_append, flatMap_map, flatMap_map,
    flatMap_map, flatMap_map]
  by_cases hskip : view.skipsTables (some floor)
  · have hflr : view.version.lastSeq ≤ floor := by simpa [skipsTables] using hskip
    have hn : (view.version.tables.flatMap fun f =>
        view.latestIn k ⊤ (some floor) (.table f)) = [] := by
      simp [latestIn, hskip]
    rw [hn, append_nil, filter_newestOf_append]
    · rfl
    intro e he
    obtain ⟨f, hf, he⟩ := mem_flatMap.mp he
    exact ((hw f hf).1 e (Source.mem_visible.mp he).1).trans hflr
  · have hall : (fun f => view.latestIn k ⊤ (some floor) (.table f)) =
        fun f => (Source.table f).visible k ⊤ := by
      funext f
      rw [latestIn, if_neg hskip]
    rw [hall]
    rfl

/-- A version of `k` in `(lo, hi]`: an entry, or a tombstone over the key. -/
def Touched (view : ReadView) (k : Key) (lo hi : Seq) : Prop :=
  ∃ s ∈ view.sources, (∃ e ∈ s.entries, e.userKey = k ∧ lo < e.seq ∧ e.seq ≤ hi) ∨
    ∃ t ∈ s.tombstones, t.Covers k ∧ lo < t.seq ∧ t.seq ≤ hi

theorem touched_iff :
    view.Touched k lo hi ↔ lo < view.coveringSeq k hi ∨ ∃ e ∈ view.visible k hi, lo < e.seq := by
  simp only [Touched, lt_coveringSeq, mem_visible]
  constructor
  · rintro ⟨s, hs, ⟨e, he, hk, hlo, hhi⟩ | ⟨t, ht, hk, hlo, hhi⟩⟩
    · exact .inr ⟨e, ⟨⟨s, hs, he⟩, hk, hhi⟩, hlo⟩
    · exact .inl ⟨s, hs, t, ht, hhi, hk, hlo⟩
  · rintro (⟨s, hs, t, ht, hhi, hk, hlo⟩ | ⟨e, ⟨⟨s, hs, he⟩, hk, hhi⟩, hlo⟩)
    · exact ⟨s, hs, .inr ⟨t, ht, hk, hlo, hhi⟩⟩
    · exact ⟨s, hs, .inl ⟨e, he, hk, hlo, hhi⟩⟩

theorem LsmOrdered.latestVersionUpto_gt (h : view.LsmOrdered) :
    (∃ v ∈ view.latestVersionUpto k ceil, q < v.1) ↔ view.Touched k q ceil := by
  rw [h.latestVersionUpto_eq, exists_newestOf h.visible_descending, touched_iff]

theorem source_visible_of_not_touched (hle : lo ≤ hi) (h : ¬ view.Touched k lo hi) {s : Source}
    (hs : s ∈ view.sources) : s.visible k hi = s.visible k lo := by
  refine filter_congr fun e he => decide_eq_decide.mpr ⟨fun hhi => ?_, fun hlo => hlo.trans hle⟩
  obtain ⟨he, hk⟩ := Source.mem_entriesOf.mp he
  exact not_lt.mp fun hlo => h ⟨s, hs, .inl ⟨e, he, hk, hlo, hhi⟩⟩

theorem visible_of_not_touched (hle : lo ≤ hi) (h : ¬ view.Touched k lo hi) :
    view.visible k hi = view.visible k lo :=
  flatMap_congr fun _ hs => source_visible_of_not_touched hle h hs

theorem coveringSeq_of_not_touched (hle : lo ≤ hi) (h : ¬ view.Touched k lo hi) :
    view.coveringSeq k hi = view.coveringSeq k lo := by
  refine le_antisymm (coveringSeq_le.mpr fun s hs t ht hhi hk => ?_)
    (coveringSeq_le.mpr fun s hs t ht hlo hk => ?_)
  · have hlo : t.seq ≤ lo := not_lt.mp fun hlo => h ⟨s, hs, .inr ⟨t, ht, hk, hlo, hhi⟩⟩
    exact coveringSeq_le.mp le_rfl s hs t ht hlo hk
  · exact coveringSeq_le.mp le_rfl s hs t ht (hlo.trans hle) hk

end ReadView

end RegolithStore
