import RegolithStore.Compaction.Placement

/-! What each picker takes is closed: a job is a pass down that drags everything older it must, a
rewrite of one table in place, or a merge of neighbours in L0. The closing of the L0 inputs is a
loop, which ends because a round that goes on marks one more table. -/

namespace RegolithStore

open Lib List

variable {m : List Bool} {grow : List Bool → List Bool} {P : List Bool → Prop}
  {start stop : Option Key}

theorem count_true_lt {l l' : List Bool} (hlen : l.length = l'.length)
    (hle : ∀ i : Nat, l[i]? = some true → l'[i]? = some true) (hne : l' ≠ l) :
    l.count true < l'.count true := by
  induction l generalizing l' with
  | nil => exact absurd (length_eq_zero_iff.mp hlen.symm) hne
  | cons a l ih =>
    cases l' with
    | nil => simp at hlen
    | cons b l' =>
      have hab : a = true → b = true := by simpa using hle 0
      have htail : ∀ i : Nat, l[i]? = some true → l'[i]? = some true := fun i => by
        simpa using hle (i + 1)
      by_cases heq : l' = l
      · subst heq
        cases a <;> cases b <;> simp_all
      · have hlt := ih (by simpa using hlen) htail heq
        rw [count_cons, count_cons]
        cases a with
        | false => exact Nat.lt_of_lt_of_le (by simpa using hlt) (Nat.le_add_right _ _)
        | true =>
          rw [hab rfl]
          exact Nat.add_lt_add_right hlt _

theorem growUntilStable_keeps
    (hg : ∀ m, P m → P (grow m)) (n : Nat) (hm : P m) : P (growUntilStable grow n m) := by
  induction n generalizing m with
  | zero => exact hm
  | succ n ih =>
    rw [growUntilStable]
    split_ifs
    · exact hm
    · exact ih (hg m hm)

/-- With as many rounds as there are marks to set, the loop ends stable. -/
theorem growUntilStable_stable {len : Nat} (hlen : ∀ m, m.length = len → (grow m).length = len)
    (hle : ∀ m, m.length = len → ∀ i : Nat, m[i]? = some true → (grow m)[i]? = some true) {n : Nat}
    (hm : m.length = len) (hn : len ≤ m.count true + n) : grow (growUntilStable grow n m) =
    growUntilStable grow n m := by
  have hlt : ∀ m, m.length = len → grow m ≠ m → m.count true < (grow m).count true :=
    fun m hm hne => count_true_lt (hm.trans (hlen m hm).symm) (hle m hm) hne
  induction n generalizing m with
  | zero =>
    by_contra hne
    have hc := hlt m hm hne
    have hmax := count_le_length (a := true) (l := grow m)
    rw [hlen m hm] at hmax
    omega
  | succ n ih =>
    rw [growUntilStable]
    split_ifs with hstab
    · exact hstab
    · have := hlt m hm hstab
      exact ih (hlen m hm) (by omega)

variable {files : List LiveSst} {newest : Nat} {f : LiveSst}

variable (hm : m.length = files.length)

include hm

variable (newest) in
theorem getElem?_growL0 {range : Key × Key} (hr : keyRange (picked files m) = some range)
    (i : Nat) : (growL0 files newest m)[i]? = (files[i]?).bind fun f => (m[i]?).map fun b =>
      b || decide (i < newest) && fileOverlapsRange f (some range.1) (some (succBytes range.2)) := by
  simp only [growL0, hr, getElem?_mapIdx]
  cases hf : files[i]? with
  | none =>
    have : (files.zip m)[i]? = none := by simp_all
    simp [this]
  | some f =>
    obtain ⟨b, hb⟩ : ∃ b, m[i]? = some b := by
      have := (List.getElem?_eq_some_iff.mp hf).1
      exact ⟨_, List.getElem?_eq_getElem (hm ▸ this)⟩
    rw [(getElem?_zip_eq_some (z := (f, b))).mpr ⟨hf, hb⟩, hb]
    rfl

theorem length_growL0 : (growL0 files newest m).length = files.length := by
  unfold growL0
  split
  · exact hm
  · simp [hm]

theorem growL0_le (i : Nat) (hi : m[i]? = some true) : (growL0 files newest m)[i]? = some true := by
  cases hr : keyRange (picked files m) with
  | none => simpa [growL0, hr] using hi
  | some range =>
    obtain ⟨f, hf⟩ : ∃ f, files[i]? = some f := by
      have := (List.getElem?_eq_some_iff.mp hi).1
      exact ⟨_, List.getElem?_eq_getElem (hm ▸ this)⟩
    rw [getElem?_growL0 newest hm hr, hf, hi]
    simp

theorem growL0_newest (hnew : ∀ i : Nat, newest < i → m[i]? ≠ some true) :
    ∀ i : Nat, newest < i → (growL0 files newest m)[i]? ≠ some true := by
  intro i hi
  cases hr : keyRange (picked files m) with
  | none => simpa [growL0, hr] using hnew i hi
  | some range =>
    rw [getElem?_growL0 newest hm hr, decide_eq_false (by omega)]
    have := hnew i hi
    cases hf : files[i]? <;> cases hb : m[i]? <;> simp_all

omit hm

theorem mem_picked : f ∈ picked files m ↔ ∃ i : Nat, files[i]? = some f ∧ m[i]? = some true := by
  simp only [picked, mem_map, mem_filter]
  constructor
  · rintro ⟨p, ⟨hp, hmark⟩, rfl⟩
    obtain ⟨i, hi⟩ := getElem?_of_mem hp
    obtain ⟨h1, h2⟩ := getElem?_zip_eq_some.mp hi
    exact ⟨i, h1, hmark ▸ h2⟩
  · rintro ⟨i, h1, h2⟩
    exact ⟨(f, true), ⟨mem_of_getElem? ((getElem?_zip_eq_some).mpr ⟨h1, h2⟩), rfl⟩, rfl⟩

theorem fileOverlapsRange_iff : fileOverlapsRange f start stop = true ↔
    (∀ s ∈ start, s ≤ f.largest) ∧ ∀ e ∈ stop, f.smallest < e := by
  cases start <;> cases stop <;> simp [fileOverlapsRange]

def LiveSst.Meets (f g : LiveSst) : Prop := f.smallest ≤ g.largest ∧ g.smallest ≤ f.largest

/-- Once a round marks nothing more, an older table left out meets none of those taken. -/
theorem not_meets_of_stable {g : LiveSst} {i : Nat} (hm : m.length = files.length)
    (hstab : growL0 files newest m = m) (hf : files[i]? = some f) (hi : i < newest)
    (hmark : m[i]? ≠ some true) (hg : g ∈ picked files m) : ¬ f.Meets g := by
  intro hmeet
  obtain ⟨range, hr⟩ := keyRange_isSome (ne_nil_of_mem hg)
  have hw := keyRange_within hr g hg
  have ho : fileOverlapsRange f (some range.1) (some (succBytes range.2)) = true := by
    simp only [fileOverlapsRange_iff, Option.mem_some_iff, forall_eq', lt_succBytes_iff]
    exact ⟨hw.1.trans hmeet.2, hmeet.1.trans hw.2⟩
  have hlt := (List.getElem?_eq_some_iff.mp hf).1
  have hgrown := getElem?_growL0 newest hm hr i
  rw [hstab, hf, getElem?_eq_getElem (hm ▸ hlt)] at hgrown
  rw [getElem?_eq_getElem (hm ▸ hlt), hgrown] at hmark
  simp [ho, hi] at hmark

variable (files) in
/-- The loop ends with marks that its rounds reach. -/
theorem exists_l0Inputs_marks (start stop : Option Key)
    (hg : ∀ newest m, m.length = files.length → P m → P (growL0 files newest m))
    (hs : P (files.map fun f => fileOverlapsRange f start stop)) :
    ∃ newest m, l0Inputs files start stop = picked files m ∧ m.length = files.length ∧
      growL0 files newest m = m ∧ (∀ i : Nat, newest < i → m[i]? ≠ some true) ∧
      (picked files m = [] ∨
        ∃ f, files[newest]? = some f ∧ fileOverlapsRange f start stop = true) ∧ P m := by
  unfold l0Inputs
  dsimp only
  cases hnewest : (files.map fun f => fileOverlapsRange f start stop).reverse.idxOf? true with
  | none =>
    have hn : ∀ i : Nat, (files.map fun f => fileOverlapsRange f start stop)[i]? ≠ some true :=
      fun i hi => idxOf?_eq_none_iff.mp hnewest (mem_reverse.mpr (mem_of_getElem? hi))
    have hnil : picked files (files.map fun f => fileOverlapsRange f start stop) = [] :=
      eq_nil_iff_forall_not_mem.mpr fun f hf =>
        have ⟨i, _, hmark⟩ := mem_picked.mp hf
        hn i hmark
    exact ⟨0, _, hnil.symm, length_map _, by rw [growL0, hnil]; rfl, fun i _ => hn i, .inl hnil, hs⟩
  | some fromEnd =>
    have hlen : (files.map fun f => fileOverlapsRange f start stop).length = files.length :=
      length_map _
    obtain ⟨hlt, hmark, hlater⟩ := idxOf?_eq_some_iff.mp hnewest
    rw [getElem_reverse] at hmark
    rw [length_reverse] at hlt
    have hmeet := List.getElem?_eq_some_iff.mpr ⟨by omega, hmark⟩
    rw [getElem?_map, Option.map_eq_some_iff] at hmeet
    generalize files.map (fun f => fileOverlapsRange f start stop) = marks at *
    have hnew : ∀ i : Nat, marks.length - 1 - fromEnd < i → marks[i]? ≠ some true := by
      intro i hi htrue
      obtain ⟨him, heq⟩ := List.getElem?_eq_some_iff.mp htrue
      refine hlater (marks.length - 1 - i) (by omega) ?_
      rw [getElem_reverse]
      convert heq using 2
      omega
    have hk := growUntilStable_keeps (P := fun m => m.length = files.length ∧
        (∀ i : Nat, marks.length - 1 - fromEnd < i → m[i]? ≠ some true) ∧ P m)
      (fun m hm => ⟨length_growL0 hm.1, growL0_newest hm.1 hm.2.1, hg _ m hm.1 hm.2.2⟩)
      files.length ⟨hlen, hnew, hs⟩
    exact ⟨_, _, rfl, hk.1, growUntilStable_stable (fun m hm => length_growL0 hm)
      (fun m hm => growL0_le hm) hlen (Nat.le_add_left _ _), hk.2.1, .inr hmeet, hk.2.2⟩

/-- With a table of a key goes every older one. -/
theorem l0Inputs_drags (hnodup : files.Nodup) (hs : ∀ f ∈ files, f.Sound)
    (start stop : Option Key) (k : Key) : (holders k files.reverse).Pairwise fun a b =>
      a ∈ l0Inputs files start stop → b ∈ l0Inputs files start stop := by
  obtain ⟨newest, m, h, hlen, hstab, hnew, -⟩ := exists_l0Inputs_marks files
    (P := fun _ => True) start stop (fun _ _ _ _ => trivial) trivial
  rw [h]
  have hpw : files.reverse.Pairwise fun a b =>
      a.Holds k → b.Holds k → a ∈ picked files m → b ∈ picked files m := by
    refine pairwise_reverse.mpr (pairwise_iff_getElem.mpr ?_)
    intro i j hi hj hij ha hb hpicked
    obtain ⟨j', hj', hmark⟩ := mem_picked.mp hpicked
    obtain ⟨hj'', heq⟩ := List.getElem?_eq_some_iff.mp hj'
    obtain rfl : j' = j := (hnodup.getElem_inj_iff).mp heq
    have hle : j' ≤ newest := not_lt.mp fun hlt => hnew j' hlt hmark
    have hak := (hs _ (getElem_mem hj)).within k ha
    have hbk := (hs _ (getElem_mem hi)).within k hb
    -- it meets one that is taken, and the loop has ended
    by_contra hleft
    refine not_meets_of_stable hlen hstab (getElem?_eq_getElem hi) (by omega) (fun hmark => ?_)
      hpicked ⟨hbk.1.trans hak.2, hak.1.trans hbk.2⟩
    exact hleft (mem_picked.mpr ⟨i, getElem?_eq_getElem hi, hmark⟩)
  exact (hpw.sublist filter_sublist).imp_of_mem fun ha hb hab =>
    hab (of_decide_eq_true (mem_filter.mp ha).2) (of_decide_eq_true (mem_filter.mp hb).2)

section Pickers

variable {v : Version} {job : Job} (hv : v.Laid) {runs : List LiveSst} {level : Nat}
  {o : UniversalCompactionOptions}

include hv

theorem drags_of_deeper (h1 : 1 ≤ level) (h2 : level < maxLevels) (inputs : List LiveSst)
    (k : Key) : (holders k (v.layer level)).Pairwise fun a b => a ∈ inputs → b ∈ inputs := by
  rw [Version.layer, if_neg (Nat.one_le_iff_ne_zero.mp h1)]
  exact Job.holders_pairwise (hv.holds_pairwise h1 h2 k) _

theorem drags_of_l0Inputs (start stop : Option Key) (k : Key) :
    (holders k (v.layer 0)).Pairwise fun a b =>
      a ∈ l0Inputs (v.levels 0) start stop → b ∈ l0Inputs (v.levels 0) start stop :=
  l0Inputs_drags (.of_map _ (hv.ids 0)) (hv.sound 0) start stop k

theorem pickSize_push {held : LiveSst → Bool} (h : pickSize v held level = .ok job) :
    job.Push v := by
  obtain ⟨inputs, minKey, maxKey, hl, hi, hr, rfl⟩ := pickSize_eq_ok h
  refine ⟨rfl, hl, fun f hf => mem_of_mem_sizeInputs hi hf, by simp [hr], fun k => ?_⟩
  rcases Nat.eq_zero_or_pos level with rfl | hpos
  · have hall : inputs = v.levels 0 := by
      unfold sizeInputs at hi
      split_ifs at hi
      · exact (Option.some.inj hi).symm
      · exact absurd rfl ‹_›
    subst hall
    refine List.Pairwise.imp_of_mem (fun ha hb _ _ => ?_) (pairwise_of_forall fun _ _ => trivial)
    exact Version.mem_layer.mp (mem_of_mem_filter hb)
  · exact drags_of_deeper hv hpos (Nat.lt_of_succ_lt hl) inputs k

theorem levelJob_shape (hl : level < maxLevels) (hf : f ∈ v.levels level) :
    (levelJob v level f).Push v ∨ (levelJob v level f).Reseal v := by
  have hmax : maxLevels = 7 := rfl
  unfold levelJob
  split_ifs with hbottom
  · exact .inr ⟨rfl, show 1 ≤ level by omega, hl, rfl, f, hf, rfl⟩
  · refine .inl ⟨rfl, show level + 1 < maxLevels by omega,
      fun g hg => mem_of_mem_levelInputs hf hg, rfl, fun k => ?_⟩
    rcases Nat.eq_zero_or_pos level with rfl | hpos
    · exact drags_of_l0Inputs hv _ _ k
    · exact drags_of_deeper hv hpos hl _ k

theorem pickRange_push (hl : level + 1 < maxLevels)
    (h : pickRange v level start stop = some job) : job.Push v := by
  obtain ⟨range, hr, rfl⟩ := Option.map_eq_some_iff.mp h
  refine ⟨rfl, hl, fun f hf => ?_, by simp [hr], fun k => ?_⟩
  · unfold rangeInputs at hf
    split_ifs at hf with hz
    · exact hz ▸ mem_of_mem_l0Inputs hf
    · exact mem_of_find?_eq_some (Option.mem_toList.mp hf)
  · rcases Nat.eq_zero_or_pos level with rfl | hpos
    · exact drags_of_l0Inputs hv start stop k
    · exact drags_of_deeper hv hpos (Nat.lt_of_succ_lt hl) _ k

omit hv

theorem sizeRatioGroup_prefix (o : UniversalCompactionOptions) (group : List LiveSst) (size : Nat)
    (fs : List LiveSst) : ∃ taken rest, fs = taken ++ rest ∧
      sizeRatioGroup o group size fs = group ++ taken := by
  induction fs generalizing group size with
  | nil => exact ⟨[], [], rfl, by simp [sizeRatioGroup]⟩
  | cons f fs ih =>
    rw [sizeRatioGroup]
    split_ifs with hw he hratio
    · exact ⟨[], _, rfl, by simp⟩
    · obtain ⟨taken, rest, rfl, heq⟩ := ih [f] f.metadata.fileSize.toNat
      exact ⟨f :: taken, rest, rfl, by simp [heq, isEmpty_iff.mp he]⟩
    · obtain ⟨taken, rest, rfl, heq⟩ := ih (group ++ [f]) (size + f.metadata.fileSize.toNat)
      exact ⟨f :: taken, rest, rfl, by simp [heq]⟩
    · exact ⟨[], _, rfl, by simp⟩

theorem universalJob_merge {runs older newest : List LiveSst} (hne : runs ≠ [])
    (h : v.levels 0 = older ++ newest) (hmem : ∀ f, f ∈ runs ↔ f ∈ newest) :
    (universalJob runs).Merge v older newest [] := by
  refine ⟨rfl, rfl, rfl, by simpa using h, ?_, hmem⟩
  rintro rfl
  exact hne (eq_nil_iff_forall_not_mem.mpr fun f hf => by simpa using (hmem f).mp hf)

theorem pickUniversalSize_newest (h : pickUniversalSize o v = some runs) :
    2 ≤ runs.length ∧ ∃ older, v.levels 0 = older ++ runs.reverse := by
  unfold pickUniversalSize at h
  dsimp only at h
  split_ifs at h with hc hw
  · obtain ⟨taken, rest, hrev, hgroup⟩ := sizeRatioGroup_prefix o [] 0 (v.levels 0).reverse
    rw [hgroup, nil_append] at hw h
    cases h
    refine ⟨(Nat.le_max_right _ _).trans hw, rest.reverse, ?_⟩
    rw [← reverse_append, ← hrev, reverse_reverse]
  · split at h
    · cases h
    · rename_i oldest younger hl0
      split_ifs at h
      cases h
      exact ⟨not_lt.mp hc, [], by simp⟩

theorem pickUniversalSize_merge (h : pickUniversalSize o v = some runs) :
    ∃ older newest, (universalJob runs).Merge v older newest [] := by
  obtain ⟨hc, older, hl0⟩ := pickUniversalSize_newest h
  refine ⟨older, runs.reverse, universalJob_merge ?_ hl0 fun f => by simp⟩
  rintro rfl
  simp at hc

/-- What it picks are neighbours of L0. -/
theorem pickUniversal_merge {oldestLive : Seq} {sizeIn : SizeInRange}
    (h : pickUniversal v oldestLive sizeIn = some runs) :
    ∃ older newest, (universalJob runs).Merge v older newest [] := by
  unfold pickUniversal at h
  dsimp only at h
  split_ifs at h
  split at h
  · rename_i only hl0
    split_ifs at h
    cases h
    exact ⟨[], [only], universalJob_merge (by simp) (by simpa using hl0) fun f => Iff.rfl⟩
  · obtain ⟨width, hw, h⟩ := exists_of_findSome?_eq_some h
    split_ifs at h
    cases h
    rw [mem_drop_range] at hw
    refine ⟨(v.levels 0).take ((v.levels 0).length - width), _, universalJob_merge ?_
      (take_append_drop _ _).symm fun f => Iff.rfl⟩
    rw [ne_eq, drop_eq_nil_iff]
    omega

include hv

/-- Every job a picker takes is a pass down, a rewrite in place, or a merge inside L0. -/
theorem Picked.shape (h : Picked v job) :
    job.Push v ∨ job.Reseal v ∨ ∃ older block newer, job.Merge v older block newer := by
  cases h with
  | size h => exact .inl (pickSize_push hv h)
  | deletion h =>
    obtain ⟨level, hl, f, hf, -, rfl⟩ := pickLevel_eq_some h
    exact (levelJob_shape hv hl hf).imp id .inl
  | range hl h => exact .inl (pickRange_push hv hl h)
  | universalSize h =>
    obtain ⟨older, newest, h⟩ := pickUniversalSize_merge h
    exact .inr (.inr ⟨older, newest, [], h⟩)
  | universalDeletion h =>
    obtain ⟨older, newest, h⟩ := pickUniversal_merge h
    exact .inr (.inr ⟨older, newest, [], h⟩)
  | universalFull h =>
    have hne : v.levels 0 ≠ [] := by
      rintro hnil
      simp [hnil] at h
    exact .inr (.inr ⟨[], _, [], universalJob_merge hne rfl fun f => Iff.rfl⟩)
  | reseal hl hf =>
    rename_i level f
    rcases Nat.eq_zero_or_pos level with rfl | hpos
    · obtain ⟨older, newer, hl0⟩ := append_of_mem hf
      exact .inr (.inr ⟨older, [f], newer, rfl, rfl, rfl, hl0, by simp, fun g => by simp [resealJob]⟩)
    · exact .inr (.inl ⟨rfl, hpos, hl, rfl, f, hf, rfl⟩)

end Pickers

end RegolithStore
