import RegolithStore.Commit.PipelineSound
import RegolithStore.Txn.Session

/-! Reading under the lock. Where every writer of a key holds its lock until its commit is
visible, a `get_for_update` served at a horizon sampled under the lock is served the newest
published value. One served at the begin snapshot is not: the lock was taken by a write, since
rolled back, and the key had been read before. -/

namespace RegolithStore

open Lib List Function ReadView Transaction Option

namespace Session

/-- Other writers write `k` only while they hold its lock. -/
def LockDisciplined (k : Key) (s : Session) : SessionAction → Prop
  | .commit writer ops => (∃ op ∈ ops, op.writesKey k) → writer.isSome ∧ s.locks k = writer
  | .begin _ | .get _ | .getForUpdate _ | .write _ | .lock .. | .unlock .. | .publish
  | .compact .. => True

instance (k : Key) (s : Session) (a : SessionAction) : Decidable (s.LockDisciplined k a) := by
  cases a <;> unfold LockDisciplined <;> infer_instance

/-- A `get_for_update` of `k` under a lock already held finds the key unread, or read for
update before. -/
def NotReadPlainly (k : Key) (s : Session) : SessionAction → Prop
  | .getForUpdate key => prefixKey defaultCfId key = k → ∀ t ∈ s.txn, k ∈ t.heldLocks →
      ∀ state ∈ t.tracked k, state.forUpdate = true
  | .begin _ | .get _ | .write _ | .lock .. | .unlock .. | .commit .. | .publish
  | .compact .. => True

instance (k : Key) (s : Session) (a : SessionAction) : Decidable (s.NotReadPlainly k a) := by
  cases a <;> unfold NotReadPlainly <;> infer_instance

/-- A pass leaves an ordered view, whose versions of `k` are no newer than those there were. -/
def PassesKeep (k : Key) (s : Session) : SessionAction → Prop
  | .compact _ view => view.LsmOrdered ∧ view.Below s.next ∧
      ∀ lo, view.Touched k lo ⊤ → s.view.Touched k lo ⊤
  | _ => True

/-- What the lock of `k` guards. -/
structure Guarded (k : Key) (s : Session) : Prop where
  ordered : s.Ordered
  unpublished : ∀ w, s.view.Has w → w.Of k → s.horizon < w.seq →
    ∃ p ∈ s.pending, w.seq ≤ p.last ∧ ∃ op ∈ p.ops, op.writesKey k
  owned : ∀ p ∈ s.pending, (∃ op ∈ p.ops, op.writesKey k) →
    ∃ owner, owner ≠ 0 ∧ p.writer = some owner ∧ s.locks k = some owner
  held : ∀ t, s.txn = some t → k ∈ t.heldLocks → s.locks k = some 0
  current : ∀ t, s.txn = some t → ∀ state, t.tracked k = some state → state.forUpdate = true →
    s.locks k = some 0 ∧ ¬ s.view.Touched k state.readSeq ⊤
  reads : ∀ rd ∈ s.reads, rd.key = k → rd.forUpdate = true → rd.answer = rd.newest

section Guarded

variable {k : Key} {s s' : Session} {op : Option MergeOperator} {t : Transaction} {key : Key}
  {p : PendingCommit}

theorem Guarded.not_touched (h : s.Guarded k) (hl : s.Lockable k) :
    ¬ s.view.Touched k s.horizon ⊤ := by
  rw [touched_iff_written]
  rintro ⟨w, hw, hk, hlt, -⟩
  obtain ⟨p, hp, -, hws⟩ := h.unpublished w hw hk hlt
  obtain ⟨owner, hne, -, howner⟩ := h.owned p hp hws
  rcases hl with hl | hl <;> rw [hl] at howner
  · cases howner
  · exact hne (some.inj howner).symm

theorem Guarded.not_owned (h : s.Guarded k) (hl : s.Lockable k)
    (hp : p ∈ s.pending) : ¬ ∃ op ∈ p.ops, op.writesKey k := fun hws => by
  obtain ⟨owner, hne, -, howner⟩ := h.owned p hp hws
  rcases hl with hl | hl <;> rw [hl] at howner
  · cases howner
  · exact hne (some.inj howner).symm

theorem not_touched_of_le {view : ReadView} {lo lo' : Seq} (h : ¬ view.Touched k lo ⊤)
    (hle : lo ≤ lo') : ¬ view.Touched k lo' ⊤ := by
  rw [touched_iff_written] at h ⊢
  exact fun ⟨w, hw, hk, hlt, htop⟩ => h ⟨w, hw, hk, hle.trans_lt hlt, htop⟩

section

variable (h : s.Guarded k)

include h

theorem Guarded.take (hl : s.Lockable key) {t' : Transaction}
    (hw : t'.Within s.horizon) (hh : k ∈ t'.heldLocks → k = key ∨ s.locks k = some 0)
    (hcur : ∀ state, t'.tracked k = some state → state.forUpdate = true →
      (k = key ∨ s.locks k = some 0) ∧ ¬ s.view.Touched k state.readSeq ⊤)
    {chosenIn : Key → ReadView} {reads : List TxnRead}
    (hr : ∀ rd ∈ reads, rd.key = k → rd.forUpdate = true → rd.answer = rd.newest) :
    Guarded k { s with
      txn := some t', locks := update s.locks key (some 0), chosenIn, reads } := by
  have hlocks : k = key ∨ s.locks k = some 0 → update s.locks key (some 0) k = some 0 := by
    rintro (rfl | h)
    · exact update_self ..
    · by_cases hkey : k = key
      · rw [hkey, update_self]
      · rw [update_of_ne hkey, h]
  refine ⟨{ h.ordered with txn := fun t ht => some.inj ht ▸ hw }, h.unpublished,
    fun p hp hws => ?_, fun t ht hk => ?_, fun t ht state hs hfor => ?_, hr⟩
  · by_cases hkey : k = key
    · exact absurd hws (h.not_owned (hkey ▸ hl) hp)
    · dsimp only
      rw [update_of_ne hkey]
      exact h.owned p hp hws
  · cases ht
    exact hlocks (hh hk)
  · cases ht
    exact ⟨hlocks (hcur state hs hfor).1, (hcur state hs hfor).2⟩

theorem Guarded.get (ht : s.txn = some t) : (s.get op key t).Guarded k := by
  have hw := h.ordered.txn t ht
  have htrk : (t.get op s.view key).2.heldLocks = t.heldLocks ∧
      ∀ state, (t.get op s.view key).2.tracked k = some state → state.forUpdate = true →
        ∃ old, t.tracked k = some old ∧ old.forUpdate = true ∧ old.readSeq ≤ state.readSeq := by
    rcases get_cases op s.view key with hget | hget <;> rw [hget]
    · exact ⟨rfl, fun state hs hfor => ⟨state, hs, hfor, le_rfl⟩⟩
    · refine ⟨rfl, fun state hs hfor => ?_⟩
      rw [observe_tracked] at hs
      by_cases hkey : k = key
      · subst hkey
        rw [update_self, some.injEq] at hs
        subst hs
        cases hold : t.tracked k with
        | none => simp [hold] at hfor
        | some old =>
          refine ⟨old, rfl, by simpa [hold] using hfor, ?_⟩
          rw [observe_readSeq_of_some hold]
          exact le_max_left _ _
      · rw [update_of_ne hkey] at hs
        exact ⟨state, hs, hfor, le_rfl⟩
  refine ⟨{ h.ordered with txn := fun u hu => some.inj hu ▸ hw.get op s.view key },
    h.unpublished, h.owned, fun u hu hk => ?_, fun u hu state hs hfor => ?_, ?_⟩
  · cases hu
    exact h.held t ht (htrk.1 ▸ hk)
  · cases hu
    obtain ⟨old, hold, hfor, hle⟩ := htrk.2 state hs hfor
    obtain ⟨hl, hnot⟩ := h.current t ht old hold hfor
    exact ⟨hl, not_touched_of_le hnot hle⟩
  · intro rd hrd hk hfor
    rcases reads_get op s key t with hr | ⟨state, -, -, hr⟩ <;>
      rw [hr] at hrd
    · exact h.reads rd hrd hk hfor
    · rcases mem_append.mp hrd with hrd | hrd
      · exact h.reads rd hrd hk hfor
      · rw [mem_singleton.mp hrd] at hfor
        cases hfor

theorem Guarded.not_touched_forUpdate (hl : s.Lockable k)
    (ht : s.txn = some t) (hp : k ∈ t.heldLocks → ∀ state, t.tracked k = some state →
      state.forUpdate = true) : ¬ s.view.Touched k (t.observe k (t.readHorizon k
        (decide (k ∈ t.heldLocks)) s.horizon) true).2 ⊤ := by
  have hw := h.ordered.txn t ht
  have hle := (hw.observe_le k (hw.readHorizon k (decide (k ∈ t.heldLocks))).2 true).1
  refine not_touched_of_le ?_ hle
  rw [readHorizon, hw.mode]
  by_cases hh : k ∈ t.heldLocks
  · simp only [hh, decide_true, if_true]
    cases hs : t.tracked k with
    | none => exact h.not_touched hl
    | some state => exact (h.current t ht state hs (hp hh state hs)).2
  · simp only [hh, decide_false, Bool.false_eq_true, if_false]
    exact h.not_touched hl

theorem Guarded.getForUpdate (ht : s.txn = some t)
    (hl : s.Lockable key) (hp : key = k → k ∈ t.heldLocks → ∀ state,
      t.tracked k = some state → state.forUpdate = true) : (s.getForUpdate op key t).Guarded k := by
  have hw := h.ordered.txn t ht
  have hsrv : key = k → ¬ s.view.Touched k (t.observe key (t.readHorizon key
      (decide (key ∈ t.heldLocks)) s.horizon) true).2 ⊤ := by
    rintro rfl
    exact h.not_touched_forUpdate hl ht (hp rfl)
  refine h.take hl (hw.getForUpdate op s.view key) (fun hk => ?_)
    (fun state hs hfor => ?_) fun rd hrd hk hfor => ?_
  · exact (mem_hold hk).imp_right (h.held t ht)
  · rw [getForUpdate_tracked, observe_tracked] at hs
    by_cases hkey : k = key
    · rw [hkey, update_self, some.injEq] at hs
      subst hs
      exact ⟨.inl hkey, hsrv hkey.symm⟩
    · rw [update_of_ne hkey] at hs
      exact (h.current t ht state hs hfor).imp_left .inr
  · have hrd : rd ∈ (s.getForUpdate op key t).reads := hrd
    rcases reads_getForUpdate op s key t with hr | ⟨state, -, hnil, hr⟩ <;>
      rw [hr] at hrd
    · exact h.reads rd hrd hk hfor
    · rcases mem_append.mp hrd with hrd | hrd
      · exact h.reads rd hrd hk hfor
      · -- nothing of the key lies between the sequence served and the horizon
        rw [mem_singleton.mp hrd] at hk ⊢
        rw [getForUpdate_of_chain_nil hnil]
        subst hk
        refine (h.ordered.view.lookupLoaded_of_not_touched
          (hw.observe_le _ (hw.readHorizon _ _).2 true).2 (fun htch => ?_) op).symm
        exact hsrv rfl (htch.mono le_top)

/-- A commit of the key by another holds the key's lock. -/
theorem Guarded.commit {writer : Option Nat} {ops : List WriteBatchOp}
    (hwtr : writer ≠ some 0) (hne : ops ≠ []) (hf : s.next.Fits ops.length)
    (hdisc : (∃ op ∈ ops, op.writesKey k) → writer.isSome ∧ s.locks k = writer) : Guarded k { s with
      view := s.view.commit ops s.next, next := s.next + UInt64.ofNat ops.length,
      pending := s.pending ++ [⟨writer, ops, s.lastOf ops⟩] } := by
  refine ⟨h.ordered.commit hne hf, fun w hw hk hlt => ?_, fun p hp hws => ?_, h.held,
    fun t ht state hsta hfor => ?_, h.reads⟩
  · rcases (has_commit hf h.ordered.below).mp hw with hw | hw
    · obtain ⟨p, hp, hr⟩ := h.unpublished w hw hk hlt
      exact ⟨p, mem_append_left _ hp, hr⟩
    · refine ⟨_, mem_append_right _ (mem_singleton_self _), ?_, hw.writesKey hk⟩
      have hb := hw.bounds hf
      have hlast := toNat_lastOf hne hf
      exact UInt64.le_iff_toNat_le.mpr (by dsimp only; omega)
  · rcases mem_append.mp hp with hp | hp
    · exact h.owned p hp hws
    · rw [mem_singleton.mp hp] at hws ⊢
      obtain ⟨hs, howner⟩ := hdisc hws
      obtain ⟨owner, rfl⟩ := isSome_iff_exists.mp hs
      exact ⟨owner, fun h => hwtr (h ▸ rfl), rfl, howner⟩
  · obtain ⟨hl, hnot⟩ := h.current t ht state hsta hfor
    refine ⟨hl, fun htch => ?_⟩
    obtain ⟨w, hw, hk, hlt, htop⟩ := touched_iff_written.mp htch
    rcases (has_commit hf h.ordered.below).mp hw with hw | hw
    · exact hnot (touched_iff_written.mpr ⟨w, hw, hk, hlt, htop⟩)
    · exact hwtr ((hdisc (hw.writesKey hk)).2.symm.trans hl)

theorem Guarded.publish {pending : List PendingCommit}
    (hp : s.pending = p :: pending) : Guarded k { s with horizon := p.last, pending } := by
  refine ⟨h.ordered.publish hp, fun w hw hk hlt => ?_, fun q hq => ?_, h.held, h.current, h.reads⟩
  · have hmem : p ∈ s.pending := hp ▸ mem_cons_self
    obtain ⟨q, hq, hle, hws⟩ := h.unpublished w hw hk ((h.ordered.pending p hmem).1.trans hlt)
    rw [hp] at hq
    rcases mem_cons.mp hq with rfl | hq
    · exact absurd hle hlt.not_ge
    · exact ⟨q, hq, hle, hws⟩
  · exact h.owned q (hp ▸ mem_cons_of_mem _ hq)

theorem Guarded.relock {locks : Key → Option Nat}
    (hs : locks k = s.locks k) : Guarded k { s with locks } where
  ordered := { h.ordered with }
  unpublished := h.unpublished
  owned := fun p hp hws => by
    dsimp only
    rw [hs]
    exact h.owned p hp hws
  held := fun t ht hk => hs.trans (h.held t ht hk)
  current := fun t ht state hsta hfor =>
    (h.current t ht state hsta hfor).imp_left hs.trans
  reads := h.reads

theorem Guarded.compact {view : ReadView} (hv : view.LsmOrdered) (hb : view.Below s.next)
    (hkeep : ∀ lo, view.Touched k lo ⊤ → s.view.Touched k lo ⊤) : Guarded k { s with view } := by
  refine { h with
    ordered := { h.ordered with view := hv, below := hb }
    unpublished := fun w hw hk hlt => ?_
    current := fun t ht state hs hfor =>
      (h.current t ht state hs hfor).imp_right fun hnot htch => hnot (hkeep _ htch) }
  -- the old view has a version at or above this one, and that is unpublished
  have hpos : w.seq.toNat = (w.seq - 1).toNat + 1 := by
    have hlt := UInt64.lt_iff_toNat_lt.mp hlt
    rw [UInt64.toNat_sub_of_le _ _ (UInt64.le_iff_toNat_le.mpr (by simp; omega))]
    simp
    omega
  obtain ⟨w', hw', hk', hlt', -⟩ := touched_iff_written.mp
    (hkeep (w.seq - 1) (touched_iff_written.mpr
      ⟨w, hw, hk, UInt64.lt_iff_toNat_lt.mpr (by omega), le_top⟩))
  have hle : w.seq ≤ w'.seq := UInt64.le_iff_toNat_le.mpr (by
    have := UInt64.lt_iff_toNat_lt.mp hlt'
    omega)
  obtain ⟨p, hp, hl, hws⟩ := h.unpublished w' hw' hk' (hlt.trans_le hle)
  exact ⟨p, hp, hle.trans hl, hws⟩

/-- Under lock discipline every step keeps the guard. -/
theorem Guarded.step {a : SessionAction} (hdisc : s.LockDisciplined k a)
    (hpln : s.NotReadPlainly k a) (hkeep : s.PassesKeep k a) (hs : s.step op a = some s') :
    s'.Guarded k := by
  cases a with
  | begin keysInline =>
    have hord := h.ordered.step (fun _ _ h => by cases h) hs
    obtain ⟨-, rfl⟩ := step_begin_eq_some.mp hs
    refine ⟨hord, h.unpublished, h.owned, fun t ht hk => ?_, fun t ht state hsta => ?_, h.reads⟩
    · cases ht
      cases hk
    · cases ht
      cases hsta
  | get key =>
    obtain ⟨t, ht, rfl⟩ := step_get_eq_some.mp hs
    exact h.get ht
  | getForUpdate key =>
    obtain ⟨hl, t, ht, rfl⟩ := step_getForUpdate_eq_some.mp hs
    exact h.getForUpdate ht hl fun hkey => hpln hkey t ht
  | write call =>
    have hord := h.ordered.step (fun _ _ h => by cases h) hs
    obtain ⟨t, t', ht, -, -, htrk, -, ⟨rfl, hh⟩ | ⟨key, hl, hh, rfl⟩⟩ :=
      step_write_eq_some hs
    · refine { h with
        ordered := hord, held := fun u hu hk => ?_, current := fun u hu state hsta => ?_ }
      · cases hu
        exact h.held t ht (hh ▸ hk)
      · cases hu
        exact h.current t ht state (htrk ▸ hsta)
    · refine h.take hl (hord.txn t' rfl) (fun hk => (hh k hk).imp_right (h.held t ht))
        (fun state hsta hfor => ?_) h.reads
      exact (h.current t ht state (htrk ▸ hsta) hfor).imp_left .inr
  | lock owner key =>
    obtain ⟨⟨hne, hf⟩, rfl⟩ := step_lock_eq_some.mp hs
    by_cases hkey : k = key
    · -- the lock was free, so nobody's reading or writing rested on it
      subst hkey
      refine { h with
        ordered := { h.ordered with }
        owned := fun p hp hws => absurd hws (h.not_owned (.inl hf) hp)
        held := fun t ht hk => ?_, current := fun t ht state hsta hfor => ?_ }
      · have := h.held t ht hk
        simp [hf] at this
      · have := (h.current t ht state hsta hfor).1
        simp [hf] at this
    · exact h.relock (update_of_ne hkey ..)
  | unlock owner key =>
    obtain ⟨⟨hne, hown, hn⟩, rfl⟩ := step_unlock_eq_some.mp hs
    by_cases hkey : k = key
    · subst hkey
      refine { h with
        ordered := { h.ordered with }
        owned := fun p hp hws => ?_, held := fun t ht hk => ?_
        current := fun t ht state hsta hfor => ?_ }
      · obtain ⟨o, -, hw, ho⟩ := h.owned p hp hws
        rw [hown] at ho
        exact absurd (ho ▸ hw) (hn p hp)
      · have := h.held t ht hk
        exact absurd (some.inj (hown.symm.trans this)) hne
      · have := (h.current t ht state hsta hfor).1
        exact absurd (some.inj (hown.symm.trans this)) hne
    · exact h.relock (update_of_ne hkey ..)
  | commit writer ops =>
    obtain ⟨⟨hw, hne, hfits⟩, rfl⟩ := step_commit_eq_some.mp hs
    exact h.commit hw hne hfits hdisc
  | publish =>
    obtain ⟨p, pending, hp, rfl⟩ := step_publish_eq_some.mp hs
    exact h.publish hp
  | compact live view =>
    cases hs
    exact h.compact hkeep.1 hkeep.2.1 hkeep.2.2

end

theorem Opened.guarded (h : s.Opened) (k : Key) : s.Guarded k where
  ordered := h.inOrder
  unpublished := fun w hw _ hlt => by
    obtain ⟨src, hs, hw⟩ := hw
    cases w with
    | entry e => exact absurd ((h.atMost src hs).1 e hw) hlt.not_ge
    | range t => exact absurd ((h.atMost src hs).2 t hw) hlt.not_ge
  owned := by simp [h.pending]
  held := by simp [h.txn]
  current := by simp [h.txn]
  reads := by simp [h.reads]

end Guarded

end Session

/-- In every run in which a key is written only under its lock, passes add no version of it, and
no `get_for_update` of it is made under a lock already held on a key only read plainly so far, each `get_for_update` of
the key, not written by the transaction, returns its newest published value. -/
theorem getForUpdate_newest {op : Option MergeOperator} {s s' : Session} (hopened : s.Opened)
    {k : Key} {as : List SessionAction} (halong : Along (Session.step op)
      (fun s a => (s.LockDisciplined k a ∧ s.NotReadPlainly k a) ∧ s.PassesKeep k a) s as)
    (hrun : run (Session.step op) s as = some s') :
    ∀ rd ∈ s'.reads, rd.key = k → rd.forUpdate = true → rd.answer = rd.newest := by
  have hguarded : s'.Guarded k :=
    run_invariant (fun _ _ _ h hC hstep => h.step hC.1.1 hC.1.2 hC.2 hstep)
      (hopened.guarded k) halong hrun
  exact hguarded.reads

def createdSession : Session where
  view := createdView
  horizon := 0
  next := 1
  chosenIn := fun _ => createdView

theorem opened_createdSession : createdSession.Opened where
  ordered := opened_createdPipeline.ordered
  atMost := by decide
  next := by decide
  pending := rfl
  locks := fun _ => rfl
  txn := rfl
  reads := rfl

/-- Another transaction puts the key under its lock, and lets go once the put is visible. -/
def otherPuts (key : Key) (value : Value) : List SessionAction :=
  [.lock 1 key, .commit (some 1) [.put key value], .publish, .unlock 1 key]

/-- What a run's reads for update returned, each with the newest published value. -/
def forUpdateReads (s : Session) :
    List (Except ReadError (Option Value) × Except ReadError (Option Value)) :=
  (s.reads.filter TxnRead.forUpdate).map fun rd => (rd.answer, rd.newest)

/-- Read for update twice, the key put in between by another. -/
theorem getForUpdate_newest_after_get : ∃ s',
    run (Session.step none) createdSession ([.begin 16, .get [107]] ++
      otherPuts (prefixKey defaultCfId [107]) [1] ++ [.getForUpdate [107]]) = some s' ∧
    forUpdateReads s' = [(.ok (some [1]), .ok (some [1]))] ∧
    ∀ rd ∈ s'.reads, rd.key = prefixKey defaultCfId [107] → rd.forUpdate = true →
      rd.answer = rd.newest := by
  have hrds : (run (Session.step none) createdSession ([.begin 16, .get [107]] ++
      otherPuts (prefixKey defaultCfId [107]) [1] ++ [.getForUpdate [107]])).map forUpdateReads =
        some [(.ok (some [1]), .ok (some [1]))] := by decide +kernel
  obtain ⟨s', hrun, hrds⟩ := map_eq_some_iff.mp hrds
  refine ⟨s', hrun, hrds, getForUpdate_newest opened_createdSession (along_and.mpr
    ⟨by decide +kernel, along_of_forall ?_ _⟩) hrun⟩
  simp [otherPuts, Session.PassesKeep]

/-- The transaction read the key plainly, then took its lock with a put it rolled back. Its
`get_for_update` is served at the begin snapshot, and misses a commit that was visible before
the lock was taken. -/
theorem getForUpdate_stale : createdSession.Opened ∧ Along (Session.step none)
    (Session.LockDisciplined (prefixKey defaultCfId [107])) createdSession
      ([.begin 16, .get [107]] ++ otherPuts (prefixKey defaultCfId [107]) [1] ++
        [.write .setSavepoint, .write (.put [107] [2]), .write .rollbackToSavepoint,
          .getForUpdate [107]]) ∧
    (run (Session.step none) createdSession
      ([.begin 16, .get [107]] ++ otherPuts (prefixKey defaultCfId [107]) [1] ++
        [.write .setSavepoint, .write (.put [107] [2]), .write .rollbackToSavepoint,
          .getForUpdate [107]])).map forUpdateReads =
      some [(.ok none, .ok (some [1]))] :=
  ⟨opened_createdSession, by decide +kernel, by decide +kernel⟩

end RegolithStore
