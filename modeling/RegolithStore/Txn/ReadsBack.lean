import RegolithStore.Txn.ForUpdate

/-! Reads of a key inside a pessimistic transaction. The sequence a key is read at only rises, and
at one sequence a read finds what was there, as long as the versions it needs are kept. A
compaction keeps what the registered snapshots and the newest state need; a sequence to which
`get_for_update` promoted a key is neither once a newer version has landed. -/

namespace RegolithStore

open Lib List Function ReadView Transaction

variable {view : ReadView} {k key : Key} {op : Option MergeOperator} {t : Transaction}

/-! ### The version a read returns -/

variable {live : List Seq}

namespace ReadView

variable {r r' : Seq} {q : Seq} {after : ReadView}

theorem servedSeq_eq : view.servedSeq k r = (((view.visible k r).head?.filter fun e =>
    decide (view.coveringSeq k r < e.seq)).filter fun e => decide (e.valueType ≠ .deletion)).map
      Entry.seq := by
  rw [servedSeq, head?_takeWhile]

theorem mem_servedSeq :
    view.servedSeq k r = some q ↔ ∃ e, (view.visible k r).head? = some e ∧ view.coveringSeq k r <
      e.seq ∧ e.valueType ≠ .deletion ∧ e.seq = q := by
  simp only [servedSeq_eq, Option.map_eq_some_iff, Option.filter_eq_some_iff, decide_eq_true_eq,
    and_assoc]

theorem servedSeq_le (h : view.servedSeq k r = some q) : q ≤ r := by
  obtain ⟨e, he, -, -, rfl⟩ := mem_servedSeq.mp h
  exact (mem_visible.mp (mem_of_mem_head? he)).2.2

theorem coveringSeq_mono (h : r ≤ r') : view.coveringSeq k r ≤ view.coveringSeq k r' :=
  coveringSeq_le.mpr fun s hs t ht hle hk => coveringSeq_le.mp le_rfl s hs t ht (hle.trans h) hk

theorem servedSeq_of_le (hle : r ≤ r') (h : view.servedSeq k r' = some q) :
    r < q ∨ view.servedSeq k r = some q := by
  obtain ⟨e, he, hcover, hk, rfl⟩ := mem_servedSeq.mp h
  rcases lt_or_ge r e.seq with hlt | hge
  · exact .inl hlt
  refine .inr (mem_servedSeq.mpr ⟨e, ?_, (coveringSeq_mono hle).trans_lt hcover, hk, rfl⟩)
  have hf : view.visible k r = (view.visible k r').filter fun e => decide (e.seq ≤ r) := by
    rw [visible_eq_filter, visible_eq_filter, filter_filter]
    refine filter_congr fun e _ => ?_
    by_cases he : e.seq ≤ r
    · simp [he, he.trans hle]
    · simp [he]
  obtain ⟨es, hes⟩ := head?_eq_some_iff.mp he
  rw [hf, hes, filter_cons_of_pos (by simpa using hge), head?_cons]

theorem servedSeq_of_not_touched (hle : r ≤ r') (h : ¬ view.Touched k r r') :
    view.servedSeq k r' = view.servedSeq k r := by
  rw [servedSeq, servedSeq, visible_of_not_touched hle h, coveringSeq_of_not_touched hle h]

theorem servedSeq_commit {ops : List WriteBatchOp} {next : Seq} (hv : view.LsmOrdered)
    (hb : view.Below next) (hf : next.Fits ops.length) (hr : r < next) :
    (view.commit ops next).servedSeq k r = view.servedSeq k r := by
  rw [servedSeq, servedSeq, visible_commit_of_lt hv hb hf hr, coveringSeq_commit_of_lt hf hr]

/-- What a compaction pass leaves in place of the view: an ordered one without versions of its
own, in which a read at a live snapshot, or of the newest state, returns what it returned. -/
structure Keeps (view : ReadView) (op : Option MergeOperator) (live : List Seq) (after : ReadView) :
    Prop where
  ordered : after.LsmOrdered
  below : ∀ next, view.Below next → after.Below next
  versions : ∀ k lo, after.Touched k lo ⊤ → view.Touched k lo ⊤
  served : ∀ k r, r ∈ live ∨ view.AtMost r → after.servedSeq k r = view.servedSeq k r ∧
    after.lookupLoaded k r op = view.lookupLoaded k r op

theorem Keeps.servedSeq_live
    (h : view.Keeps op live after) (hr : r ∈ live) : after.servedSeq k r = view.servedSeq k r :=
  (h.served k r (.inl hr)).1

theorem Keeps.servedSeq_newest (h : view.Keeps op live after) (hr : ¬ view.Touched k r ⊤) :
    after.servedSeq k r = view.servedSeq k r := by
  have htop : view.AtMost ⊤ := fun _ _ => ⟨fun _ _ => le_top, fun _ _ => le_top⟩
  calc after.servedSeq k r
      = after.servedSeq k ⊤ := (servedSeq_of_not_touched le_top fun ht => hr (h.versions k r ht)).symm
    _ = view.servedSeq k ⊤ := (h.served k ⊤ (.inr htop)).1
    _ = view.servedSeq k r := servedSeq_of_not_touched le_top hr

end ReadView

/-! ### The sequence a key is read at -/

namespace Transaction

variable {horizon : Seq}

/-- The sequence a plain read of `k` is served at. -/
def readSeqOf (t : Transaction) (k : Key) : Seq :=
  ((t.tracked k).map KeyState.readSeq).getD t.snapshotSeq

theorem readSeqOf_of_some {k : Key} {state : KeyState} (h : t.tracked k = some state) :
    t.readSeqOf k = state.readSeq := by
  rw [readSeqOf, h]
  rfl

theorem Within.readSeqOf_le (h : t.Within horizon) (k : Key) : t.readSeqOf k ≤ horizon := by
  cases hk : t.tracked k with
  | none =>
    rw [readSeqOf, hk]
    exact h.snapshot
  | some state => exact readSeqOf_of_some hk ▸ (h.reads k state hk).2

theorem readSeqOf_observe_of_ne (hk : k ≠ key) (at_ : Seq) (forUpdate : Bool) :
    (t.observe key at_ forUpdate).1.readSeqOf k = t.readSeqOf k := by
  rw [readSeqOf, observe_tracked, update_of_ne hk]
  rfl

theorem readSeqOf_observe_self (key : Key) (at_ : Seq) (forUpdate : Bool) :
    (t.observe key at_ forUpdate).1.readSeqOf key = (t.observe key at_ forUpdate).2 :=
  readSeqOf_of_some (congrFun (observe_tracked key at_ forUpdate) key |>.trans (update_self ..))

theorem Within.readSeqOf_get (h : t.Within horizon) (op : Option MergeOperator) (view : ReadView)
    (key k : Key) : (t.get op view key).2.readSeqOf k = t.readSeqOf k := by
  rcases get_cases op view key with hget | hget <;> rw [hget]
  by_cases hk : k = key
  · subst hk
    rw [readSeqOf_observe_self]
    cases hs : t.tracked k with
    | none => rw [observe_readSeq_of_none hs, readSeqOf, hs]; rfl
    | some state =>
      rw [observe_readSeq_of_some hs, readSeqOf_of_some hs]
      exact max_eq_left (h.reads k state hs).1
  · exact readSeqOf_observe_of_ne hk ..

theorem readSeqOf_getForUpdate_of_ne (hk : k ≠ key) (op : Option MergeOperator) (view : ReadView)
    (current : Seq) : (t.getForUpdate op view current key).2.readSeqOf k = t.readSeqOf k :=
  readSeqOf_observe_of_ne hk ..

theorem Within.readSeqOf_le_getForUpdate (h : t.Within horizon) (op : Option MergeOperator)
    (view : ReadView) (key : Key) :
    t.readSeqOf key ≤ (t.getForUpdate op view horizon key).2.readSeqOf key := by
  have hself : (t.getForUpdate op view horizon key).2.readSeqOf key =
      (t.observe key (t.readHorizon key (decide (key ∈ t.heldLocks)) horizon) true).2 :=
    readSeqOf_observe_self ..
  rw [hself]
  cases hs : t.tracked key with
  | none =>
    rw [observe_readSeq_of_none hs, readSeqOf, hs]
    exact (h.readHorizon key _).1
  | some state =>
    rw [observe_readSeq_of_some hs, readSeqOf_of_some hs]
    exact le_max_left _ _

end Transaction

/-! ### The reads of a run -/

namespace Session

/-- A pass keeps what the registered snapshots, the transaction's among them, and the newest
state need. -/
def Compacts (op : Option MergeOperator) (s : Session) : SessionAction → Prop
  | .compact live view => s.view.Keeps op live view ∧ ∀ t ∈ s.txn, t.snapshotSeq ∈ live
  | _ => True

/-- No key the transaction promoted has a version above the sequence it is read at. -/
def PromotedNewest (s : Session) : SessionAction → Prop
  | .compact _ _ => ∀ t ∈ s.txn, ∀ k, ∀ state ∈ t.tracked k, t.snapshotSeq < state.readSeq →
      ¬ s.view.Touched k state.readSeq ⊤
  | _ => True

/-- What the reads made so far say of those to come. -/
structure Forward (s : Session) : Prop where
  ordered : s.Ordered
  stable : ∀ t, s.txn = some t → ∀ k, s.view.servedSeq k (t.readSeqOf k) =
    (s.chosenIn k).servedSeq k (t.readSeqOf k)
  bound : ∀ t, s.txn = some t → ∀ rd ∈ s.reads, ∀ a ∈ rd.served, a ≤ t.readSeqOf rd.key ∧
    ∀ b ∈ s.view.servedSeq rd.key (t.readSeqOf rd.key), a ≤ b
  chosen : ∀ rd ∈ s.reads, rd.served = rd.chosen
  ascending : s.reads.Pairwise fun rd rd' => rd.key = rd'.key → ∀ a ∈ rd.served,
    ∀ b ∈ rd'.served, a ≤ b
  begun : s.txn = none → s.reads = []

section Forward

variable {s s' : Session}

section

variable (h : s.Forward)

include h

variable (ht : s.txn = some t)

include ht

theorem Forward.note (rd : TxnRead)
    (hsrv : rd.served = s.view.servedSeq rd.key (t.readSeqOf rd.key))
    (hchosen : rd.chosen = (s.chosenIn rd.key).servedSeq rd.key (t.readSeqOf rd.key)) :
    Forward { s with reads := s.reads ++ [rd] } where
  ordered := { h.ordered with }
  stable := h.stable
  bound := fun u hu rd' hrd' a ha => by
    rcases mem_append.mp hrd' with hrd' | hrd'
    · exact h.bound u hu rd' hrd' a ha
    · obtain rfl : t = u := Option.mem_unique ht hu
      rw [mem_singleton.mp hrd'] at ha ⊢
      rw [hsrv] at ha
      exact ⟨servedSeq_le ha, fun b hb => (Option.mem_unique ha hb).le⟩
  chosen := fun rd' hrd' => by
    rcases mem_append.mp hrd' with hrd' | hrd'
    · exact h.chosen rd' hrd'
    · rw [mem_singleton.mp hrd', hsrv, hchosen, h.stable t ht]
  ascending := by
    refine pairwise_append.mpr ⟨h.ascending, by simp, fun rd' hrd' rd'' hrd'' hkey a ha b hb => ?_⟩
    rw [mem_singleton.mp hrd''] at hkey hb
    rw [hsrv, ← hkey] at hb
    exact (h.bound t ht rd' hrd' a ha).2 b hb
  begun := fun hn => by
    rw [show s.txn = none from hn] at ht
    cases ht

omit ht in
theorem Forward.sameReads {t t' : Transaction} (ht : s.txn = some t)
    (hs : ∀ k, t'.readSeqOf k = t.readSeqOf k) (locks : Key → Option Nat)
    (ho : ({ s with txn := some t', locks } : Session).Ordered) :
    Forward { s with txn := some t', locks } where
  ordered := ho
  stable := fun u hu k => by
    cases hu
    rw [hs]
    exact h.stable t ht k
  bound := fun u hu rd hrd a ha => by
    cases hu
    rw [hs]
    exact h.bound t ht rd hrd a ha
  chosen := h.chosen
  ascending := h.ascending
  begun := nofun

theorem Forward.get : (s.get op key t).Forward := by
  have hw := h.ordered.txn t ht
  have hm : Forward { s with txn := some (t.get op s.view key).2 } :=
    h.sameReads ht (hw.readSeqOf_get op s.view key) s.locks
      { h.ordered with txn := fun u hu => Option.some.inj hu ▸ hw.get op s.view key }
  rcases reads_get op s key t with hr | ⟨state, hs, -, hr⟩
  · have hget : s.get op key t = { s with txn := some (t.get op s.view key).2 } := by
      rw [← hr]
      rfl
    exact hget ▸ hm
  · have hget := hm.note rfl ⟨key, false, (t.get op s.view key).1,
      s.view.servedSeq key state.readSeq, (s.chosenIn key).servedSeq key state.readSeq,
      s.view.lookupLoaded key s.horizon op⟩ (by rw [Transaction.readSeqOf_of_some hs])
      (by rw [Transaction.readSeqOf_of_some hs])
    rw [← hr] at hget
    exact hget

/-- A promotion moves a key's reads forward. -/
theorem Forward.promote
    (op : Option MergeOperator) (key : Key) (locks : Key → Option Nat) : Forward { s with
      txn := some (t.getForUpdate op s.view s.horizon key).2, locks,
      chosenIn := (s.getForUpdate op key t).chosenIn } := by
  have hw := h.ordered.txn t ht
  refine ⟨{ h.ordered with
    txn := fun u hu => Option.some.inj hu ▸ hw.getForUpdate op s.view key },
    fun u hu k => ?_, fun u hu rd hrd a ha => ?_, h.chosen, h.ascending, nofun⟩
  · cases hu
    by_cases hk : k = key
    · subst hk
      set t' := (t.getForUpdate op s.view s.horizon k).2 with ht'
      have hseq : ((t'.tracked k).map KeyState.readSeq).getD 0 = t'.readSeqOf k := by
        rw [Transaction.readSeqOf, ht', getForUpdate_tracked,
          Transaction.observe_tracked, update_self]
        rfl
      change s.view.servedSeq k (t'.readSeqOf k) = (s.rechosen t k
        (((t'.tracked k).map KeyState.readSeq).getD 0) k).servedSeq k (t'.readSeqOf k)
      rw [hseq, rechosen]
      split_ifs with hany
      · -- the sequence is the one it was
        cases hsta : t.tracked k with
        | none => simp [hsta] at hany
        | some state =>
          have heq : state.readSeq = t'.readSeqOf k := by simpa [hsta] using hany
          rw [← heq, ← Transaction.readSeqOf_of_some hsta]
          exact h.stable t ht k
      · rw [update_self]
    · have hs : (s.getForUpdate op key t).chosenIn k = s.chosenIn k := by
        change s.rechosen t key _ k = s.chosenIn k
        rw [rechosen]
        split_ifs
        · rfl
        · exact update_of_ne hk ..
      rw [hs, readSeqOf_getForUpdate_of_ne hk]
      exact h.stable t ht k
  · cases hu
    obtain ⟨hle, hbnd⟩ := h.bound t ht rd hrd a ha
    by_cases hk : rd.key = key
    · have hrise := hw.readSeqOf_le_getForUpdate op s.view key
      rw [← hk] at hrise ⊢
      refine ⟨hle.trans hrise, fun b hb => ?_⟩
      rcases servedSeq_of_le hrise hb with hlt | hsrv
      · exact hle.trans hlt.le
      · exact hbnd b hsrv
    · dsimp only
      rw [readSeqOf_getForUpdate_of_ne hk]
      exact ⟨hle, hbnd⟩

theorem Forward.getForUpdate : (s.getForUpdate op key t).Forward := by
  have hm := h.promote ht op key (update s.locks key (some 0))
  rcases reads_getForUpdate op s key t with hr | ⟨state, hs, -, hr⟩
  · rw [← hr] at hm
    exact hm
  · have hget := hm.note rfl ⟨key, true, (t.getForUpdate op s.view s.horizon key).1,
      s.view.servedSeq key state.readSeq,
      ((s.getForUpdate op key t).chosenIn key).servedSeq key state.readSeq,
      s.view.lookupLoaded key s.horizon op⟩ (by rw [Transaction.readSeqOf_of_some hs])
      (by rw [Transaction.readSeqOf_of_some hs])
    rw [← hr] at hget
    exact hget

omit ht

theorem Forward.sameServed (ho : s'.Ordered) (htxn : s'.txn = s.txn)
    (hchosen : s'.chosenIn = s.chosenIn) (hr : s'.reads = s.reads)
    (hsrv : ∀ t, s.txn = some t → ∀ k, s'.view.servedSeq k (t.readSeqOf k) =
      s.view.servedSeq k (t.readSeqOf k)) : s'.Forward where
  ordered := ho
  stable := fun t ht k => by
    rw [htxn] at ht
    rw [hsrv t ht, hchosen]
    exact h.stable t ht k
  bound := fun t ht rd hrd a ha => by
    rw [htxn] at ht
    rw [hr] at hrd
    rw [hsrv t ht]
    exact h.bound t ht rd hrd a ha
  chosen := hr ▸ h.chosen
  ascending := hr ▸ h.ascending
  begun := htxn ▸ hr ▸ h.begun

theorem Forward.compact (hk : s.view.Keeps op live view) (hl : ∀ t ∈ s.txn, t.snapshotSeq ∈ live)
    (hprom : ∀ t ∈ s.txn, ∀ k, ∀ state ∈ t.tracked k, t.snapshotSeq < state.readSeq →
      ¬ s.view.Touched k state.readSeq ⊤) : Forward { s with view } := by
  refine h.sameServed { h.ordered with view := hk.ordered, below := hk.below _ h.ordered.below }
    rfl rfl rfl fun t ht k => ?_
  cases hs : t.tracked k with
  | none =>
    rw [Transaction.readSeqOf, hs]
    exact hk.servedSeq_live (hl t ht)
  | some state =>
    rw [Transaction.readSeqOf_of_some hs]
    rcases ((h.ordered.txn t ht).reads k state hs).1.lt_or_eq with hlt | heq
    · exact hk.servedSeq_newest (hprom t ht k state hs hlt)
    · exact hk.servedSeq_live (heq ▸ hl t ht)

/-- Every step leaves the reads to come no older. -/
theorem Forward.step {a : SessionAction} (hcompacts : s.Compacts op a)
    (hprom : s.PromotedNewest a) (hs : s.step op a = some s') : s'.Forward := by
  have ho := h.ordered.step (fun live view ha => by
    subst ha
    exact ⟨hcompacts.1.ordered, hcompacts.1.below _ h.ordered.below⟩) hs
  cases a with
  | begin keysInline =>
    obtain ⟨hn, rfl⟩ := step_begin_eq_some.mp hs
    have hr := h.begun hn
    exact ⟨ho, fun t ht k => rfl, fun t ht rd hrd => by simp [hr] at hrd, h.chosen,
      h.ascending, nofun⟩
  | get key =>
    obtain ⟨t, ht, rfl⟩ := step_get_eq_some.mp hs
    exact h.get ht
  | getForUpdate key =>
    obtain ⟨-, t, ht, rfl⟩ := step_getForUpdate_eq_some.mp hs
    exact h.getForUpdate ht
  | write call =>
    obtain ⟨t, t', ht, -, hsnap, htrk, -, ⟨rfl, -⟩ | ⟨key, -, -, rfl⟩⟩ :=
      step_write_eq_some hs <;>
    exact h.sameReads ht (fun k => by rw [Transaction.readSeqOf, Transaction.readSeqOf, htrk,
      hsnap]) _ ho
  | lock owner key =>
    obtain ⟨-, rfl⟩ := step_lock_eq_some.mp hs
    exact h.sameServed ho rfl rfl rfl fun _ _ _ => rfl
  | unlock owner key =>
    obtain ⟨-, rfl⟩ := step_unlock_eq_some.mp hs
    exact h.sameServed ho rfl rfl rfl fun _ _ _ => rfl
  | commit writer ops =>
    obtain ⟨⟨-, -, hf⟩, rfl⟩ := step_commit_eq_some.mp hs
    refine h.sameServed ho rfl rfl rfl fun t ht k => ?_
    exact servedSeq_commit h.ordered.view h.ordered.below hf
      (((h.ordered.txn t ht).readSeqOf_le k).trans_lt h.ordered.horizon)
  | publish =>
    obtain ⟨p, pending, -, rfl⟩ := step_publish_eq_some.mp hs
    exact h.sameServed ho rfl rfl rfl fun _ _ _ => rfl
  | compact live view =>
    cases hs
    exact h.compact hcompacts.1 hcompacts.2 hprom

end

end Forward

end Session

end RegolithStore
