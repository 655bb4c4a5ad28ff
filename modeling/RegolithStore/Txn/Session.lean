import RegolithStore.Commit.Contents
import RegolithStore.Txn.Transaction

/-! One pessimistic transaction among other writers. The others take and release key locks,
commit (a commit is in the memtable before it is published, and a plain write takes no lock),
and their commits are published in order; a compaction pass puts another view in place. The
reads the transaction made of keys it had not written are kept, each with what was there when
its sequence was chosen and with the key's newest published value. -/

namespace RegolithStore

open Lib List Function Option

def Written.Of (k : Key) : Written → Prop
  | entry e => e.userKey = k
  | range t => t.Covers k

def WriteBatchOp.writesKey (k : Key) : WriteBatchOp → Bool
  | put key _ | delete key | merge key _ => decide (key = k)
  | deleteRange start stop => decide (start ≤ k ∧ k < stop)

variable {ops : List WriteBatchOp} {w : Written}

theorem OpsWrite.writesKey {base : Seq} {k : Key}
    (h : OpsWrite ops base w) (hk : w.Of k) : ∃ op ∈ ops, op.writesKey k := by
  cases w with
  | entry e =>
    obtain ⟨⟨op, seq⟩, hp, he⟩ := mem_filterMap.mp h
    refine ⟨op, mem_of_mem_sequenced hp, ?_⟩
    cases op <;> simp only [WriteBatchOp.pointEntry, some.injEq, reduceCtorEq] at he <;>
      subst he <;> exact decide_eq_true hk
  | range t =>
    obtain ⟨⟨op, seq⟩, hp, ht⟩ := mem_filterMap.mp h
    refine ⟨op, mem_of_mem_sequenced hp, ?_⟩
    cases op <;> simp only [WriteBatchOp.tombstone, some.injEq, reduceCtorEq] at ht
    subst ht
    exact decide_eq_true hk

namespace ReadView

variable {view : ReadView} {k : Key}

theorem touched_iff_written {lo hi : Seq} : view.Touched k lo hi ↔
    ∃ w, view.Has w ∧ w.Of k ∧ lo < w.seq ∧ w.seq ≤ hi := by
  constructor
  · rintro ⟨s, hs, ⟨e, he, h⟩ | ⟨t, ht, h⟩⟩
    · exact ⟨.entry e, ⟨s, hs, he⟩, h⟩
    · exact ⟨.range t, ⟨s, hs, ht⟩, h⟩
  · rintro ⟨w, ⟨s, hs, hw⟩, h⟩
    cases w with
    | entry e => exact ⟨s, hs, .inl ⟨e, hw, h⟩⟩
    | range t => exact ⟨s, hs, .inr ⟨t, hw, h⟩⟩

theorem has_commit {next : Seq} (hf : next.Fits ops.length) (hb : view.Below next) :
    (view.commit ops next).Has w ↔ view.Has w ∨ OpsWrite ops next w := by
  rw [commit, has_active, MemTable.has_apply hf hb.active, has_iff]
  exact or_right_comm

/-- The sequence of the version a read of `k` at `r` returns; none if it finds nothing. -/
def servedSeq (view : ReadView) (k : Key) (r : Seq) : Option Seq :=
  ((((view.visible k r).takeWhile fun e => decide (view.coveringSeq k r < e.seq)).head?).filter
    fun e => decide (e.valueType ≠ .deletion)).map Entry.seq

end ReadView

/-- A commit in the memtable and not published yet; a plain write has no owner. -/
structure PendingCommit where
  writer : Option Nat
  ops : List WriteBatchOp
  last : Seq

/-- A read of a key the transaction had not written. -/
structure TxnRead where
  key : Key
  forUpdate : Bool
  answer : Except ReadError (Option Value)
  served : Option Seq
  /-- The version that was the newest at the read's sequence when that was chosen. -/
  chosen : Option Seq
  /-- The key in the newest published state. -/
  newest : Except ReadError (Option Value)

/-- The transaction's own name is 0. -/
structure Session where
  view : ReadView
  horizon : Seq
  next : Seq
  pending : List PendingCommit := []
  locks : Key → Option Nat := fun _ => none
  txn : Option Transaction := none
  /-- The view a key's read sequence was chosen in. -/
  chosenIn : Key → ReadView
  reads : List TxnRead := []

inductive SessionAction
  | begin (keysInline : Nat)
  | get (key : Key)
  | getForUpdate (key : Key)
  | write (call : WriteCall)
  | lock (owner : Nat) (key : Key)
  | unlock (owner : Nat) (key : Key)
  | commit (writer : Option Nat) (ops : List WriteBatchOp)
  | publish
  | compact (live : List Seq) (view : ReadView)

def WriteCall.lockedKey (op : Option MergeOperator) : WriteCall → Option Key
  | put key _ | delete key => some (prefixKey defaultCfId key)
  | merge key _ => if op.isSome then some (prefixKey defaultCfId key) else none
  | setSavepoint | rollbackToSavepoint | releaseSavepoint => none

namespace Session

variable (op : Option MergeOperator) (s : Session)

/-- The read of `key` that left the transaction `t'`, if `t` had not written the key. -/
def noted (t t' : Transaction) (key : Key) (forUpdate : Bool)
    (answer : Except ReadError (Option Value)) : List TxnRead :=
  match t'.tracked key with
  | some state =>
    if t.own.writes.chain key = [] then
      s.reads ++ [⟨key, forUpdate, answer, s.view.servedSeq key state.readSeq,
        (s.chosenIn key).servedSeq key state.readSeq, s.view.lookupLoaded key s.horizon op⟩]
    else s.reads
  | none => s.reads

def get (key : Key) (t : Transaction) : Session :=
  let (answer, t') := t.get op s.view key
  { s with txn := some t', reads := s.noted op t t' key false answer }

/-- The lock is free or the transaction's own. -/
def Lockable (key : Key) : Prop := s.locks key = none ∨ s.locks key = some 0

instance (key : Key) : Decidable (s.Lockable key) := inferInstanceAs (Decidable (_ ∨ _))

/-- The view the read sequence of `key` was chosen in, once it is `readSeq`. -/
def rechosen (t : Transaction) (key : Key) (readSeq : Seq) : Key → ReadView :=
  if (t.tracked key).any fun state => decide (state.readSeq = readSeq) then s.chosenIn
  else update s.chosenIn key s.view

def getForUpdate (key : Key) (t : Transaction) : Session :=
  let (answer, t') := t.getForUpdate op s.view s.horizon key
  let readSeq := ((t'.tracked key).map KeyState.readSeq).getD 0
  let s' := { s with
    txn := some t', locks := update s.locks key (some 0),
    chosenIn := s.rechosen t key readSeq }
  { s' with reads := s'.noted op t t' key true answer }

/-- A write takes its key's lock before it is buffered. -/
def write (call : WriteCall) (t : Transaction) : Option Session :=
  let t' := { t with own := t.own.call op call }
  match call.lockedKey op with
  | none => some { s with txn := some t' }
  | some key =>
    if s.Lockable key then
      some { s with
        txn := some (t'.hold key), locks := update s.locks key (some 0) }
    else none

def lastOf (ops : List WriteBatchOp) : Seq := s.next + UInt64.ofNat (ops.length - 1)

def step : SessionAction → Option Session
  | .begin keysInline =>
    if s.txn.isNone then
      some { s with
        txn := some (.new .pessimistic keysInline s.horizon), chosenIn := fun _ => s.view }
    else none
  | .get key => s.txn.map (s.get op (prefixKey defaultCfId key))
  | .getForUpdate key =>
    if s.Lockable (prefixKey defaultCfId key) then
      s.txn.map (s.getForUpdate op (prefixKey defaultCfId key))
    else none
  | .write call => s.txn.bind (s.write op call)
  | .lock owner key =>
    if owner ≠ 0 ∧ s.locks key = none then
      some { s with locks := update s.locks key (some owner) }
    else none
  | .unlock owner key =>
    -- what the owner committed is visible before it lets go
    if owner ≠ 0 ∧ s.locks key = some owner ∧ ∀ p ∈ s.pending, p.writer ≠ some owner then
      some { s with locks := update s.locks key none }
    else none
  | .commit writer ops =>
    if writer ≠ some 0 ∧ ops ≠ [] ∧ s.next.Fits ops.length then
      some { s with
        view := s.view.commit ops s.next, next := s.next + UInt64.ofNat ops.length,
        pending := s.pending ++ [⟨writer, ops, s.lastOf ops⟩] }
    else none
  | .publish => match s.pending with
    | p :: pending => some { s with horizon := p.last, pending }
    | [] => none
  | .compact _ view => some { s with view }

variable {op s} {s' : Session} {ops : List WriteBatchOp} {key : Key} {writer : Option Nat}
  {owner : Nat}

theorem step_begin_eq_some {keysInline : Nat} :
    s.step op (.begin keysInline) = some s' ↔ s.txn = none ∧ s' = { s with
      txn := some (.new .pessimistic keysInline s.horizon), chosenIn := fun _ => s.view } := by
  rw [step, ite_none_right_eq_some, isNone_iff_eq_none, some.injEq]
  exact and_congr_right fun _ => eq_comm

theorem step_get_eq_some :
    s.step op (.get key) = some s' ↔ ∃ t, s.txn = some t ∧ s' = s.get op (prefixKey defaultCfId key)
      t := by
  simp [step, eq_comm]

theorem step_getForUpdate_eq_some : s.step op (.getForUpdate key) = some s' ↔
    s.Lockable (prefixKey defaultCfId key) ∧
      ∃ t, s.txn = some t ∧ s' = s.getForUpdate op (prefixKey defaultCfId key) t := by
  rw [step, ite_none_right_eq_some, map_eq_some_iff]
  exact and_congr_right fun _ => exists_congr fun _ => and_congr_right fun _ => eq_comm

theorem step_commit_eq_some : s.step op (.commit writer ops) = some s' ↔
      (writer ≠ some 0 ∧ ops ≠ [] ∧ s.next.Fits ops.length) ∧ s' = { s with
        view := s.view.commit ops s.next, next := s.next + UInt64.ofNat ops.length,
        pending := s.pending ++ [⟨writer, ops, s.lastOf ops⟩] } := by
  rw [step, ite_none_right_eq_some, some.injEq]
  exact and_congr_right fun _ => eq_comm

theorem step_lock_eq_some : s.step op (.lock owner key) = some s' ↔
    (owner ≠ 0 ∧ s.locks key = none) ∧
      s' = { s with locks := update s.locks key (some owner) } := by
  rw [step, ite_none_right_eq_some, some.injEq]
  exact and_congr_right fun _ => eq_comm

theorem step_unlock_eq_some : s.step op (.unlock owner key) = some s' ↔
    (owner ≠ 0 ∧ s.locks key = some owner ∧ ∀ p ∈ s.pending, p.writer ≠ some owner) ∧
      s' = { s with locks := update s.locks key none } := by
  rw [step, ite_none_right_eq_some, some.injEq]
  exact and_congr_right fun _ => eq_comm

theorem step_publish_eq_some : s.step op .publish = some s' ↔
    ∃ p pending, s.pending = p :: pending ∧ s' = { s with horizon := p.last, pending } := by
  rw [step]
  cases s.pending <;> simp [eq_comm]

theorem step_write_eq_some {call : WriteCall} (h : s.step op (.write call) = some s') :
    ∃ t t', s.txn = some t ∧ t'.mode = t.mode ∧ t'.snapshotSeq = t.snapshotSeq ∧
      t'.tracked = t.tracked ∧ t'.own = t.own.call op call ∧
      ((s' = { s with txn := some t' } ∧ t'.heldLocks = t.heldLocks) ∨
        ∃ key, s.Lockable key ∧ (∀ key' ∈ t'.heldLocks, key' = key ∨ key' ∈ t.heldLocks) ∧
          s' = { s with
            txn := some t', locks := update s.locks key (some 0) }) := by
  obtain ⟨t, ht, h⟩ := bind_eq_some_iff.mp h
  rw [Session.write] at h
  split at h
  · cases h
    exact ⟨t, { t with own := t.own.call op call }, ht, rfl, rfl, rfl, rfl, .inl ⟨rfl, rfl⟩⟩
  · rename_i key _
    split_ifs at h with hl
    cases h
    exact ⟨t, ({ t with own := t.own.call op call } : Transaction).hold key, ht, rfl, rfl, rfl, rfl,
      .inr ⟨key, hl, fun key' hkey' => Transaction.mem_hold hkey', rfl⟩⟩

theorem noted_cases (t t' : Transaction) (key : Key) (forUpdate : Bool)
    (answer : Except ReadError (Option Value)) : s.noted op t t' key forUpdate answer = s.reads ∨
      ∃ state, t'.tracked key = some state ∧ t.own.writes.chain key = [] ∧
        s.noted op t t' key forUpdate answer = s.reads ++ [⟨key, forUpdate, answer,
          s.view.servedSeq key state.readSeq, (s.chosenIn key).servedSeq key state.readSeq,
          s.view.lookupLoaded key s.horizon op⟩] := by
  rw [noted]
  split
  · rename_i state hs
    split_ifs with hnil
    · exact .inr ⟨state, hs, hnil, rfl⟩
    · exact .inl rfl
  · exact .inl rfl

theorem reads_get (op : Option MergeOperator) (s : Session) (key : Key) (t : Transaction) :
    (s.get op key t).reads = s.reads ∨
    ∃ state, (t.get op s.view key).2.tracked key = some state ∧ t.own.writes.chain key = [] ∧
      (s.get op key t).reads = s.reads ++ [⟨key, false, (t.get op s.view key).1,
        s.view.servedSeq key state.readSeq, (s.chosenIn key).servedSeq key state.readSeq,
        s.view.lookupLoaded key s.horizon op⟩] := noted_cases ..

theorem reads_getForUpdate (op : Option MergeOperator) (s : Session) (key : Key) (t : Transaction) :
    (s.getForUpdate op key t).reads = s.reads ∨ ∃ state,
    (t.getForUpdate op s.view s.horizon key).2.tracked key = some state ∧
      t.own.writes.chain key = [] ∧ (s.getForUpdate op key t).reads = s.reads ++ [⟨key, true,
        (t.getForUpdate op s.view s.horizon key).1, s.view.servedSeq key state.readSeq,
        ((s.getForUpdate op key t).chosenIn key).servedSeq key state.readSeq,
        s.view.lookupLoaded key s.horizon op⟩] :=
  noted_cases (s := { s with
    txn := some (t.getForUpdate op s.view s.horizon key).2
    locks := update s.locks key (some 0)
    chosenIn := (s.getForUpdate op key t).chosenIn }) ..

theorem toNat_lastOf (hne : ops ≠ []) (hfits : s.next.Fits ops.length) :
    (s.lastOf ops).toNat + 1 = s.next.toNat + ops.length := by
  have hpos := length_pos_iff.mpr hne
  have hfits' : s.next.Fits (ops.length - 1) := by
    rw [Seq.Fits] at hfits ⊢
    omega
  rw [lastOf, Seq.toNat_add hfits']
  omega

variable (s)

/-- A store just opened, everything in it published, and no transaction begun. -/
structure Opened : Prop where
  ordered : s.view.LsmOrdered
  atMost : s.view.AtMost s.horizon
  next : s.horizon < s.next
  pending : s.pending = []
  locks : ∀ key, s.locks key = none
  txn : s.txn = none
  reads : s.reads = []

/-- The view is in store order, what is not published is above the horizon and pending, and the
transaction reads at or below the horizon. -/
structure Ordered : Prop where
  view : s.view.LsmOrdered
  below : s.view.Below s.next
  horizon : s.horizon < s.next
  pending : ∀ p ∈ s.pending, s.horizon < p.last ∧ p.last < s.next
  ascending : s.pending.Pairwise fun p q => p.last < q.last
  txn : ∀ t, s.txn = some t → t.Within s.horizon

variable {s}

theorem Opened.inOrder (h : s.Opened) : s.Ordered where
  view := h.ordered
  below := h.atMost.below h.next
  horizon := h.next
  pending := by simp [h.pending]
  ascending := by simp [h.pending]
  txn := by simp [h.txn]

/-- A commit lands above everything. -/
theorem Ordered.commit (h : s.Ordered)
    (hne : ops ≠ []) (hf : s.next.Fits ops.length) : Ordered { s with
      view := s.view.commit ops s.next, next := s.next + UInt64.ofNat ops.length,
      pending := s.pending ++ [⟨writer, ops, s.lastOf ops⟩] } := by
  have hl := toNat_lastOf hne hf
  have hn := Seq.toNat_add hf
  have hpos := length_pos_iff.mpr hne
  have hle : ∀ {q : Seq}, q < s.next → q < s.next + UInt64.ofNat ops.length := fun {q} hq => by
    rw [UInt64.lt_iff_toNat_lt] at hq ⊢
    omega
  refine ⟨h.view.apply hf h.below (Seq.pos_of_lt h.horizon), ReadView.below_iff.mpr fun w hw => ?_,
    hle h.horizon, fun p hp => ?_, pairwise_append.mpr ⟨h.ascending, by simp, ?_⟩, h.txn⟩
  · rcases (ReadView.has_commit hf h.below).mp hw with hw | hw
    · exact hle (ReadView.below_iff.mp h.below w hw)
    · have hb := hw.bounds hf
      exact UInt64.lt_iff_toNat_lt.mpr (hn ▸ hb.2)
  · rcases mem_append.mp hp with hp | hp
    · exact ⟨(h.pending p hp).1, hle (h.pending p hp).2⟩
    · have hh := UInt64.lt_iff_toNat_lt.mp h.horizon
      rw [mem_singleton.mp hp]
      exact ⟨UInt64.lt_iff_toNat_lt.mpr (by dsimp only; omega),
        UInt64.lt_iff_toNat_lt.mpr (by dsimp only; omega)⟩
  · intro p hp q hq
    have hp' := UInt64.lt_iff_toNat_lt.mp (h.pending p hp).2
    rw [mem_singleton.mp hq]
    exact UInt64.lt_iff_toNat_lt.mpr (by dsimp only; omega)

theorem Ordered.publish (h : s.Ordered) {p : PendingCommit} {pending : List PendingCommit}
    (hp : s.pending = p :: pending) : Ordered { s with horizon := p.last, pending } := by
  have hmem : p ∈ s.pending := hp ▸ mem_cons_self
  have hasc := h.ascending
  rw [hp, pairwise_cons] at hasc
  refine ⟨h.view, h.below, (h.pending p hmem).2, fun q hq => ?_, hasc.2, fun t ht => ?_⟩
  · exact ⟨hasc.1 q hq, (h.pending q (hp ▸ mem_cons_of_mem _ hq)).2⟩
  · exact (h.txn t ht).mono (h.pending p hmem).1.le

/-- The order is kept by every step but a compaction, and by one that keeps it. -/
theorem Ordered.step (h : s.Ordered) {op : Option MergeOperator} {a : SessionAction}
    (hcomp : ∀ live view, a = .compact live view → view.LsmOrdered ∧ view.Below s.next)
    (hs : s.step op a = some s') : s'.Ordered := by
  cases a with
  | begin keysInline =>
    obtain ⟨-, rfl⟩ := step_begin_eq_some.mp hs
    exact { h with txn := fun t ht => some.inj ht ▸ ⟨rfl, le_rfl, nofun⟩ }
  | get key =>
    obtain ⟨t, ht, rfl⟩ := step_get_eq_some.mp hs
    exact { h with txn := fun t' ht' => some.inj ht' ▸ (h.txn t ht).get op s.view _ }
  | getForUpdate key =>
    obtain ⟨-, t, ht, rfl⟩ := step_getForUpdate_eq_some.mp hs
    exact { h with txn := fun t' ht' => some.inj ht' ▸ (h.txn t ht).getForUpdate op s.view _ }
  | write call =>
    obtain ⟨t, t', ht, hmode, hsnap, htrk, -, hs'⟩ := step_write_eq_some hs
    have hw : t'.Within s.horizon := by
      have hold := h.txn t ht
      exact ⟨hmode.trans hold.mode, hsnap ▸ hold.snapshot, htrk ▸ hsnap ▸ hold.reads⟩
    rcases hs' with ⟨rfl, -⟩ | ⟨_, -, -, rfl⟩ <;>
      exact { h with txn := fun u hu => some.inj hu ▸ hw }
  | lock owner key =>
    obtain ⟨-, rfl⟩ := step_lock_eq_some.mp hs
    exact { h with }
  | unlock owner key =>
    obtain ⟨-, rfl⟩ := step_unlock_eq_some.mp hs
    exact { h with }
  | commit writer ops =>
    obtain ⟨⟨-, hne, hf⟩, rfl⟩ := step_commit_eq_some.mp hs
    exact h.commit hne hf
  | publish =>
    obtain ⟨p, pending, hp, rfl⟩ := step_publish_eq_some.mp hs
    exact h.publish hp
  | compact live view =>
    obtain ⟨hv, hb⟩ := hcomp live view rfl
    cases hs
    exact { h with view := hv, below := hb }

end Session

end RegolithStore
