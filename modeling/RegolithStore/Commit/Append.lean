import RegolithStore.Store.Lookup
import RegolithStore.Wal.Operations

/-! Numbering a commit's appends (`append.rs`, `counter.rs`). A commit that validated gives
each append the next position of its log, from the head the view holds and the appends it
numbered before, and turns it into plain puts. The caller's layout is a structure of its
answers; the containment of its panics is left out. -/

namespace RegolithStore

open Lib List

def defaultCfId : UInt32 := 1

/-- The family's id, big-endian, then the key. -/
def prefixKey (cfId : UInt32) (key : Key) : Key := beBytes 4 cfId.toNat ++ key

/-- `read_u64_in_view`: nothing is hidden by a sequence bound. -/
def ReadView.readU64InView (view : ReadView) (key : Key) : Except IoError (Option UInt64) :=
  match view.lookupInView key ⊤ with
  | none => .ok none
  | some value =>
    match readBeU64 value with
    | some n => .ok (some n)
    | none =>
      let held := value.length
      .error ⟨.invalidInput, s!"a log head, once key or allocation counter holds {held} bytes where "
        ++ "an 8-byte big-endian number is required; something else wrote it"⟩

structure LogLayout where
  headKey : Key
  entryKey : UInt64 → Key
  maxEntryKeyLen : Nat

structure PendingAppend where
  log : LogLayout
  entry : Value
  onceKey : Option Key

/-- The head one log has reached: where the commit found it, and where it moved it. -/
structure LogHead where
  key : Key
  settled : UInt64
  position : UInt64

/-- The running state of numbering one commit's appends; once keys are prefixed. -/
structure AppendOrder where
  logs : List LogHead
  taken : List Key
  memberTaken : List Key

namespace AppendOrder

def new : AppendOrder := ⟨[], [], []⟩

variable (view : ReadView) (order : AppendOrder)

/-- Whether the once key holds a position already; one found in the view is remembered. -/
def holdsPosition (once : Key) : Except IoError (Bool × AppendOrder) :=
  if once ∈ order.taken then .ok (true, order)
  else do
    match ← view.readU64InView once with
    | some _ => pure (true, { order with taken := once :: order.taken })
    | none => pure (false, order)

/-- The log's place among the heads, read from the view the first time the log is met. -/
def headOf (log : LogLayout) : Except IoError (Nat × AppendOrder) :=
  let key := prefixKey defaultCfId log.headKey
  match order.logs.findIdx? fun head => decide (head.key = key) with
  | some i => .ok (i, order)
  | none => do
    let position := (← view.readU64InView key).getD 0
    pure (order.logs.length, { order with logs := order.logs ++ [⟨key, position, position⟩] })

/-- The append takes the next position: its entry, and its once key's position. -/
def take (index : Nat) (append : PendingAppend) :
    Except IoError (AppendOrder × List WriteBatchOp) :=
  let last := (order.logs.map LogHead.position).getD index 0
  if last = ⊤ then
    .error ⟨.invalidInput, "the log has used every position a 64-bit number can name"⟩
  else
    let position := last + 1
    let key := append.log.entryKey position
    let declared := append.log.maxEntryKeyLen
    let built := key.length
    if declared < built then
      .error ⟨.invalidInput, s!"a log layout built an entry key of {built} bytes, longer than "
        ++ s!"the {declared} it declared"⟩
    else
      let entry := WriteBatchOp.put (prefixKey defaultCfId key) append.entry
      let logs := order.logs.modify index fun head => { head with position }
      match append.onceKey with
      | none => .ok ({ order with logs }, [entry])
      | some onceKey =>
        let once := prefixKey defaultCfId onceKey
        .ok (⟨logs, once :: order.taken, once :: order.memberTaken⟩,
          [entry, .put once (encodeBeU64 position)])

/-- One append: an append whose once key holds a position writes nothing. An error comes with
the order as it was left. -/
def numberOne (append : PendingAppend) :
    Except (IoError × AppendOrder) (AppendOrder × List WriteBatchOp) :=
  match append.onceKey.elim (.ok (false, order)) fun once =>
      order.holdsPosition view (prefixKey defaultCfId once) with
  | .error err => .error (err, order)
  | .ok (true, order) => .ok (order, [])
  | .ok (false, order) =>
    match order.headOf view append.log with
    | .error err => .error (err, order)
    | .ok (index, order) =>
      match order.take index append with
      | .error err => .error (err, order)
      | .ok taken => .ok taken

/-- `number_appends`, with the puts in the order they are pushed. -/
def numberAppends : AppendOrder → List PendingAppend →
    Except (IoError × AppendOrder) (AppendOrder × List WriteBatchOp)
  | order, [] => .ok (order, [])
  | order, append :: rest => do
    let (order, ops) ← order.numberOne view append
    let (order, more) ← numberAppends order rest
    pure (order, ops ++ more)

def headPuts (logs : List LogHead) : List WriteBatchOp :=
  (logs.filter fun head => decide (head.position ≠ head.settled)).map fun head =>
    .put head.key (encodeBeU64 head.position)

/-- `AppendOrder::number`: the puts, or the error with everything it took given back. -/
def number (appends : List PendingAppend) :
    Except IoError (List WriteBatchOp) × AppendOrder :=
  match order.numberAppends view appends with
  | .ok (order, ops) =>
    (.ok (ops ++ headPuts order.logs),
      ⟨order.logs.map fun head => { head with settled := head.position }, order.taken, []⟩)
  | .error (err, order) =>
    (.error err, ⟨order.logs.map fun head => { head with position := head.settled },
      order.taken.filter fun once => decide (once ∉ order.memberTaken), []⟩)

variable {view} {order order' : AppendOrder} {ops : List WriteBatchOp}
  {appends : List PendingAppend} {append : PendingAppend}

theorem take_eq_ok {index : Nat} (h : order.take index append = .ok (order', ops)) :
    let last := (order.logs.map LogHead.position).getD index 0
    last ≠ ⊤ ∧ (append.log.entryKey (last + 1)).length ≤ append.log.maxEntryKeyLen ∧
    order' = ⟨order.logs.modify index fun head => { head with position := last + 1 },
      (append.onceKey.map (prefixKey defaultCfId)).toList ++ order.taken,
      (append.onceKey.map (prefixKey defaultCfId)).toList ++ order.memberTaken⟩ ∧
    ops = .put (prefixKey defaultCfId (append.log.entryKey (last + 1))) append.entry ::
      (append.onceKey.map fun once =>
        .put (prefixKey defaultCfId once) (encodeBeU64 (last + 1))).toList := by
  intro last
  rw [take] at h
  by_cases hl : last = ⊤
  · rw [if_pos hl] at h
    cases h
  rw [if_neg hl] at h
  by_cases hlen : append.log.maxEntryKeyLen < (append.log.entryKey (last + 1)).length
  · rw [if_pos hlen] at h
    cases h
  rw [if_neg hlen] at h
  cases honce : append.onceKey with
  | none | some once =>
    rw [honce] at h
    cases h
    exact ⟨hl, not_lt.mp hlen, rfl, rfl⟩

/-- An append either finds its once key's position or takes the next one. -/
theorem numberOne_eq_ok (h : order.numberOne view append = .ok (order', ops)) : ∃ held checked,
      (append.onceKey.elim (.ok (false, order)) fun once =>
        order.holdsPosition view (prefixKey defaultCfId once)) = .ok (held, checked) ∧
      (held = true ∧ order' = checked ∧ ops = [] ∨ held = false ∧ ∃ index found,
        checked.headOf view append.log = .ok (index, found) ∧
        found.take index append = .ok (order', ops)) := by
  rw [numberOne] at h
  cases hh : append.onceKey.elim (.ok (false, order)) fun once =>
      order.holdsPosition view (prefixKey defaultCfId once) with
  | error err => rw [hh] at h; cases h
  | ok p =>
    obtain ⟨held, checked⟩ := p
    rw [hh] at h
    refine ⟨held, checked, rfl, ?_⟩
    cases held with
    | true =>
      cases h
      exact .inl ⟨rfl, rfl, rfl⟩
    | false =>
      refine .inr ⟨rfl, ?_⟩
      cases hhead : checked.headOf view append.log with
      | error err => simp only [hhead] at h; cases h
      | ok q =>
        obtain ⟨index, found⟩ := q
        simp only [hhead] at h
        refine ⟨index, found, rfl, ?_⟩
        cases ht : found.take index append with
        | error err => simp only [ht] at h; cases h
        | ok r => simp only [ht] at h; exact congrArg _ (Except.ok.inj h)

theorem numberAppends_cons {rest : List PendingAppend}
    (h : order.numberAppends view (append :: rest) = .ok (order', ops)) : ∃ next first more,
      order.numberOne view append = .ok (next, first) ∧
      next.numberAppends view rest = .ok (order', more) ∧ ops = first ++ more := by
  rw [numberAppends] at h
  cases hone : order.numberOne view append with
  | error err => rw [hone] at h; cases h
  | ok p =>
    obtain ⟨next, first⟩ := p
    cases hr : next.numberAppends view rest with
    | error err =>
      have h' : (next.numberAppends view rest >>= fun p => pure (p.1, first ++ p.2)) =
          Except.ok (order', ops) := by rw [hone] at h; exact h
      rw [hr] at h'
      cases h'
    | ok q =>
      have h' : (next.numberAppends view rest >>= fun p => pure (p.1, first ++ p.2)) =
          Except.ok (order', ops) := by rw [hone] at h; exact h
      rw [hr] at h'
      cases h'
      exact ⟨next, first, q.2, rfl, hr, rfl⟩

theorem number_eq_ok (h : (order.number view appends).1 = .ok ops) : ∃ order' taken,
      order.numberAppends view appends = .ok (order', taken) ∧ ops = taken ++ headPuts order'.logs := by
  rw [number] at h
  cases hnum : order.numberAppends view appends with
  | error err => rw [hnum] at h; cases h
  | ok p =>
    rw [hnum] at h
    exact ⟨p.1, p.2, rfl, (Except.ok.inj h).symm⟩

theorem numberAppends_puts (h : order.numberAppends view appends = .ok (order', ops)) :
    ∀ op ∈ ops, ∃ key value, op = .put key value := by
  induction appends generalizing order ops with
  | nil =>
    obtain ⟨-, rfl⟩ := Prod.mk.inj (Except.ok.inj h)
    exact nofun
  | cons append rest ih =>
    obtain ⟨next, first, more, hone, hr, rfl⟩ := numberAppends_cons h
    intro op hop
    rcases mem_append.mp hop with hop | hop
    · obtain ⟨held, checked, -, ⟨-, -, rfl⟩ | ⟨-, index, found, -, ht⟩⟩ := numberOne_eq_ok hone
      · exact absurd hop not_mem_nil
      · obtain ⟨-, -, -, rfl⟩ := take_eq_ok ht
        rcases mem_cons.mp hop with rfl | hop
        · exact ⟨_, _, rfl⟩
        · obtain ⟨once, -, rfl⟩ := Option.map_eq_some_iff.mp (Option.mem_toList.mp hop)
          exact ⟨_, _, rfl⟩
    · exact ih hr op hop

theorem number_puts (h : (order.number view appends).1 = .ok ops) :
    ∀ op ∈ ops, ∃ key value, op = .put key value := by
  obtain ⟨order', taken, ht, rfl⟩ := number_eq_ok h
  intro op hop
  rcases mem_append.mp hop with hop | hop
  · exact numberAppends_puts ht op hop
  · obtain ⟨head, -, rfl⟩ := mem_map.mp hop
    exact ⟨_, _, rfl⟩

end AppendOrder

end RegolithStore
