import RegolithStore.Lib.Counting
import RegolithStore.Lib.Runs
import RegolithStore.Sync.Queue

/-! The permit core of the semaphore. The free permits stand above the queue's bits in one
word of `w` bits; a release adds to the word without a check, modulo `2 ^ w`. Whatever the
callers, the waiters and the drain passes do, the permits in the word and those outside it
stay the initial ones plus those added, as long as that sum fits the word. -/

namespace RegolithStore.Sync

open Lib Option

def maxPermits (w : Nat) : Nat := (2 ^ w - 1) / 64

/-- Where a caller stands. A waiting or withdrawn one is also a node of the queue, for which
a pass may just have taken the permits. -/
inductive Phase
  | waiting (taken : Bool)
  | withdrawn (taken : Bool)
  | granted
  | held
  | returned
  deriving DecidableEq

structure Caller where
  need : Nat
  phase : Phase
  deriving DecidableEq

def Caller.out (c : Caller) : Nat :=
  match c.phase with
  | .waiting taken | .withdrawn taken => if taken then c.need else 0
  | .granted | .held => c.need
  | .returned => 0

structure RawSemaphore where
  word : Nat
  callers : List Caller
  deriving DecidableEq

namespace RawSemaphore

def new (w permits : Nat) : Option RawSemaphore :=
  if permits ≤ maxPermits w then some ⟨permits * 64, []⟩ else none

def available (s : RawSemaphore) : Nat := s.word / 64

def admitNeed (word need : Nat) : Option Nat :=
  if need ≤ word / 64 then some (word - need * 64) else none

def fetchAdd (w word n : Nat) : Nat := (word + n * 64) % 2 ^ w

/-- What a fresh caller's attempt leaves: never past an owed handoff, except for nothing. -/
def tryTake (word need : Nat) : Option Nat :=
  if need = 0 then some word else if up handoff word then none else admitNeed word need

/-- The request to the queue that goes with added permits. -/
def addFlags (word : Nat) : Nat × Nat :=
  (0, if up queued word then wakeFront ||| wakeFlag word else 0)

/-- No word: the call panics. -/
def add (w word n : Nat) : Option Nat :=
  if n = 0 then some word
  else if word / 64 + n ≤ maxPermits w then
    some (setFlags (word % 64 + (word / 64 + n) * 64) (addFlags word))
  else none

/-- Caller `i` goes on to the phase that `f` gives, with the word that `word` gives. -/
def move (s : RawSemaphore) (i : Nat) (f : Phase → Option Phase) (word : Nat → Option Nat) :
    Option RawSemaphore :=
  s.callers[i]?.bind fun c => (f c.phase).bind fun phase =>
    (word c.need).map fun word => ⟨word, s.callers.set i ⟨c.need, phase⟩⟩

end RawSemaphore

/-- The atomic updates of the calls in progress, in any order. A drop of a granted wait is
a `poll` followed by the `release` of what it was given. -/
inductive Action
  | take (need : Nat)
  | push (need : Nat)
  | addPermits (n : Nat)
  | release (i : Nat)
  | takeForWaiter (i : Nat)
  | grant (i : Nat)
  | giveBack (i : Nat)
  | poll (i : Nat)
  | withdraw (i : Nat)
  | mark (m : Mark)
  deriving DecidableEq

namespace RawSemaphore

def step (w : Nat) (s : RawSemaphore) : Action → Option RawSemaphore
  | .take need => (tryTake s.word need).map fun word => ⟨word, s.callers ++ [⟨need, .held⟩]⟩
  | .push need => some { s with callers := s.callers ++ [⟨need, .waiting false⟩] }
  | .addPermits n => (add w s.word n).map fun word => { s with word }
  | .release i => s.move i (fun | .held => some .returned | _ => none)
      fun need => some (fetchAdd w s.word need)
  | .takeForWaiter i => s.move i
      (fun | .waiting false => some (.waiting true)
           | .withdrawn false => some (.withdrawn true)
           | _ => none)
      (admitNeed s.word)
  | .grant i => s.move i (fun | .waiting true => some .granted | _ => none) fun _ => some s.word
  -- the waiter had withdrawn, so the pass puts back what it took for it
  | .giveBack i => s.move i (fun | .withdrawn true => some (.withdrawn false) | _ => none)
      fun need => some (fetchAdd w s.word need)
  | .poll i => s.move i (fun | .granted => some .held | _ => none) fun _ => some s.word
  | .withdraw i => s.move i (fun | .waiting taken => some (.withdrawn taken) | _ => none)
      fun _ => some s.word
  | .mark m =>
    if m.enabled s.word then some { s with word := setFlags s.word (m.flags s.word) } else none

def out (s : RawSemaphore) : Nat := (s.callers.map Caller.out).sum

end RawSemaphore

open RawSemaphore

def Action.added : Action → Nat
  | .addPermits n => n
  | _ => 0

def Action.flags (word : Nat) : Action → Nat × Nat
  | .addPermits n => if n = 0 then (0, 0) else addFlags word
  | .mark m => m.flags word
  | _ => (0, 0)

namespace RawSemaphore

variable {w word word' need n : Nat} {s s' : RawSemaphore} {a : Action}

theorem lt_two_pow_of_div_le (hw : 6 ≤ w) (h : word / 64 ≤ maxPermits w) : word < 2 ^ w := by
  obtain ⟨v, rfl⟩ := Nat.exists_eq_add_of_le hw
  have hpos : 0 < 2 ^ v := Nat.two_pow_pos v
  rw [maxPermits, Nat.pow_add] at h
  rw [Nat.pow_add]
  omega

theorem fetchAdd_div (hw : 6 ≤ w) (h : word / 64 + n ≤ maxPermits w) :
    fetchAdd w word n / 64 = word / 64 + n := by
  have hsum : (word + n * 64) / 64 = word / 64 + n := Nat.add_mul_div_right _ _ (by decide)
  rw [fetchAdd, Nat.mod_eq_of_lt (lt_two_pow_of_div_le hw (hsum ▸ h)), hsum]

theorem fetchAdd_flags (hw : 6 ≤ w) : fetchAdd w word n % 64 = word % 64 := by
  rw [fetchAdd, Nat.mod_mod_of_dvd _ (Nat.pow_dvd_pow 2 hw), Nat.add_mul_mod_self_right]

theorem admitNeed_spec (h : admitNeed word n = some word') :
    word' / 64 + n = word / 64 ∧ word' % 64 = word % 64 := by
  obtain ⟨hle, rfl⟩ := guarded_eq_some.mp h
  omega

theorem addFlags_lt : (addFlags word).2 < 64 := by
  unfold addFlags wakeFlag
  (repeat' split) <;> decide

theorem add_spec (h : add w word n = some word') : word' / 64 = word / 64 + n ∧
    word' % 64 = setFlags word ((Action.addPermits n).flags word) % 64 := by
  unfold add at h
  rw [Action.flags]
  split at h
  case isTrue hz =>
    obtain rfl := some.inj h
    simp [hz, setFlags]
  case isFalse hpos =>
    obtain ⟨-, rfl⟩ := guarded_eq_some.mp h
    rw [if_neg hpos]
    exact ⟨(or_div_flags addFlags_lt).trans (by simp [addFlags]; omega),
      or_mod_flags (by simp [addFlags])⟩

theorem out_le {c : Caller} (h : c ∈ s.callers) : c.out ≤ s.out :=
  le_sum_map h

theorem move_spec {i : Nat} {f : Phase → Option Phase} {next : Nat → Option Nat}
    (h : s.move i f next = some s') :
    ∃ need phase phase', f phase = some phase' ∧ next need = some s'.word ∧
      Caller.out ⟨need, phase⟩ ≤ s.out ∧
      s'.out + Caller.out ⟨need, phase⟩ = s.out + Caller.out ⟨need, phase'⟩ := by
  simp only [move, bind_eq_some_iff, map_eq_some_iff] at h
  obtain ⟨c, hc, phase', hph, word', hw, rfl⟩ := h
  exact ⟨c.need, c.phase, phase', hph, hw, out_le (List.mem_of_getElem? hc), sum_map_set_add hc⟩

/-- What a step does: the queue changes its own bits, or permits are added, or taken out of
the word, or some of those outside come back. -/
theorem step_cases (h : step w s a = some s') :
    (∃ m, a = .mark m ∧ s'.word = setFlags s.word (m.flags s.word) ∧ s'.out = s.out) ∨
    (∃ n, a = .addPermits n ∧ add w s.word n = some s'.word ∧ s'.out = s.out) ∨
    (a.added = 0 ∧ a.flags s.word = (0, 0) ∧ ∃ n,
      (admitNeed s.word n = some s'.word ∧ s'.out = s.out + n ∨
        n ≤ s.out ∧ fetchAdd w s.word n = s'.word ∧ s'.out + n = s.out)) := by
  have hn : admitNeed s.word 0 = some s.word := by simp [admitNeed]
  have hpush (word : Nat) (c : Caller) : out ⟨word, s.callers ++ [c]⟩ = s.out + c.out := by
    simp [out]
  cases a with
  | mark m =>
    obtain ⟨-, rfl⟩ := guarded_eq_some.mp h
    exact .inl ⟨m, rfl, rfl, rfl⟩
  | take need =>
    obtain ⟨word', hw, rfl⟩ := map_eq_some_iff.mp h
    refine .inr (.inr ⟨rfl, rfl, need, .inl ⟨?_, hpush _ _⟩⟩)
    unfold tryTake at hw
    split at hw
    case isTrue hz => rw [hz, hn, ← hw]
    case isFalse => exact (ite_none_left_eq_some.mp hw).2
  | push need =>
    obtain rfl := some.inj h
    exact .inr (.inr ⟨rfl, rfl, 0, .inl ⟨hn, hpush _ _⟩⟩)
  | addPermits n =>
    obtain ⟨word', hw, rfl⟩ := map_eq_some_iff.mp h
    exact .inr (.inl ⟨n, rfl, hw, rfl⟩)
  | _ =>
    dsimp only [step] at h
    obtain ⟨need, (_ | _) | (_ | _) | _ | _ | _, phase', hph, hw, hle, hout⟩ :=
      move_spec h
    all_goals cases hph
    -- the permits go out of the word, or come back, or change hands outside it
    all_goals refine .inr (.inr ⟨rfl, rfl, ?_⟩)
    all_goals first
      | exact ⟨need, .inl ⟨hw, hout⟩⟩
      | exact ⟨need, .inr ⟨hle, some.inj hw, hout⟩⟩
      | exact ⟨0, .inl ⟨hn.trans hw, Nat.add_right_cancel hout⟩⟩

/-- Every update keeps the total. -/
theorem total_step (hw : 6 ≤ w) (h : step w s a = some s')
    (hmax : s.available + s.out + a.added ≤ maxPermits w) :
    s'.available + s'.out = s.available + s.out + a.added := by
  unfold available at hmax ⊢
  obtain ⟨m, rfl, hword, hout⟩ | ⟨n, rfl, hadd, hout⟩ |
    ⟨hadded, -, n, ⟨hneed, hout⟩ | ⟨hle, hword, hout⟩⟩ := step_cases h
  · rw [hword, m.setFlags_div, hout]
    rfl
  · rw [(add_spec hadd).1, hout, Action.added, Nat.add_right_comm]
  · have := (admitNeed_spec hneed).1
    omega
  · rw [← hword, fetchAdd_div hw (by omega)]
    omega

/-- The flags change as the action asks the queue, whatever the permits do. -/
theorem flags_step (hw : 6 ≤ w) (h : step w s a = some s') :
    s'.word % 64 = setFlags s.word (a.flags s.word) % 64 := by
  have hk : setFlags s.word (0, 0) = s.word := by simp [setFlags]
  obtain ⟨m, rfl, hword, -⟩ | ⟨n, rfl, hadd, -⟩ |
    ⟨-, hflags, n, ⟨hneed, -⟩ | ⟨-, hword, -⟩⟩ := step_cases h
  · rw [hword, Action.flags]
  · exact (add_spec hadd).2
  · rw [(admitNeed_spec hneed).2, hflags, hk]
  · rw [← hword, fetchAdd_flags hw, hflags, hk]

/-- So does every run of updates. -/
theorem total_run (hw : 6 ≤ w) {as : List Action} (h : run (step w) s as = some s')
    (hmax : s.available + s.out + (as.map Action.added).sum ≤ maxPermits w) :
    s'.available + s'.out = s.available + s.out + (as.map Action.added).sum := by
  induction as generalizing s with
  | nil => rw [← some.inj h, List.map_nil, List.sum_nil, Nat.add_zero]
  | cons a as ih =>
    rw [List.map_cons, List.sum_cons] at hmax ⊢
    obtain ⟨t, ht, hr⟩ := run_cons.mp h
    have hone := total_step hw ht (by omega)
    rw [ih hr (by omega)]
    omega

/-- As long as the initial permits and those added fit the word, no permit is lost or made
up and no update of the word wraps; and permit arithmetic leaves the queue's bits alone. -/
theorem permits_conserved (hw : 6 ≤ w) {permits : Nat} {as : List Action}
    (hrun : (new w permits).bind (run (step w) · as) = some s)
    (hmax : permits + (as.map Action.added).sum ≤ maxPermits w) :
    s.available + s.out = permits + (as.map Action.added).sum ∧ s.word < 2 ^ w ∧
      (∀ c ∈ s.callers, s.word + c.out * 64 < 2 ^ w) ∧
      ∀ a s', step w s a = some s' → s'.word % 64 = setFlags s.word (a.flags s.word) % 64 := by
  obtain ⟨t, ht, hrun⟩ := bind_eq_some_iff.mp hrun
  obtain ⟨-, rfl⟩ := guarded_eq_some.mp ht
  have hnew : available ⟨permits * 64, []⟩ + out ⟨permits * 64, []⟩ = permits :=
    Nat.mul_div_cancel _ (by decide)
  have htotal := total_run hw hrun (hnew.symm ▸ hmax)
  rw [hnew] at htotal
  have hfits {n : Nat} (hn : n ≤ s.out) : s.word + n * 64 < 2 ^ w :=
    lt_two_pow_of_div_le hw (by unfold available at htotal; omega)
  exact ⟨htotal, hfits (Nat.zero_le _), fun c hc => hfits (out_le hc),
    fun a s' h => flags_step hw h⟩

/-- A pass takes for a waiter that withdraws meanwhile. -/
def handsBack : List Action :=
  [.take 1, .push 1, .mark .enqueue, .mark .owe, .release 0, .takeForWaiter 1, .withdraw 1,
    .giveBack 1, .addPermits 2]

/-- Permits handed back by a waiter that withdrew. -/
theorem permits_conserved_handsBack :
    ∃ s, (new 64 1).bind (run (step 64) · handsBack) = some s ∧ s.available + s.out = 3 :=
  have hrun : (new 64 1).bind (run (step 64) · handsBack) =
    some ⟨3 * 64 + 55, [⟨1, .returned⟩, ⟨1, .withdrawn false⟩]⟩ := by decide +kernel
  ⟨_, hrun, (permits_conserved (by decide) hrun (by decide +kernel)).1⟩

/-- The check of `add` sees the free permits only: those a caller holds come on top of them
when they are released, and the word wraps. -/
theorem release_wraps : ∃ s,
    (new 64 (maxPermits 64)).bind (run (step 64) · [.take 1, .addPermits 1, .release 0]) =
      some s ∧ s.available + s.out = 0 ∧ s.available + s.out ≠ maxPermits 64 + 1 :=
  ⟨⟨0, [⟨1, .returned⟩]⟩, by decide +kernel, by decide +kernel, by decide +kernel⟩

end RawSemaphore

end RegolithStore.Sync
