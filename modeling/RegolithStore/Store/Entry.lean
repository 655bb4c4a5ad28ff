import Mathlib.Data.Prod.Lex
import RegolithStore.Lib.Bytes

/-! Entries: a user key, the sequence and kind of the write, and its bytes. The
memtable and the tables order entries by internal key, which is the user key
ascending, then the newest sequence first, then the type byte
(`internal_key.rs`). The encoded form packs the sequence inverted behind the user
key; here the three parts stay apart and the order is stated on them. -/

namespace RegolithStore

open Lib

/-- User keys compare as byte strings. -/
abbrev Key := Bytes

abbrev Value := Bytes

/-- Sequence numbers are `u64`, so `⊤` is `u64::MAX`. -/
abbrev Seq := UInt64

/-- `VALUE_TYPE_DELETION`, `VALUE_TYPE_VALUE` and `VALUE_TYPE_MERGE`. -/
inductive ValueType
  | deletion
  | value
  | merge
  deriving DecidableEq

def ValueType.byte : ValueType → UInt8
  | .deletion => 0
  | .value => 1
  | .merge => 2

theorem ValueType.byte_injective : Function.Injective ValueType.byte := by
  intro a b h
  cases a <;> cases b <;> first | rfl | exact absurd h (by decide)

structure Entry where
  userKey : Key
  seq : Seq
  valueType : ValueType
  value : Value
  deriving DecidableEq

variable {a b : Entry}

namespace Entry

/-- `compare_internal_keys` puts `a` before `b`. -/
def Before (a b : Entry) : Prop :=
  a.userKey < b.userKey ∨ a.userKey = b.userKey ∧
    (b.seq < a.seq ∨ a.seq = b.seq ∧ a.valueType.byte < b.valueType.byte)

instance (a b : Entry) : Decidable (Before a b) :=
  inferInstanceAs (Decidable (_ ∨ _))

def SameKey (a b : Entry) : Prop :=
  a.userKey = b.userKey ∧ a.seq = b.seq ∧ a.valueType = b.valueType

instance (a b : Entry) : Decidable (SameKey a b) :=
  inferInstanceAs (Decidable (_ ∧ _))

/-- What the order compares: keys ascending, sequences descending, types ascending. -/
def rank (e : Entry) : Key ×ₗ Seqᵒᵈ ×ₗ UInt8 :=
  toLex (e.userKey, toLex (OrderDual.toDual e.seq, e.valueType.byte))

theorem before_iff : Before a b ↔ a.rank < b.rank := by
  simp [Before, rank, Prod.Lex.toLex_lt_toLex]

theorem rank_eq_iff : a.rank = b.rank ↔ SameKey a b := by
  simp [rank, SameKey, ValueType.byte_injective.eq_iff]

theorem Before.irrefl (a : Entry) : ¬ Before a a := fun h => lt_irrefl _ (before_iff.mp h)

theorem Before.trans {c : Entry} (hab : Before a b) (hbc : Before b c) : Before a c :=
  before_iff.mpr ((before_iff.mp hab).trans (before_iff.mp hbc))

instance : Std.Irrefl Before := ⟨Before.irrefl⟩

instance : Std.Antisymm Before := ⟨fun a _ hab hba => absurd (hab.trans hba) (Before.irrefl a)⟩

theorem before_or_sameKey_or_before (a b : Entry) : Before a b ∨ SameKey a b ∨ Before b a := by
  simpa only [before_iff, rank_eq_iff] using lt_trichotomy a.rank b.rank

theorem Before.userKey_le (h : Before a b) : a.userKey ≤ b.userKey := by
  rcases h with h | ⟨h, -⟩
  · exact h.le
  · exact h.le

theorem Before.seq_le (h : Before a b) (hk : a.userKey = b.userKey) : b.seq ≤ a.seq := by
  rcases h with hlt | ⟨-, hlt | ⟨heq, -⟩⟩
  · exact absurd hk hlt.ne
  · exact hlt.le
  · exact heq.ge

end Entry

end RegolithStore
