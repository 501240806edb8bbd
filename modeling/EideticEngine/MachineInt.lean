/-
# Fixed-width unsigned arithmetic on `ℕ`

The unsigned machine integers are natural numbers with the overflow behaviour of
the operation that the program calls: `saturating_add` stops at the largest value
of the width, `checked_add` fails past it, and `wrapping_add` and a plain `sum` of a
release build are taken modulo the width.  `saturating_sub` is the truncated
subtraction of `ℕ` and has no definition of its own.
-/
import Mathlib.Algebra.GroupWithZero.Nat
import Mathlib.Order.Lattice

/-- `u32::MAX`. -/
def u32Max : ℕ := 4294967295

/-- `u64::MAX`, and `usize::MAX` on the 64-bit targets. -/
def u64Max : ℕ := 18446744073709551615

/-- `i64::MAX`. -/
def i64Max : ℕ := 9223372036854775807

/-- `u32::saturating_add`. -/
def satAdd32 (a b : ℕ) : ℕ := min (a + b) u32Max

/-- `u64::saturating_add`. -/
def satAdd64 (a b : ℕ) : ℕ := min (a + b) u64Max

/-- `u32::checked_add`. -/
def checkedAdd32 (a b : ℕ) : Option ℕ := if a + b ≤ u32Max then some (a + b) else none

/-- `AtomicU64::fetch_add` and `u64::wrapping_add`. -/
def wrappingAdd64 (a b : ℕ) : ℕ := (a + b) % 2 ^ 64

/-- `Iterator::sum::<u32>`, which wraps in a release build. -/
def wrappingSum32 (values : List ℕ) : ℕ := values.sum % 2 ^ 32

/-- Below the largest value a saturating addition is the addition. -/
theorem satAdd32_of_le {a b : ℕ} (h : a + b ≤ u32Max) : satAdd32 a b = a + b :=
  Nat.min_eq_left h

theorem satAdd64_of_lt {a b : ℕ} (h : a + b < 2 ^ 64) : satAdd64 a b = a + b := by
  unfold satAdd64 u64Max
  omega

theorem wrappingAdd64_of_lt {a b : ℕ} (h : a + b < 2 ^ 64) : wrappingAdd64 a b = a + b :=
  Nat.mod_eq_of_lt h

/-- A wrapping sum is the sum exactly when the sum is a `u32`. -/
theorem wrappingSum32_eq_sum_iff {values : List ℕ} :
    wrappingSum32 values = values.sum ↔ values.sum ≤ u32Max := by
  unfold wrappingSum32 u32Max
  constructor
  · intro h
    have hlt := Nat.mod_lt values.sum (Nat.two_pow_pos 32)
    omega
  · intro h
    apply Nat.mod_eq_of_lt
    omega

theorem checkedAdd32_eq_some_iff {a b c : ℕ} :
    checkedAdd32 a b = some c ↔ c = a + b ∧ a + b ≤ u32Max := by
  unfold checkedAdd32
  split
  · rename_i h
    simp [h, eq_comm]
  · rename_i h
    simp [h]
