import Mathlib.Algebra.Order.Ring.Int
import Mathlib.Tactic.Common

/-! Conversions between the 32-bit integer types, on integers. -/

namespace NetDemo.Foundation

/-- A value stored in an unsigned 32-bit integer. -/
def uint (z : ℤ) : ℕ := (z % 2 ^ 32).toNat

/-- An unsigned 32-bit integer stored in a signed one. -/
def int32 (n : ℕ) : ℤ := if n < 2 ^ 31 then n else n - 2 ^ 32

theorem uint_natCast {n : ℕ} (h : n < 2 ^ 32) : uint n = n := by unfold uint; omega

theorem uint_int32 {n : ℕ} (h : n < 2 ^ 32) : uint (int32 n) = n := by
  unfold uint int32
  split_ifs <;> omega

theorem int32_of_lt {n : ℕ} (h : n < 2 ^ 31) : int32 n = n := if_pos h

theorem int32_pos_iff {n : ℕ} (h : n < 2 ^ 32) : 0 < int32 n ↔ 0 < n ∧ n < 2 ^ 31 := by
  unfold int32
  split_ifs <;> omega

end NetDemo.Foundation
