import Mathlib.Data.List.Lex
import Mathlib.Data.Nat.Basic
import Mathlib.Order.Basic
import Mathlib.Algebra.Order.Ring.Int
import Mathlib.Tactic.Common

/-! `memcmp`, and the lexicographic order of byte strings that it decides together with the lengths. -/

namespace NetDemo.Foundation
variable {s t : List UInt8} {n : ℕ}

/-- The bytes as values of `unsigned char`; lists of numbers are ordered lexicographically. -/
def unsignedBytes (s : List UInt8) : List ℕ := s.map UInt8.toNat

theorem unsignedBytes_injective : Function.Injective unsignedBytes :=
  List.map_injective_iff.mpr fun _ _ => UInt8.toNat_inj.mp

theorem unsignedBytes_cons_lt {a b : UInt8} :
    unsignedBytes (a :: s) < unsignedBytes (b :: t) ↔
      a.toNat < b.toNat ∨ a.toNat = b.toNat ∧ unsignedBytes s < unsignedBytes t := by
  simp only [unsignedBytes, List.map_cons]
  exact List.cons_lt_cons_iff

/-- The first `n` bytes of two blocks; the answer is the difference of the first two that differ. -/
def memcmp : List UInt8 → List UInt8 → ℕ → ℤ
  | a :: s, b :: t, n + 1 => if a = b then memcmp s t n else a.toNat - b.toNat
  | _, _, _ => 0

theorem memcmp_cons (a b : UInt8) (s t : List UInt8) (n : ℕ) :
    memcmp (a :: s) (b :: t) (n + 1) = if a = b then memcmp s t n else (a.toNat : ℤ) - b.toNat := rfl

theorem memcmp_zero (s t : List UInt8) : memcmp s t 0 = 0 := by
  cases s <;> cases t <;> rfl

theorem memcmp_swap (s t : List UInt8) (n : ℕ) : memcmp t s n = -memcmp s t n := by
  induction n generalizing s t with
  | zero => rw [memcmp_zero, memcmp_zero, neg_zero]
  | succ n ih =>
    cases s with
    | nil => cases t <;> rfl
    | cons a s =>
      cases t with
      | nil => rfl
      | cons b t =>
        rw [memcmp_cons, memcmp_cons]
        by_cases hab : a = b
        · rw [if_pos hab, if_pos hab.symm, ih]
        · rw [if_neg hab, if_neg (Ne.symm hab), neg_sub]

theorem memcmp_eq_zero_iff (hs : n ≤ s.length) (ht : n ≤ t.length) :
    memcmp s t n = 0 ↔ s.take n = t.take n := by
  induction n generalizing s t with
  | zero => simp [memcmp_zero]
  | succ n ih =>
    cases s with
    | nil => cases hs
    | cons a s =>
      cases t with
      | nil => cases ht
      | cons b t =>
        rw [memcmp_cons, List.take_succ_cons, List.take_succ_cons, List.cons.injEq]
        by_cases hab : a = b
        · rw [if_pos hab, ih (Nat.le_of_succ_le_succ hs) (Nat.le_of_succ_le_succ ht)]
          exact (and_iff_right hab).symm
        · have hne : a.toNat ≠ b.toNat := fun h => hab (UInt8.toNat_inj.mp h)
          rw [if_neg hab, sub_eq_zero, Nat.cast_inj]
          exact ⟨fun h => absurd h hne, fun h => absurd h.1 hab⟩

theorem memcmp_self (s : List UInt8) (n : ℕ) : memcmp s s n = 0 := by
  have h := memcmp_swap s s n
  omega

theorem unsignedBytes_lt_iff :
    unsignedBytes s < unsignedBytes t ↔ memcmp s t (min s.length t.length) < 0 ∨
      memcmp s t (min s.length t.length) = 0 ∧ s.length < t.length := by
  induction s generalizing t with
  | nil =>
    cases t with
    | nil => simp [memcmp_zero]
    | cons b t => simp [unsignedBytes, memcmp_zero]
  | cons a s ih =>
    cases t with
    | nil => simp [unsignedBytes, memcmp_zero]
    | cons b t =>
      rw [unsignedBytes_cons_lt, List.length_cons, List.length_cons, Nat.succ_min_succ, memcmp_cons, ih]
      by_cases hab : a = b
      · rw [if_pos hab, hab]
        simp
      · have hne : a.toNat ≠ b.toNat := fun h => hab (UInt8.toNat_inj.mp h)
        rw [if_neg hab]
        omega

end NetDemo.Foundation
