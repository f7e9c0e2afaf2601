import Mathlib.Algebra.Order.Ring.Int
import Mathlib.Data.List.TakeWhile
import Mathlib.Tactic.Common

/-! `Slice` as the bytes between its two pointers. What the source takes away from the front of a
slice is returned first, what stays in the slice second. -/

namespace NetDemo.Http

abbrev Bytes := List UInt8

/-- The bytes of a string literal of the source. -/
def ascii (s : String) : Bytes := s.toList.map fun c => c.toNat.toUInt8

abbrev crlf : Bytes := [0x0d, 0x0a]

abbrev crlfcrlf : Bytes := [0x0d, 0x0a, 0x0d, 0x0a]

/-- `isspace` in the C locale. -/
def isspace (b : UInt8) : Bool := b == 0x20 || (0x09 ≤ b && b ≤ 0x0d)

def isEol (b : UInt8) : Bool := b == 0x0d || b == 0x0a

namespace Slice

def eatWord (s : Bytes) : Bytes × Bytes :=
  let b := s.dropWhile isspace
  (b.takeWhile fun c => !isspace c, b.dropWhile fun c => !isspace c)

def eatLine (s : Bytes) : Bytes × Bytes :=
  (s.takeWhile fun c => !isEol c, s.dropWhile fun c => !isEol c)

def eat (s : Bytes) (sz : ℕ) : Bytes × Bytes := (s.take sz, s.drop sz)

def sub (s : Bytes) (boff eoff : ℤ) : Bytes := (s.take (s.length + eoff).toNat).drop boff.toNat

def back (s : Bytes) : Option UInt8 := s.getLast?

end Slice

/-! ### How many words a line has -/

/-- The number of words of a text, counted at their last bytes. -/
def wordEnds : Bytes → ℕ
  | [] => 0
  | a :: t => (if !isspace a && t.head?.all isspace then 1 else 0) + wordEnds t

theorem wordEnds_blank_append {s : Bytes} (hs : ∀ b ∈ s, isspace b) (t : Bytes) :
    wordEnds (s ++ t) = wordEnds t := by
  induction s with
  | nil => rfl
  | cons a s ih =>
    rw [List.cons_append, wordEnds, ih fun b hb => hs b (List.mem_cons_of_mem _ hb),
      if_neg (by simp [hs a List.mem_cons_self]), Nat.zero_add]

theorem wordEnds_word_append {w : Bytes} (hw : w ≠ []) (hns : ∀ b ∈ w, isspace b = false) {t : Bytes}
    (ht : ∀ b ∈ t.head?, isspace b) : wordEnds (w ++ t) = 1 + wordEnds t := by
  induction w with
  | nil => exact absurd rfl hw
  | cons a w ih =>
    rw [List.cons_append, wordEnds]
    cases w with
    | nil =>
      have hend : t.head?.all isspace = true := (Option.all_eq_true ..).mpr ht
      rw [List.nil_append, if_pos (by rw [hns a List.mem_cons_self, hend]; rfl)]
    | cons c w =>
      have hc : isspace c = false := hns c (by simp)
      rw [ih (by simp) fun b hb => hns b (List.mem_cons_of_mem _ hb), if_neg (by simp [hc]),
        Nat.zero_add]

theorem wordEnds_dropWhile (s : Bytes) : wordEnds (s.dropWhile isspace) = wordEnds s := by
  have hblank : ∀ b ∈ s.takeWhile isspace, isspace b := fun b hb => List.mem_takeWhile_imp hb
  rw [← wordEnds_blank_append hblank, List.takeWhile_append_dropWhile]

theorem wordEnds_eatWord {s : Bytes} (h : (Slice.eatWord s).1 ≠ []) :
    wordEnds s = 1 + wordEnds (Slice.eatWord s).2 := by
  have hsplit : (Slice.eatWord s).1 ++ (Slice.eatWord s).2 = s.dropWhile isspace :=
    List.takeWhile_append_dropWhile
  rw [← wordEnds_dropWhile, ← hsplit, wordEnds_word_append h]
  · intro b hb
    simpa using List.mem_takeWhile_imp hb
  · intro b hb
    have hstop := List.head?_dropWhile_not (fun c => !isspace c) (s.dropWhile isspace)
    rw [show (s.dropWhile isspace).dropWhile (fun c => !isspace c) = (Slice.eatWord s).2 from rfl,
      show (Slice.eatWord s).2.head? = some b from hb] at hstop
    simpa using hstop

theorem eatWord_ne_nil {s : Bytes} (h : (Slice.eatWord (Slice.eatWord s).2).1 ≠ []) :
    (Slice.eatWord s).1 ≠ [] := by
  intro he
  have hd : s.dropWhile isspace = [] := by
    cases hc : s.dropWhile isspace with
    | nil => rfl
    | cons a t =>
      have hstop := List.head?_dropWhile_not isspace s
      rw [hc] at hstop
      simp only [List.head?_cons] at hstop
      simp [Slice.eatWord, hc, hstop] at he
  simp [Slice.eatWord, hd] at h

theorem three_le_wordEnds {s : Bytes}
    (h : (Slice.eatWord (Slice.eatWord (Slice.eatWord s).2).2).1 ≠ []) : 3 ≤ wordEnds s := by
  have h₂ := eatWord_ne_nil h
  have h₁ := eatWord_ne_nil h₂
  rw [wordEnds_eatWord h₁, wordEnds_eatWord h₂, wordEnds_eatWord h]
  omega

end NetDemo.Http
