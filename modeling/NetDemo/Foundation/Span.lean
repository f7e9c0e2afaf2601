import Mathlib.Data.List.TakeWhile
import Mathlib.Tactic.Common

/-! The longest prefix of a list whose elements satisfy a test, and what comes behind it. -/

namespace NetDemo.Foundation
variable {α : Type} {p : α → Bool} {l t : List α} {k : ℕ}

theorem take_length_takeWhile (p : α → Bool) (l : List α) :
    l.take (l.takeWhile p).length = l.takeWhile p :=
  (List.prefix_iff_eq_take.mp (List.takeWhile_prefix p)).symm

theorem drop_length_takeWhile (p : α → Bool) (l : List α) :
    l.drop (l.takeWhile p).length = l.dropWhile p := by
  have h : (l.takeWhile p ++ l.dropWhile p).drop (l.takeWhile p).length = l.dropWhile p := List.drop_left
  rwa [List.takeWhile_append_dropWhile] at h

theorem length_takeWhile_lt_iff : (l.takeWhile p).length < l.length ↔ l.dropWhile p ≠ [] := by
  rw [← drop_length_takeWhile, Ne, List.drop_eq_nil_iff, Nat.not_le]

theorem takeWhile_drop (h : k ≤ (l.takeWhile p).length) :
    (l.drop k).takeWhile p = (l.takeWhile p).drop k := by
  induction l generalizing k with
  | nil => simp
  | cons a t ih =>
    cases k with
    | zero => rfl
    | succ k =>
      by_cases ha : p a
      · simp only [List.takeWhile_cons_of_pos ha, List.length_cons, Nat.add_le_add_iff_right] at h ⊢
        exact ih h
      · simp [List.takeWhile_cons_of_neg ha] at h

theorem takeWhile_set {b : α} (hb : p b = false) (h : k < (l.takeWhile p).length) :
    (l.set k b).takeWhile p = (l.takeWhile p).take k := by
  induction l generalizing k with
  | nil => simp
  | cons a t ih =>
    by_cases ha : p a
    · cases k with
      | zero => simp [hb]
      | succ k =>
        simp only [List.takeWhile_cons_of_pos ha, List.length_cons, Nat.add_lt_add_iff_right] at h
        simp only [List.set_cons_succ, List.takeWhile_cons_of_pos ha, List.take_succ_cons, ih h]
    · simp [List.takeWhile_cons_of_neg ha] at h

theorem span_append (hl : ∀ a ∈ l, p a) (ht : ∀ a ∈ t.head?, p a = false) :
    (l ++ t).takeWhile p = l ∧ (l ++ t).dropWhile p = t := by
  rw [List.takeWhile_append_of_pos hl, List.dropWhile_append_of_pos hl]
  cases t with
  | nil => exact ⟨List.append_nil l, rfl⟩
  | cons a t =>
    have ha : ¬ p a := by simp [ht a rfl]
    rw [List.takeWhile_cons_of_neg ha, List.dropWhile_cons_of_neg ha, List.append_nil]
    exact ⟨rfl, rfl⟩

theorem span_between {s : List α} (hs : ∀ a ∈ s, p a) (hne : l ≠ []) (hl : ∀ a ∈ l, p a = false)
    (ht : ∀ a ∈ t.head?, p a) :
    ((s ++ (l ++ t)).dropWhile p).takeWhile (fun a => !p a) = l ∧
    ((s ++ (l ++ t)).dropWhile p).dropWhile (fun a => !p a) = t := by
  have hskip : (s ++ (l ++ t)).dropWhile p = l ++ t := by
    refine (span_append hs fun a ha => ?_).2
    obtain ⟨b, l', rfl⟩ := List.exists_cons_of_ne_nil hne
    obtain rfl := Option.some.inj ha
    exact hl b List.mem_cons_self
  rw [hskip]
  exact span_append (fun a ha => by simp [hl a ha]) fun a ha => by simp [ht a ha]

theorem takeWhile_append_of_fails (h : ∃ a ∈ l, p a = false) : (l ++ t).takeWhile p = l.takeWhile p := by
  obtain ⟨a, ha, hp⟩ := h
  rw [List.takeWhile_append]
  refine if_neg fun hlen => ?_
  rw [← (List.takeWhile_prefix p).eq_of_length hlen] at ha
  rw [List.mem_takeWhile_imp ha] at hp
  cases hp

theorem head?_dropWhile {a : α} (h : (l.dropWhile p).head? = some a) : p a = false := by
  have hstop := List.head?_dropWhile_not p l
  rw [h] at hstop
  simpa using hstop

theorem takeWhile_dropWhile_eq_nil_iff :
    (l.dropWhile p).takeWhile (fun a => !p a) = [] ↔ ∀ a ∈ l, p a := by
  rw [← List.dropWhile_eq_nil_iff]
  cases h : l.dropWhile p with
  | nil => simp
  | cons a t =>
    have ha : p a = false := head?_dropWhile (congrArg List.head? h)
    simp [ha]

end NetDemo.Foundation
