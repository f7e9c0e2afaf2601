import NetDemo.Foundation.CString

/-! The first place of a pattern in a list, and `strstr`, which looks for it in a C string. -/

namespace NetDemo.Foundation

section
variable {α : Type} [DecidableEq α] {p l t : List α} {k : ℕ}

/-- Where `p` begins for the first time. -/
def search (p : List α) : List α → Option ℕ
  | [] => if p = [] then some 0 else none
  | a :: t => if p <+: a :: t then some 0 else (search p t).map (· + 1)

theorem search_nil (hp : p ≠ []) : search p [] = none := if_neg hp

theorem search_cons (p : List α) (a : α) (t : List α) :
    search p (a :: t) = if p <+: a :: t then some 0 else (search p t).map (· + 1) := rfl

/-- The first place is the least one, and the pattern ends within the list. -/
theorem search_some (h : search p l = some k) :
    p <+: l.drop k ∧ k + p.length ≤ l.length ∧ ∀ j < k, ¬ p <+: l.drop j := by
  induction l generalizing k with
  | nil =>
    rw [search] at h
    split_ifs at h with hp
    obtain rfl := Option.some.inj h
    simp [hp]
  | cons a t ih =>
    rw [search_cons] at h
    split_ifs at h with hp
    · obtain rfl := Option.some.inj h
      exact ⟨hp, by simpa using hp.length_le, fun j hj => absurd hj (Nat.not_lt_zero j)⟩
    · obtain ⟨j, hj, rfl⟩ := Option.map_eq_some_iff.mp h
      obtain ⟨hpre, hlen, hleast⟩ := ih hj
      refine ⟨hpre, by rw [List.length_cons]; omega, fun i hi => ?_⟩
      cases i with
      | zero => exact hp
      | succ i => exact hleast i (Nat.lt_of_succ_lt_succ hi)

theorem search_isSome_iff : (search p l).isSome ↔ p <:+: l := by
  induction l with
  | nil => by_cases hp : p = [] <;> simp [search, hp]
  | cons a t ih =>
    rw [search_cons, List.infix_cons_iff, ← ih]
    split_ifs with h <;> simp [h]

theorem search_append (h : search p l = some k) (t : List α) : search p (l ++ t) = some k := by
  induction l generalizing k with
  | nil =>
    rw [search] at h
    split_ifs at h with hp
    obtain rfl := Option.some.inj h
    cases t with
    | nil => exact if_pos hp
    | cons b t => exact if_pos (hp ▸ List.nil_prefix)
  | cons a s ih =>
    rw [search_cons] at h
    rw [List.cons_append, search_cons]
    split_ifs at h with hp
    · rw [if_pos]
      · exact h
      · exact hp.trans (List.prefix_append (a :: s) t)
    · obtain ⟨j, hj, rfl⟩ := Option.map_eq_some_iff.mp h
      obtain ⟨-, hlen, -⟩ := search_some hj
      rw [if_neg, ih hj, Option.map_some]
      intro hpre
      have hfit : p.length ≤ (a :: s).length := by
        rw [List.length_cons]
        omega
      exact hp (List.prefix_of_prefix_length_le hpre (List.prefix_append (a :: s) t) hfit)

omit [DecidableEq α] in
theorem prefix_takeWhile_iff {q : α → Bool} (hq : ∀ b ∈ p, q b) : p <+: l.takeWhile q ↔ p <+: l := by
  refine ⟨fun h => h.trans (List.takeWhile_prefix q), fun h => ?_⟩
  obtain ⟨t, rfl⟩ := h
  rw [List.takeWhile_append_of_pos hq]
  exact List.prefix_append ..

/-- In the part of a list that satisfies a test, a pattern that satisfies it is found unless the test
fails before its first place. -/
theorem search_takeWhile {q : α → Bool} (hp : p ≠ []) (hq : ∀ b ∈ p, q b) :
    search p (l.takeWhile q) = (search p l).filter fun k => (l.take k).all q := by
  induction l with
  | nil => rw [List.takeWhile_nil, search_nil hp, Option.filter_none]
  | cons a t ih =>
    by_cases ha : q a
    · have hpre := prefix_takeWhile_iff (l := a :: t) hq
      rw [List.takeWhile_cons_of_pos ha] at hpre ⊢
      simp only [search_cons, hpre]
      split_ifs with h
      · rfl
      · rw [ih]
        cases search p t with
        | none => rfl
        | some k => by_cases hk : (t.take k).all q <;> simp [Option.filter, hk, ha]
    · have hno : ¬ p <+: a :: t := fun h => by
        rw [← prefix_takeWhile_iff hq, List.takeWhile_cons_of_neg ha, List.prefix_nil] at h
        exact hp h
      rw [List.takeWhile_cons_of_neg ha, search_nil hp, search_cons, if_neg hno]
      cases search p t with
      | none => rfl
      | some k => simp [Option.filter, ha]

end

/-- `strstr` in the memory from the string on, which ends with it; `none` when it reads beyond. -/
def strstr (p : List UInt8) : List UInt8 → Option (Option ℕ)
  | [] => if p = [] then some (some 0) else none
  | a :: t =>
    if p <+: a :: t then some (some 0)
    else if a = 0 then some none
    else (strstr p t).map (Option.map (· + 1))

variable {p mem : List UInt8}

theorem strstr_eq (hp : p ≠ []) (h0 : 0 ∉ p) (mem : List UInt8) : strstr p mem =
    if 0 ∈ mem ∨ (search p mem).isSome then some (search p (mem.takeWhile (· ≠ 0))) else none := by
  have hq : ∀ b ∈ p, decide (b ≠ 0) = true := fun b hb => decide_eq_true fun h => h0 (h ▸ hb)
  induction mem with
  | nil => simp [strstr, hp, search]
  | cons a t ih =>
    have hpre := prefix_takeWhile_iff (l := a :: t) hq
    rw [strstr, search_cons]
    by_cases h : p <+: a :: t
    · have ha : a ≠ 0 := by
        rintro rfl
        rw [List.takeWhile_cons_of_neg (by simp), List.prefix_nil] at hpre
        exact hp (hpre.mpr h)
      rw [List.takeWhile_cons_of_pos (by simpa using ha)] at hpre ⊢
      rw [if_pos h, if_pos h, search_cons, if_pos (hpre.mpr h), if_pos (.inr rfl)]
    · rw [if_neg h, if_neg h]
      by_cases ha : a = 0
      · subst ha
        rw [List.takeWhile_cons_of_neg (by simp), search_nil hp]
        simp
      · rw [List.takeWhile_cons_of_pos (by simpa using ha)] at hpre ⊢
        rw [if_neg ha, ih, search_cons, if_neg (fun hc => h (hpre.mp hc))]
        simp only [List.mem_cons, Ne.symm ha, false_or, Option.isSome_map]
        split_ifs <;> rfl

end NetDemo.Foundation
