import NetDemo.Foundation.Span

/-! The strings of C in a block of memory: a pointer is an offset, a string ends at its first NUL.
Below are the functions of `string.h`, and what becomes of the strings when a NUL is written. -/

namespace NetDemo.Foundation
variable {mem : List UInt8} {s k : ℕ}

def cstr (mem : List UInt8) (s : ℕ) : List UInt8 := (mem.drop s).takeWhile (· ≠ 0)

def strcspn (str reject : List UInt8) : ℕ := (str.takeWhile fun b => !reject.contains b).length

def strspn (str accept : List UInt8) : ℕ := (str.takeWhile fun b => accept.contains b).length

def strpbrk (mem : List UInt8) (s : ℕ) (accept : List UInt8) : Option ℕ :=
  if strcspn (cstr mem s) accept < (cstr mem s).length then some (s + strcspn (cstr mem s) accept)
  else none

def strchr (mem : List UInt8) (s : ℕ) (c : UInt8) : Option ℕ := strpbrk mem s [c]

/-- `tolower` in the C locale. -/
def tolower (b : UInt8) : UInt8 := if 0x41 ≤ b ∧ b ≤ 0x5a then b + 0x20 else b

-- Whether `strcasecmp` and `strncasecmp` answer 0.
def strcasecmp (str str' : List UInt8) : Bool := str.map tolower = str'.map tolower

def strncasecmp (str str' : List UInt8) (n : ℕ) : Bool := strcasecmp (str.take n) (str'.take n)

theorem strspn_le (str accept : List UInt8) : strspn str accept ≤ str.length :=
  (List.takeWhile_prefix _).length_le

theorem strcspn_le (str reject : List UInt8) : strcspn str reject ≤ str.length :=
  (List.takeWhile_prefix _).length_le

theorem strcspn_lt_iff {str reject : List UInt8} :
    strcspn str reject < str.length ↔ ∃ b ∈ str, b ∈ reject := by
  have hall : strcspn str reject = str.length ↔ ∀ b ∈ str, b ∉ reject := by
    have hself : str.takeWhile (fun b => !reject.contains b) = str ↔ ∀ b ∈ str, b ∉ reject := by
      simp [List.takeWhile_eq_self_iff]
    rw [← hself]
    exact ⟨(List.takeWhile_prefix _).eq_of_length, congrArg List.length⟩
  have hle := strcspn_le str reject
  constructor
  · intro hlt
    by_contra! hno
    exact Nat.ne_of_lt hlt (hall.mpr hno)
  · rintro ⟨b, hb, hmem⟩
    exact Nat.lt_of_le_of_ne hle fun heq => hall.mp heq b hb hmem

theorem cstr_add (h : k ≤ (cstr mem s).length) : cstr mem (s + k) = (cstr mem s).drop k := by
  unfold cstr at h ⊢
  rw [← takeWhile_drop h, List.drop_drop]

theorem cstr_set (h : k < (cstr mem s).length) : cstr (mem.set (s + k) 0) s = (cstr mem s).take k := by
  unfold cstr at h ⊢
  rw [List.drop_set, if_neg (by omega), Nat.add_sub_cancel_left, takeWhile_set rfl h]

theorem cstr_set_lt {i : ℕ} (h : i < s) : cstr (mem.set i 0) s = cstr mem s := by
  unfold cstr
  rw [List.drop_set_of_lt h]

theorem cstr_of_drop {t rest : List UInt8} (h : mem.drop s = t ++ 0 :: rest) :
    cstr mem s = t.takeWhile (· ≠ 0) := by
  unfold cstr
  rw [h, List.takeWhile_append]
  split_ifs with hlen
  · rw [List.takeWhile_cons_of_neg (by simp), List.append_nil]
    exact ((List.takeWhile_prefix _).eq_of_length hlen).symm
  · rfl

theorem getElem?_eq_some_iff_cstr {c : UInt8} (hc : c ≠ 0) :
    mem[s]? = some c ↔ (cstr mem s).head? = some c := by
  unfold cstr
  rw [← List.head?_drop]
  cases mem.drop s with
  | nil => rfl
  | cons a t =>
    by_cases ha : a = 0
    · simp [ha, hc.symm]
    · simp [ha]

theorem strchr_all {c : UInt8} (hc : c ≠ 0) :
    (strchr mem s c).all (fun p => mem[p]? ≠ some c) = !(cstr mem s).contains c := by
  unfold strchr strpbrk
  have hiff := @strcspn_lt_iff (cstr mem s) [c]
  split_ifs with hlt
  · obtain ⟨b, hb, hmem⟩ := hiff.mp hlt
    obtain rfl := List.mem_singleton.mp hmem
    have hfound : mem[s + strcspn (cstr mem s) [b]]? = some b := by
      rw [getElem?_eq_some_iff_cstr hc, cstr_add hlt.le, strcspn, drop_length_takeWhile]
      have hne : (cstr mem s).dropWhile (fun a => !([b] : List UInt8).contains a) ≠ [] := by
        rw [← drop_length_takeWhile]
        exact List.ne_nil_of_length_pos (by rw [List.length_drop]; exact Nat.sub_pos_of_lt hlt)
      cases hdrop : (cstr mem s).dropWhile (fun a => !([b] : List UInt8).contains a) with
      | nil => exact absurd hdrop hne
      | cons a t =>
        have hstop := head?_dropWhile (congrArg List.head? hdrop)
        simpa using hstop
    simp [hfound, hb]
  · have hno : c ∉ cstr mem s := fun hmem => hlt (hiff.mpr ⟨c, hmem, List.mem_singleton.mpr rfl⟩)
    simp [hno]

/-- The block has a NUL between `s` and `n`. -/
def Terminated (mem : List UInt8) (s n : ℕ) : Prop := 0 ∈ (mem.take n).drop s

theorem Terminated.of_getElem? {i n : ℕ} (hs : s ≤ i) (hn : i < n) (h : mem[i]? = some 0) :
    Terminated mem s n := by
  refine List.mem_of_getElem? (i := i - s) ?_
  rw [List.getElem?_drop, List.getElem?_take_of_lt (by omega), Nat.add_sub_cancel' hs, h]

theorem Terminated.split {n : ℕ} (h : Terminated mem s n) :
    ∃ t rest, (mem.take n).drop s = t ++ 0 :: rest ∧
      ∀ mem' : List UInt8, mem'.take n = mem.take n → mem'.drop s = t ++ 0 :: (rest ++ mem'.drop n) := by
  obtain ⟨t, rest, ht⟩ := List.append_of_mem h
  have hs : s ≤ (mem.take n).length := by
    by_contra hlt
    rw [List.drop_eq_nil_of_le (by omega)] at ht
    simp at ht
  refine ⟨t, rest, ht, fun mem' hmem => ?_⟩
  rw [← hmem] at ht hs
  have happ : (mem'.take n ++ mem'.drop n).drop s = (mem'.take n).drop s ++ mem'.drop n :=
    List.drop_append_of_le_length hs
  rw [List.take_append_drop, ht, List.append_assoc] at happ
  exact happ

theorem Terminated.length_cstr {n : ℕ} (h : Terminated mem s n) : s + (cstr mem s).length < n := by
  obtain ⟨t, rest, ht, hdrop⟩ := h.split
  have hlen := congrArg List.length ht
  have hle := (List.takeWhile_prefix (l := t) (· ≠ 0)).length_le
  rw [cstr_of_drop (hdrop mem rfl)]
  simp only [List.length_drop, List.length_take, List.length_append, List.length_cons] at hlen
  omega

theorem cstr_congr {mem' : List UInt8} {n : ℕ} (hnul : Terminated mem s n)
    (htake : mem'.take n = mem.take n) : cstr mem' s = cstr mem s := by
  obtain ⟨t, rest, -, hdrop⟩ := hnul.split
  rw [cstr_of_drop (hdrop mem' htake), cstr_of_drop (hdrop mem rfl)]

theorem Terminated.getElem?_eq_zero {n : ℕ} (h : Terminated mem s n) :
    mem[s]? = some 0 ↔ cstr mem s = [] := by
  obtain ⟨t, rest, -, hdrop⟩ := h.split
  rw [cstr_of_drop (hdrop mem rfl), ← List.head?_drop, hdrop mem rfl]
  cases t with
  | nil => simp
  | cons a t => by_cases ha : a = 0 <;> simp [ha]

end NetDemo.Foundation
