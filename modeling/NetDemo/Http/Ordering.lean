import NetDemo.Foundation.Memcmp
import NetDemo.Foundation.Word
import NetDemo.Http.Slice

/-! The comparisons of `Slice`. -/

namespace NetDemo.Http
open Foundation

namespace Slice

/-- The smaller size goes through an `int`, which is not negative for sizes below 2^31. -/
def compare (x b : Bytes) : ℤ :=
  let sz := x.length
  let bsz := b.length
  let minLen := int32 (uint (if sz < bsz then sz else bsz : ℕ))
  let r := memcmp x b minLen.toNat
  if r = 0 then
    if sz < bsz then -1
    else if sz > bsz then 1
    else r
  else r

def startsWith (x p : Bytes) : Bool := x.length ≥ p.length && memcmp x p p.length = 0

def endWith (x p : Bytes) : Bool :=
  x.length ≥ p.length && memcmp (x.drop (x.length - p.length)) p p.length = 0

def operatorLt (x y : Bytes) : Bool := compare x y < 0

def operatorEq (x y : Bytes) : Bool := x.length = y.length && memcmp x y x.length = 0

def operatorNe (x y : Bytes) : Bool := !operatorEq x y

variable {x y z p : Bytes}

theorem startsWith_iff : startsWith x p = true ↔ p <+: x := by
  simp only [startsWith, Bool.and_eq_true, decide_eq_true_eq]
  constructor
  · rintro ⟨hlen, hcmp⟩
    rw [memcmp_eq_zero_iff hlen le_rfl, List.take_length] at hcmp
    exact List.prefix_iff_eq_take.mpr hcmp.symm
  · intro hp
    refine ⟨hp.length_le, ?_⟩
    rw [memcmp_eq_zero_iff hp.length_le le_rfl, List.take_length]
    exact (List.prefix_iff_eq_take.mp hp).symm

theorem endWith_iff : endWith x p = true ↔ p <:+ x := by
  simp only [endWith, Bool.and_eq_true, decide_eq_true_eq]
  constructor
  · rintro ⟨hlen, hcmp⟩
    have hdrop : p.length ≤ (x.drop (x.length - p.length)).length := by
      rw [List.length_drop]
      omega
    have hall : (x.drop (x.length - p.length)).length ≤ p.length := by
      rw [List.length_drop]
      omega
    rw [memcmp_eq_zero_iff hdrop le_rfl, List.take_length, List.take_of_length_le hall] at hcmp
    rw [← hcmp]
    exact List.drop_suffix ..
  · intro hp
    obtain ⟨s, rfl⟩ := hp
    rw [List.length_append, Nat.add_sub_cancel, List.drop_left]
    exact ⟨Nat.le_add_left .., memcmp_self ..⟩

theorem operatorEq_iff : operatorEq x y = true ↔ x = y := by
  simp only [operatorEq, Bool.and_eq_true, decide_eq_true_eq]
  constructor
  · rintro ⟨hlen, hcmp⟩
    rwa [memcmp_eq_zero_iff le_rfl hlen.le, List.take_length, hlen, List.take_length] at hcmp
  · rintro rfl
    exact ⟨rfl, memcmp_self ..⟩

theorem operatorNe_iff : operatorNe x y = true ↔ x ≠ y := by
  rw [operatorNe, Bool.not_eq_true', Bool.eq_false_iff, Ne, operatorEq_iff]

theorem compare_eq (hx : x.length < 2 ^ 31) (hy : y.length < 2 ^ 31) :
    compare x y =
      if memcmp x y (min x.length y.length) = 0 then
        if x.length < y.length then -1 else if y.length < x.length then 1 else 0
      else memcmp x y (min x.length y.length) := by
  have hmin : (if x.length < y.length then x.length else y.length) = min x.length y.length := by
    split_ifs <;> omega
  have hlen : (int32 (uint (min x.length y.length : ℕ))).toNat = min x.length y.length := by
    rw [uint_natCast (by omega), int32_of_lt (by omega), Int.toNat_natCast]
  simp only [compare, hmin, hlen]
  split_ifs <;> first | rfl | assumption

theorem compare_lt_iff (hx : x.length < 2 ^ 31) (hy : y.length < 2 ^ 31) :
    compare x y < 0 ↔ unsignedBytes x < unsignedBytes y := by
  rw [unsignedBytes_lt_iff, compare_eq hx hy]
  split_ifs <;> omega

theorem compare_swap (hx : x.length < 2 ^ 31) (hy : y.length < 2 ^ 31) :
    compare y x = -compare x y := by
  rw [compare_eq hx hy, compare_eq hy hx, Nat.min_comm, memcmp_swap x y]
  split_ifs <;> omega

theorem compare_eq_zero_iff (hx : x.length < 2 ^ 31) (hy : y.length < 2 ^ 31) :
    compare x y = 0 ↔ x = y := by
  have hlt := compare_lt_iff hx hy
  have hgt := compare_lt_iff hy hx
  rw [compare_swap hx hy] at hgt
  have htri := lt_trichotomy (unsignedBytes x) (unsignedBytes y)
  rw [← hlt, ← hgt, unsignedBytes_injective.eq_iff] at htri
  constructor
  · intro hzero
    exact (htri.resolve_left (by omega)).resolve_right (by omega)
  · rintro rfl
    have hself := compare_swap hx hx
    omega

theorem unsignedBytes_le_of_prefix (h : p <+: x) : ¬ unsignedBytes x < unsignedBytes p := by
  obtain ⟨t, rfl⟩ := h
  induction p with
  | nil => simp [unsignedBytes]
  | cons a p ih =>
    rw [List.cons_append, unsignedBytes_cons_lt]
    rintro (hlt | ⟨-, hlt⟩)
    · exact lt_irrefl _ hlt
    · exact ih hlt

end Slice

/-- A slice of a size below 2^31. -/
abbrev IntSlice := { s : Bytes // s.length < 2 ^ 31 }

/-- `operator<` is the lexicographic order of unsigned bytes, a strict total order that agrees with
`operator==`, with the sign of `compare` both ways round and with `starts_with`. -/
theorem slice_order (x y z p : IntSlice) :
    (Slice.operatorLt x y ↔ unsignedBytes x < unsignedBytes y) ∧
    ¬ Slice.operatorLt x x ∧
    (Slice.operatorLt x y → Slice.operatorLt y z → Slice.operatorLt x z) ∧
    ((Slice.operatorLt x y ∧ ¬ Slice.operatorEq x y ∧ ¬ Slice.operatorLt y x) ∨
      (¬ Slice.operatorLt x y ∧ Slice.operatorEq x y ∧ ¬ Slice.operatorLt y x) ∨
      (¬ Slice.operatorLt x y ∧ ¬ Slice.operatorEq x y ∧ Slice.operatorLt y x)) ∧
    (Slice.compare x y = 0 ↔ Slice.operatorEq x y) ∧
    (Slice.operatorNe x y ↔ ¬ Slice.operatorEq x y) ∧
    (Slice.compare y x).sign = -(Slice.compare x y).sign ∧
    (Slice.startsWith x p → ¬ Slice.operatorLt x p) := by
  have hlt (s t : IntSlice) : Slice.operatorLt s t ↔ unsignedBytes s < unsignedBytes t := by
    rw [Slice.operatorLt, decide_eq_true_eq, Slice.compare_lt_iff s.2 t.2]
  have hinj : unsignedBytes x = unsignedBytes y ↔ x.1 = y.1 := unsignedBytes_injective.eq_iff
  simp only [hlt, Slice.operatorEq_iff, Slice.operatorNe_iff, Slice.startsWith_iff]
  refine ⟨trivial, lt_irrefl _, lt_trans, ?_, Slice.compare_eq_zero_iff x.2 y.2, trivial, ?_, ?_⟩
  · rw [← hinj]
    rcases lt_trichotomy (unsignedBytes x) (unsignedBytes y) with h | h | h
    · exact .inl ⟨h, h.ne, h.asymm⟩
    · exact .inr (.inl ⟨h.not_lt, h, h.symm.not_lt⟩)
    · exact .inr (.inr ⟨h.asymm, h.ne', h⟩)
  · rw [Slice.compare_swap x.2 y.2, Int.sign_neg]
  · exact Slice.unsignedBytes_le_of_prefix

/-- A byte above 0x7f is the greater one, and a proper prefix the smaller one. -/
example : Slice.compare [0x61, 0x80] [0x61, 0x7f] = 1 ∧ Slice.compare [0x61] [0x61, 0x00] = -1 := by
  decide

end NetDemo.Http
