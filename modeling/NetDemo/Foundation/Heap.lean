import Mathlib.Algebra.Order.Ring.Int
import Mathlib.Data.List.Basic
import Mathlib.Tactic.Common
import Mathlib.Logic.Function.Basic

/-! A heap of separately allocated blocks. Every access is partial: it answers `none` when it leaves
its block or when the block is not live. -/

namespace NetDemo.Foundation

/-- A pointer to the first cell of a block, or the null pointer. -/
abbrev Ptr := Option ℕ

structure Heap (α : Type) where
  block : ℕ → Option (List α)
  next : ℕ
  fresh : ∀ i, next ≤ i → block i = none

namespace Heap
variable {α : Type}

def empty : Heap α := ⟨fun _ => none, 0, fun _ _ => rfl⟩

def alloc (h : Heap α) (cells : List α) : Heap α where
  block := Function.update h.block h.next (some cells)
  next := h.next + 1
  fresh i hi := by
    rw [Function.update_of_ne (by omega)]
    exact h.fresh i (by omega)

def put (h : Heap α) (i : ℕ) (cells : List α) (hi : i < h.next) : Heap α where
  block := Function.update h.block i (some cells)
  next := h.next
  fresh j hj := by
    rw [Function.update_of_ne (by omega)]
    exact h.fresh j hj

def drop (h : Heap α) (i : ℕ) : Heap α where
  block := Function.update h.block i none
  next := h.next
  fresh j hj := by
    by_cases hij : j = i
    · rw [hij, Function.update_self]
    · rw [Function.update_of_ne hij]
      exact h.fresh j hj

theorem lt_next {h : Heap α} {i : ℕ} {cells : List α} (hb : h.block i = some cells) :
    i < h.next := by
  by_contra hi
  rw [h.fresh i (by omega)] at hb
  cases hb

/-- The `n` cells from offset `off` on. -/
def load (h : Heap α) (p : Ptr) (off : ℤ) (n : ℕ) : Option (List α) :=
  if n = 0 then some [] else
    match p.bind h.block with
    | none => none
    | some cells =>
      if 0 ≤ off ∧ off.toNat + n ≤ cells.length then some ((cells.drop off.toNat).take n)
      else none

/-- Overwrite the cells from offset `off` on by `data`. -/
def store (h : Heap α) (p : Ptr) (off : ℤ) (data : List α) : Option (Heap α) :=
  if data = [] then some h else
    match p with
    | none => none
    | some i =>
      match hb : h.block i with
      | none => none
      | some cells =>
        if 0 ≤ off ∧ off.toNat + data.length ≤ cells.length then
          some (h.put i (cells.take off.toNat ++ data ++ cells.drop (off.toNat + data.length))
            (lt_next hb))
        else none

/-- Give the block back; a second release of the same block is an error. -/
def release (h : Heap α) (p : Ptr) : Option (Heap α) :=
  match p with
  | none => some h
  | some i => if (h.block i).isSome then some (h.drop i) else none

/-- `p` points to a live block with these cells; the null pointer stands for the empty block. -/
def Points (h : Heap α) (p : Ptr) (cells : List α) : Prop :=
  match p with
  | none => cells = []
  | some i => h.block i = some cells ∧ cells ≠ []

/-- From `h` to `h'` only the block owned through `p` was touched, and its owner now holds `p'`. -/
structure Replaces (h : Heap α) (p : Ptr) (h' : Heap α) (p' : Ptr) : Prop where
  next_le : h.next ≤ h'.next
  kept : ∀ i, i < h.next → p ≠ some i → h'.block i = h.block i
  ptr : p' = p ∨ ∀ i, p' = some i → h.next ≤ i
  live : ∀ i, (h'.block i).isSome → p' = some i ∨ (i < h.next ∧ p ≠ some i)

theorem Replaces.of_isSome {h h' : Heap α} {p p' : Ptr} (hr : Replaces h p h' p') {i : ℕ}
    (hi : (h'.block i).isSome) : p' = some i ∨ (h.block i).isSome ∧ p ≠ some i := by
  refine (hr.live i hi).imp_right fun ⟨hlt, hne⟩ => ⟨?_, hne⟩
  rwa [← hr.kept i hlt hne]

theorem Replaces.refl (h : Heap α) (p : Ptr) : Replaces h p h p where
  next_le := le_rfl
  kept _ _ _ := rfl
  ptr := .inl rfl
  live i hi := by
    obtain ⟨cells, hb⟩ := Option.isSome_iff_exists.mp hi
    by_cases hp : p = some i
    · exact .inl hp
    · exact .inr ⟨lt_next hb, hp⟩

theorem Replaces.trans {h h' h'' : Heap α} {p p' p'' : Ptr} (a : Replaces h p h' p')
    (b : Replaces h' p' h'' p'') : Replaces h p h'' p'' where
  next_le := Nat.le_trans a.next_le b.next_le
  kept i hi hp := by
    have hp' : p' ≠ some i := by
      rcases a.ptr with he | hf
      · rwa [he]
      · intro he
        have := hf i he
        omega
    rw [b.kept i (Nat.lt_of_lt_of_le hi a.next_le) hp', a.kept i hi hp]
  ptr := by
    rcases b.ptr with he | hf
    · rw [he]
      exact a.ptr
    · exact .inr fun i hi => Nat.le_trans a.next_le (hf i hi)
  live i hi := by
    rcases b.live i hi with he | ⟨hlt, hne⟩
    · exact .inl he
    · rw [b.kept i hlt hne] at hi
      exact .inr ((a.live i hi).resolve_left hne)

theorem Points.lt_next {h : Heap α} {i : ℕ} {cells : List α} (hp : Points h (some i) cells) :
    i < h.next := Heap.lt_next hp.1

theorem Points.isSome {h : Heap α} {i : ℕ} {cells : List α} (hp : Points h (some i) cells) :
    (h.block i).isSome := by rw [hp.1]; rfl

theorem Replaces.swap {h h' h'' : Heap α} {p q : Ptr} (a : Replaces h none h' q)
    (b : Replaces h' p h'' none) : Replaces h p h'' q where
  next_le := Nat.le_trans a.next_le b.next_le
  kept i hi hp := by
    rw [b.kept i (Nat.lt_of_lt_of_le hi a.next_le) hp, a.kept i hi (by simp)]
  ptr := .inr <| by
    rcases a.ptr with he | hf
    · simp [he]
    · exact hf
  live i hi := by
    obtain ⟨hlt, hne⟩ := (b.live i hi).resolve_left (by simp)
    rw [b.kept i hlt hne] at hi
    exact (a.live i hi).imp id fun hl => ⟨hl.1, hne⟩

theorem Points.frame {h h' : Heap α} {p p' q : Ptr} {cells : List α} (hq : Points h q cells)
    (hr : Replaces h p h' p') (hne : ∀ i, q = some i → p ≠ some i) : Points h' q cells := by
  cases q with
  | none => exact hq
  | some i => exact ⟨(hr.kept i hq.lt_next (hne i rfl)).trans hq.1, hq.2⟩

theorem Replaces.apart {h h' : Heap α} {p p' : Ptr} (hr : Replaces h p h' p') {i : ℕ}
    (hi : i < h.next) (hp : p ≠ some i) : p' ≠ some i := by
  rcases hr.ptr with he | hf
  · rwa [he]
  · intro he
    have := hf i he
    omega

theorem load_points {h : Heap α} {p : Ptr} {cells : List α} (hp : Points h p cells) {off : ℤ} {n : ℕ}
    (h0 : 0 ≤ off) (hn : off.toNat + n ≤ cells.length) :
    h.load p off n = some ((cells.drop off.toNat).take n) := by
  unfold load
  split_ifs with hz
  · simp [hz]
  · cases p with
    | none =>
      rw [show cells = [] from hp] at hn
      simp only [List.length_nil] at hn
      omega
    | some i => simp only [Option.bind_some, hp.1, h0, hn, and_self, if_true]

theorem load_eq_none {h : Heap α} {p : Ptr} {cells : List α} (hp : Points h p cells) {off : ℤ} {n : ℕ}
    (hn : cells.length < off.toNat + n) (h0 : n ≠ 0) : h.load p off n = none := by
  unfold load
  rw [if_neg h0]
  cases p with
  | none => rfl
  | some i => simp only [Option.bind_some, hp.1, Nat.not_le.mpr hn, and_false, if_false]

theorem store_nil (h : Heap α) (p : Ptr) (off : ℤ) : h.store p off [] = some h := by simp [store]

theorem store_points {h : Heap α} {p : Ptr} {cells : List α} (hp : Points h p cells) (off : ℤ)
    (data : List α) (h0 : 0 ≤ off) (hn : off.toNat + data.length ≤ cells.length) :
    ∃ h', h.store p off data = some h' ∧
      Points h' p (cells.take off.toNat ++ data ++ cells.drop (off.toNat + data.length)) ∧
      Replaces h p h' p := by
  -- Nothing is stored through a null pointer, which is no error.
  by_cases hd : data = []
  · refine ⟨h, by rw [hd, store_nil], ?_, Replaces.refl h p⟩
    simpa [hd] using hp
  cases p with
  | none =>
    rw [show cells = [] from hp] at hn
    have : data.length ≠ 0 := by simpa using hd
    simp only [List.length_nil] at hn
    omega
  | some i =>
    have hs : h.store (some i) off data = some (h.put i
        (cells.take off.toNat ++ data ++ cells.drop (off.toNat + data.length)) hp.lt_next) := by
      unfold store
      rw [if_neg hd]
      simp only
      split
      · next hb => rw [hp.1] at hb; cases hb
      · next cells' hb =>
        rw [hp.1] at hb
        obtain rfl := Option.some.inj hb
        rw [if_pos ⟨h0, hn⟩]
    refine ⟨_, hs, ⟨Function.update_self .., by simp [hd]⟩, le_rfl, ?_, .inl rfl, ?_⟩
    · intro j _ hj
      exact Function.update_of_ne (fun he => hj (by rw [he])) ..
    · intro j hj
      by_cases hji : j = i
      · exact .inl (by rw [hji])
      · have hb : (h.block j).isSome := by simpa [put, Function.update_of_ne hji] using hj
        obtain ⟨c, hc⟩ := Option.isSome_iff_exists.mp hb
        exact .inr ⟨Heap.lt_next hc, fun he => hji (Option.some.inj he).symm⟩

theorem store_eq_none {h : Heap α} {p : Ptr} {cells data : List α} {off : ℤ} (hp : Points h p cells)
    (hd : data ≠ []) (hn : off < 0 ∨ cells.length < off.toNat + data.length) : h.store p off data = none := by
  unfold store
  rw [if_neg hd]
  cases p with
  | none => rfl
  | some i =>
    simp only
    split
    · rfl
    · next cells' hb =>
      rw [hp.1] at hb
      obtain rfl := Option.some.inj hb
      rw [if_neg (by omega)]

theorem release_points {h : Heap α} {p : Ptr} {cells : List α} (hp : Points h p cells) :
    ∃ h', h.release p = some h' ∧ Replaces h p h' none := by
  cases p with
  | none => exact ⟨h, rfl, Replaces.refl h none⟩
  | some i =>
    refine ⟨h.drop i, by simp [release, hp.isSome], le_rfl, ?_, .inr (fun _ he => by cases he), ?_⟩
    · intro j _ hj
      exact Function.update_of_ne (fun he => hj (by rw [he])) ..
    · intro j hj
      have hji : j ≠ i := by
        intro he
        simp [drop, he] at hj
      have hb : (h.block j).isSome := by simpa [drop, Function.update_of_ne hji] using hj
      obtain ⟨c, hc⟩ := Option.isSome_iff_exists.mp hb
      exact .inr ⟨Heap.lt_next hc, fun he => hji (Option.some.inj he).symm⟩

theorem alloc_points (h : Heap α) {cells : List α} (hc : cells ≠ []) :
    Points (h.alloc cells) (some h.next) cells ∧ Replaces h none (h.alloc cells) (some h.next) := by
  have hold (i : ℕ) (hi : i ≠ h.next) : (h.alloc cells).block i = h.block i :=
    Function.update_of_ne hi ..
  refine ⟨⟨Function.update_self .., hc⟩, Nat.le_succ _, fun i hi _ => hold i (by omega), ?_, ?_⟩
  · exact .inr fun i hi => (Option.some.inj hi).le
  · intro i hi
    by_cases hin : i = h.next
    · exact .inl (by rw [hin])
    · rw [hold i hin] at hi
      obtain ⟨c, hb⟩ := Option.isSome_iff_exists.mp hi
      exact .inr ⟨Heap.lt_next hb, by simp⟩

end Heap
end NetDemo.Foundation
