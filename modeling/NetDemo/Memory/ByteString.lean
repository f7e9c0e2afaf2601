import NetDemo.Memory.Ownership
import NetDemo.Foundation.Transition

/-! Any number of `Buffer`s on one heap against byte strings that carry the capacity of their
`Buffer`, for every sequence of operations. -/

namespace NetDemo.Memory
open Foundation Heap
variable {α : Type}

inductive Op (α : Type)
  | write (i : ℕ) (pData : List α)
  | insert (i : ℕ) (pData : List α)
  | read (i nSize : ℕ)
  | remove (i nSize : ℕ)
  | clear (i : ℕ)
  | copy (i j : ℕ)

/-- The log holds what each operation returned and the bytes it left at `pData`. -/
structure Pool (α : Type) where
  heap : Heap α
  buf : ℕ → Buffer
  log : List (ℕ × List α)

def Pool.new : Pool α := ⟨Heap.empty, fun _ => Buffer.new, []⟩

def Pool.set (s : Pool α) (i : ℕ) (h : Heap α) (b : Buffer) (out : ℕ × List α) : Pool α :=
  ⟨h, Function.update s.buf i b, s.log ++ [out]⟩

def Pool.step [Inhabited α] (s : Pool α) : Op α → Option (Pool α)
  | .write i pData => do
    let (h, b, n) ← (s.buf i).write s.heap pData
    return s.set i h b (n, [])
  | .insert i pData => do
    let (h, b, n) ← (s.buf i).insert s.heap pData
    return s.set i h b (n, [])
  | .read i nSize => do
    let (h, b, n, pData) ← (s.buf i).read s.heap nSize
    return s.set i h b (n, pData)
  | .remove i nSize => do
    let (h, b, n) ← (s.buf i).remove s.heap nSize
    return s.set i h b (n, [])
  | .clear i => do
    let (h, b) ← (s.buf i).clear s.heap
    return s.set i h b (0, [])
  | .copy i j => do
    let (h, b) ← (s.buf i).copy s.heap (s.buf j)
    return s.set i h b (0, [])

/-- The abstract value of a `Buffer`: a byte string, and how many bytes fit before it must grow. -/
structure Text (α : Type) where
  bytes : List α
  cap : ℕ

def Text.grown (t : Text α) (n : ℕ) : ℕ :=
  if t.bytes.length + n < t.cap then t.cap else alignUp (t.bytes.length + n)

structure Texts (α : Type) where
  text : ℕ → Text α
  log : List (ℕ × List α)

def Texts.new : Texts α := ⟨fun _ => ⟨[], 0⟩, []⟩

def Texts.set (σ : Texts α) (i : ℕ) (t : Text α) (out : ℕ × List α) : Texts α :=
  ⟨Function.update σ.text i t, σ.log ++ [out]⟩

def Texts.next (σ : Texts α) : Op α → Texts α
  | .write i pData =>
    σ.set i ⟨(σ.text i).bytes ++ pData, (σ.text i).grown pData.length⟩ (pData.length, [])
  | .insert i pData =>
    σ.set i ⟨pData ++ (σ.text i).bytes, (σ.text i).grown pData.length⟩ (pData.length, [])
  | .read i n =>
    if (σ.text i).cap < n then σ.set i (σ.text i) (0, []) else
      σ.set i ⟨(σ.text i).bytes.drop n, (σ.text i).cap⟩
        (min n (σ.text i).bytes.length, (σ.text i).bytes.take n)
  | .remove i n =>
    if (σ.text i).cap < n then σ.set i (σ.text i) (0, []) else
      σ.set i ⟨(σ.text i).bytes.drop n, (σ.text i).cap⟩ (min n (σ.text i).bytes.length, [])
  | .clear i => σ.set i ⟨[], max 1024 (σ.text i).cap⟩ (0, [])
  | .copy i j =>
    σ.set i ⟨(σ.text j).bytes, max (σ.text j).cap (max 1024 (σ.text i).cap)⟩ (0, [])

/-- The operations within the size limit; `copy` is between distinct `Buffer`s. -/
def Texts.fits (σ : Texts α) : Op α → Prop
  | .write i pData | .insert i pData => (σ.text i).bytes.length + pData.length ≤ 2 ^ 31 - 1024
  | .copy i j => i ≠ j
  | .read .. | .remove .. | .clear .. => True

/-- Every `Buffer` has a block of its own, or none. -/
structure Owned (s : Pool α) : Prop where
  owns : ∀ i, ∃ v, Owns s.heap (s.buf i) v
  apart : ∀ i j, i ≠ j → ∀ k, (s.buf i).m_pBegin = some k → (s.buf j).m_pBegin ≠ some k

theorem Owned.new : Owned (Pool.new : Pool α) where
  owns _ := ⟨_, Owns.new _⟩
  apart _ _ _ _ hi := by cases hi

theorem Owned.set {s : Pool α} (hs : Owned s) {i : ℕ} {h : Heap α} {b : Buffer} {v : Cells α}
    (ho : Owns h b v) (hr : Replaces s.heap (s.buf i).m_pBegin h b.m_pBegin) (out : ℕ × List α) :
    Owned (s.set i h b out) where
  owns j := by
    by_cases hj : j = i
    · subst hj
      simp only [Pool.set, Function.update_self]
      exact ⟨v, ho⟩
    · simp only [Pool.set, Function.update_of_ne hj]
      obtain ⟨w, hw⟩ := hs.owns j
      exact ⟨w, hw.frame hr fun k hk => fun he => hs.apart j i hj k hk he⟩
  apart j k hjk l hl := by
    have hnew (m : ℕ) (hm : m ≠ i) (hl : (s.buf m).m_pBegin = some l) : b.m_pBegin ≠ some l := by
      obtain ⟨w, hw⟩ := hs.owns m
      have hp := hw.points
      rw [hl] at hp
      exact hr.apart hp.lt_next (hs.apart m i hm l hl)
    simp only [Pool.set] at hl ⊢
    by_cases hj : j = i
    · subst hj
      rw [Function.update_self] at hl
      rw [Function.update_of_ne hjk.symm]
      exact fun hk => hnew k hjk.symm hk hl
    · rw [Function.update_of_ne hj] at hl
      by_cases hk : k = i
      · rw [hk, Function.update_self]
        exact hnew j hj hl
      · rw [Function.update_of_ne hk]
        exact hs.apart j k hjk l hl

structure Sim (s : Pool α) (σ : Texts α) : Prop where
  log : s.log = σ.log
  owns : ∀ i, ∃ v, Owns s.heap (s.buf i) v ∧ (s.buf i).m_pEnd = v.len ∧
    v.live = (σ.text i).bytes ∧ v.cap = (σ.text i).cap
  apart : ∀ i j, i ≠ j → ∀ k, (s.buf i).m_pBegin = some k → (s.buf j).m_pBegin ≠ some k
  short : ∀ i, (σ.text i).bytes.length ≤ 2 ^ 31 - 1024

theorem Sim.new : Sim (Pool.new : Pool α) Texts.new where
  log := rfl
  owns _ := ⟨Cells.empty, Owns.new _, rfl, rfl, rfl⟩
  apart _ _ _ _ hi := by cases hi
  short _ := Nat.zero_le _

theorem Sim.owned {s : Pool α} {σ : Texts α} (hs : Sim s σ) : Owned s where
  owns i := by
    obtain ⟨v, ho, -⟩ := hs.owns i
    exact ⟨v, ho⟩
  apart := hs.apart

theorem Sim.set {s : Pool α} {σ : Texts α} (hs : Sim s σ) {i : ℕ} {h : Heap α} {b : Buffer}
    {v : Cells α} {t : Text α} (ho : Owns h b v) (hend : b.m_pEnd = v.len) (hlive : v.live = t.bytes)
    (hcap : v.cap = t.cap) (hshort : t.bytes.length ≤ 2 ^ 31 - 1024)
    (hr : Replaces s.heap (s.buf i).m_pBegin h b.m_pBegin) (out : ℕ × List α) :
    Sim (s.set i h b out) (σ.set i t out) where
  log := by simp only [Pool.set, Texts.set, hs.log]
  owns j := by
    by_cases hj : j = i
    · subst hj
      simp only [Pool.set, Texts.set, Function.update_self]
      exact ⟨v, ho, hend, hlive, hcap⟩
    · simp only [Pool.set, Texts.set, Function.update_of_ne hj]
      obtain ⟨w, hw, rest⟩ := hs.owns j
      exact ⟨w, hw.frame hr fun k hk => fun he => hs.apart j i hj k hk he, rest⟩
  apart := (hs.owned.set ho hr out).apart
  short j := by
    by_cases hj : j = i
    · simpa only [Texts.set, hj, Function.update_self] using hshort
    · simpa only [Texts.set, Function.update_of_ne hj] using hs.short j

variable [Inhabited α]

theorem Sim.set_remove {s : Pool α} {σ : Texts α} (hs : Sim s σ) {i n : ℕ} {h : Heap α} {b : Buffer}
    {v : Cells α} (hlive : v.live = (σ.text i).bytes) (hcap : v.cap = (σ.text i).cap)
    (ho : Owns h b (v.remove n)) (hend : b.m_pEnd = (v.remove n).len)
    (hr : Replaces s.heap (s.buf i).m_pBegin h b.m_pBegin) (out : ℕ × List α) :
    Sim (s.set i h b out) (σ.set i (if v.cap < n then σ.text i else
      ⟨(σ.text i).bytes.drop n, (σ.text i).cap⟩) out) := by
  have hshort := hs.short i
  split_ifs with hn
  · refine hs.set ho hend ?_ ?_ hshort hr _
    · rw [Cells.remove, if_pos hn, hlive]
    · rw [Cells.remove, if_pos hn, hcap]
  · refine hs.set ho hend ?_ (by rw [Cells.cap_remove, hcap]) ?_ hr _
    · rw [Cells.live_remove _ (by omega), hlive]
    · rw [List.length_drop]
      omega

theorem step_refines (s : Pool α) (σ : Texts α) (op : Op α) (hs : Sim s σ) (hfit : σ.fits op) :
    ∃ s', s.step op = some s' ∧ Sim s' (σ.next op) := by
  -- Every operation is the one on `Cells`, which know the live bytes and the capacity.
  cases op with
  | write i pData =>
    obtain ⟨v, ho, hend, hlive, hcap⟩ := hs.owns i
    have hlen : v.len = (σ.text i).bytes.length := by rw [← hlive, v.length_live]
    simp only [Texts.fits] at hfit
    obtain ⟨h', b', e, ho', hend', hr⟩ := ho.write pData (.inl hend) (by omega)
    refine ⟨_, by simp [Pool.step, e], hs.set ho' hend' (by simp [hlive]) ?_ (by simpa) hr _⟩
    rw [Cells.cap_write, hlen, hcap, Text.grown]
  | insert i pData =>
    obtain ⟨v, ho, hend, hlive, hcap⟩ := hs.owns i
    have hlen : v.len = (σ.text i).bytes.length := by rw [← hlive, v.length_live]
    simp only [Texts.fits] at hfit
    obtain ⟨h', b', e, ho', hend', hr⟩ := ho.insert pData (by omega)
    refine ⟨_, by simp [Pool.step, e], hs.set ho' (hend' hend) (by simp [hlive]) ?_ ?_ hr _⟩
    · rw [Cells.cap_insert, hlen, hcap, Text.grown]
    · simp
      omega
  | read i n =>
    obtain ⟨v, ho, hend, hlive, hcap⟩ := hs.owns i
    obtain ⟨h', b', e, ho', hend', hr⟩ := ho.read n
    have hset := hs.set_remove hlive hcap ho' (hend' hend) hr
    simp only [Texts.next, ← hcap] at hset ⊢
    split_ifs at hset ⊢ with hn
    · exact ⟨_, by simp [Pool.step, e, hn], hset _⟩
    · exact ⟨_, by simp [Pool.step, e, hn, hlive, ← v.length_live], hset _⟩
  | remove i n =>
    obtain ⟨v, ho, hend, hlive, hcap⟩ := hs.owns i
    obtain ⟨h', b', e, ho', hend', hr⟩ := ho.remove n
    have hset := hs.set_remove hlive hcap ho' (hend' hend) hr
    simp only [Texts.next, ← hcap] at hset ⊢
    split_ifs at hset ⊢ with hn
    · exact ⟨_, by simp [Pool.step, e, hn], hset _⟩
    · exact ⟨_, by simp [Pool.step, e, hn, hlive, ← v.length_live], hset _⟩
  | clear i =>
    obtain ⟨v, ho, -, -, hcap⟩ := hs.owns i
    obtain ⟨h', b', e, ho', hend', hr⟩ := ho.clear
    refine ⟨_, by simp [Pool.step, e], hs.set ho' hend' rfl ?_ (Nat.zero_le _) hr _⟩
    rw [Cells.cap_clear, hcap]
  | copy i j =>
    obtain ⟨v, ho, -, -, hcap⟩ := hs.owns i
    obtain ⟨w, hw, -, hwlive, hwcap⟩ := hs.owns j
    have hshort := hs.short j
    have hwlen : w.len = (σ.text j).bytes.length := by rw [← hwlive, w.length_live]
    obtain ⟨h', b', e, ho', hend', hr⟩ := ho.copy hw fun k hk => hs.apart j i (Ne.symm hfit) k hk
    refine ⟨s.set i h' b' (0, []), by simp [Pool.step, e],
      hs.set (t := ⟨_, max (σ.text j).cap (max 1024 (σ.text i).cap)⟩) ho' ?_ (by simp [hwlive]) ?_ hshort hr _⟩
    · rw [hend', Cells.len_copy, int32_of_lt (by omega)]
    · rw [Cells.cap_copy, hwcap, hcap]

/-- From fresh `Buffer`s on, within the size limit, no access leaves its block, every operation
returns what it returns on byte strings, and the live bytes are those of the byte strings. -/
theorem run_refines_texts (ops : List (Op α)) (hfit : Admits Texts.fits Texts.next Texts.new ops) :
    ∃ s, run Pool.step Pool.new ops = some s ∧ s.log = (ops.foldl Texts.next Texts.new).log ∧
      ∀ i, s.heap.load (s.buf i).m_pBegin 0 (s.buf i).getBufferLen =
          some ((ops.foldl Texts.next Texts.new).text i).bytes ∧
        (s.buf i).m_nSize = ((ops.foldl Texts.next Texts.new).text i).cap ∧
        1024 ∣ (s.buf i).m_nSize ∧ (s.buf i).getBufferLen ≤ (s.buf i).m_nSize ∧
        ((s.buf i).m_pBegin = none ↔ (s.buf i).m_nSize = 0) := by
  obtain ⟨s, hrun, hs⟩ := run_simulates Sim step_refines Sim.new hfit
  refine ⟨s, hrun, hs.log, fun i => ?_⟩
  obtain ⟨v, ho, -, hlive, hcap⟩ := hs.owns i
  refine ⟨?_, by rw [ho.size, hcap], by rw [ho.size]; exact v.aligned, ?_, by rw [ho.size, ho.cap_eq_zero]⟩
  · rw [ho.len, ho.load_live le_rfl, ← hlive, ← v.length_live, List.take_length]
  · rw [ho.len, ho.size]
    exact v.len_le_cap

theorem run_refines_texts_insert : ∃ s : Pool UInt8,
    run Pool.step Pool.new [.write 0 [1, 2], .insert 0 [3], .copy 1 0, .read 1 1] = some s ∧
      s.log = [(2, []), (1, []), (0, []), (1, [3])] := by
  obtain ⟨s, hrun, hlog, -⟩ := run_refines_texts (α := UInt8)
    [.write 0 [1, 2], .insert 0 [3], .copy 1 0, .read 1 1] (by
      refine ⟨?_, ?_, ?_, trivial, trivial⟩
      · exact Nat.le_of_ble_eq_true rfl
      · exact Nat.le_of_ble_eq_true rfl
      · exact (by decide : (1 : ℕ) ≠ 0))
  exact ⟨s, hrun, hlog⟩

end NetDemo.Memory
