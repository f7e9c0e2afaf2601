import NetDemo.Foundation.Search
import NetDemo.Memory.Capacity

/-! `Buffer::scan` looks for a C string in the block, whatever part of it is live. -/

namespace NetDemo.Memory
open Foundation Heap

/-- `nOffset` for the pointer that `strstr` answers. -/
def nOffset (nPos : ℕ) (pScan : List UInt8) : Option ℕ → ℤ
  | none => 0
  | some k => int32 (uint (nPos + k + pScan.length : ℕ))

/-- `behind` is what can be read behind the block. -/
def Buffer.scan (h : Heap UInt8) (b : Buffer) (behind pScan : List UInt8) (nPos : ℕ) : Option ℤ :=
  if b.getBufferLen < nPos then some (-1)
  else do
    let cells ← b.m_pBegin.bind h.block
    let pStr ← strstr pScan ((cells ++ behind).drop nPos)
    return nOffset nPos pScan pStr

def Pool.block (s : Pool UInt8) (i : ℕ) : List UInt8 := ((s.buf i).m_pBegin.bind s.heap.block).getD []

/-- The live bytes from `nPos` on. -/
def Pool.searched (s : Pool UInt8) (i nPos : ℕ) : List UInt8 :=
  ((s.block i).take (s.buf i).getBufferLen).drop nPos

def Pool.stale (s : Pool UInt8) (i : ℕ) : List UInt8 := (s.block i).drop (s.buf i).getBufferLen

/-- Whatever stands behind the block, `scan` answers where the first place of the pattern in the live
bytes ends, or 0. -/
def FindsFirst (s : Pool UInt8) (i : ℕ) (pScan : List UInt8) (nPos : ℕ) : Prop :=
  ∀ behind, (s.buf i).scan s.heap behind pScan nPos =
    some (match search pScan (s.searched i nPos) with
      | none => 0
      | some k => nPos + k + pScan.length)

/-- No NUL hides the first place, nor is there another one behind the live bytes up to the first NUL. -/
def Findable (s : Pool UInt8) (i : ℕ) (pScan : List UInt8) (nPos : ℕ) : Prop :=
  match search pScan (s.searched i nPos) with
  | some k => 0 ∉ (s.searched i nPos).take k ∧ nPos + k + pScan.length < 2 ^ 31
  | none => 0 ∈ s.searched i nPos ∨
      0 ∈ s.stale i ∧ search pScan (s.searched i nPos ++ (s.stale i).takeWhile (· ≠ 0)) = none

section
variable {nPos k : ℕ} {pScan : List UInt8}

theorem nOffset_eq_iff (hlt : nPos + k + pScan.length < 2 ^ 32) :
    nOffset nPos pScan (some k) = nPos + k + pScan.length ↔ nPos + k + pScan.length < 2 ^ 31 := by
  rw [nOffset, uint_natCast hlt]
  unfold int32
  split_ifs <;> omega

theorem nOffset_ne_zero (hlt : nPos + k + pScan.length < 2 ^ 32) (hp : pScan ≠ []) :
    nOffset nPos pScan (some k) ≠ 0 := by
  have hpos := List.length_pos_iff.mpr hp
  rw [nOffset, uint_natCast hlt]
  unfold int32
  split_ifs <;> omega

variable (hp : pScan ≠ []) (h0 : 0 ∉ pScan) {l t : List UInt8}
include hp h0

theorem strstr_of_mem (hl : 0 ∈ l) (t : List UInt8) : strstr pScan (l ++ t) =
    some ((search pScan l).filter fun k => (l.take k).all (· ≠ 0)) := by
  have hq : ∀ b ∈ pScan, decide (b ≠ 0) = true := fun b hb => decide_eq_true fun h => h0 (h ▸ hb)
  have hstop : (l ++ t).takeWhile (· ≠ 0) = l.takeWhile (· ≠ 0) := takeWhile_append_of_fails ⟨0, hl, by simp⟩
  rw [strstr_eq hp h0, if_pos (.inl (List.mem_append_left t hl)), hstop, search_takeWhile hp hq]

theorem strstr_of_notMem (hl : 0 ∉ l) (t : List UInt8) : strstr pScan (l ++ t) =
    if 0 ∈ t ∨ (search pScan (l ++ t)).isSome then some (search pScan (l ++ t.takeWhile (· ≠ 0))) else none := by
  have hall : ∀ b ∈ l, decide (b ≠ 0) = true := fun b hb => decide_eq_true fun h => hl (h ▸ hb)
  simp only [strstr_eq hp h0, List.takeWhile_append_of_pos hall, List.mem_append, hl, false_or]

/-- A first place in the live bytes `l` is the answer if no NUL comes before it. -/
theorem answers_some_iff (hn : nPos + l.length < 2 ^ 32) (hk : search pScan l = some k) (t : List UInt8) :
    (strstr pScan (l ++ t)).map (nOffset nPos pScan) = some ((nPos : ℤ) + k + pScan.length) ↔
      0 ∉ l.take k ∧ nPos + k + pScan.length < 2 ^ 31 := by
  obtain ⟨-, hlen, -⟩ := search_some hk
  have hoffset : nOffset nPos pScan (some k) = nPos + k + pScan.length ↔ nPos + k + pScan.length < 2 ^ 31 :=
    nOffset_eq_iff (by omega)
  by_cases hl : 0 ∈ l
  · rw [strstr_of_mem hp h0 hl, hk, Option.filter_some]
    by_cases hnul : 0 ∈ l.take k
    · have hany : (l.take k).all (· ≠ 0) = false := by
        rw [List.all_eq_false]
        exact ⟨0, hnul, by simp⟩
      have hpos := List.length_pos_iff.mpr hp
      rw [hany, if_neg Bool.false_ne_true, Option.map_some, Option.some.injEq]
      exact ⟨fun h => by simp only [nOffset] at h; omega, fun h => absurd hnul h.1⟩
    · have hall : (l.take k).all (· ≠ 0) = true := by
        rw [List.all_eq_true]
        exact fun b hb => decide_eq_true fun h => hnul (h ▸ hb)
      rw [hall, if_pos rfl, Option.map_some, Option.some.injEq, hoffset]
      exact (and_iff_right hnul).symm
  · have hnul : 0 ∉ l.take k := fun h => hl (List.mem_of_mem_take h)
    rw [strstr_of_notMem hp h0 hl, search_append hk, search_append hk, if_pos (.inr rfl), Option.map_some,
      Option.some.injEq, hoffset]
    exact (and_iff_right hnul).symm

/-- Without one, the search has to end with a NUL, and it may not meet the pattern before. -/
theorem answers_none_iff (hn : nPos + (l ++ t).length < 2 ^ 32) (hk : search pScan l = none) :
    (∀ behind, (strstr pScan (l ++ (t ++ behind))).map (nOffset nPos pScan) = some 0) ↔
      0 ∈ l ∨ 0 ∈ t ∧ search pScan (l ++ t.takeWhile (· ≠ 0)) = none := by
  by_cases hl : 0 ∈ l
  · refine ⟨fun _ => .inl hl, fun _ behind => ?_⟩
    rw [strstr_of_mem hp h0 hl, hk]
    rfl
  rw [or_iff_right hl]
  constructor
  · intro hall
    have hfirst := hall []
    rw [List.append_nil, strstr_of_notMem hp h0 hl] at hfirst
    have hnone : search pScan (l ++ t.takeWhile (· ≠ 0)) = none := by
      cases hs : search pScan (l ++ t.takeWhile (· ≠ 0)) with
      | none => rfl
      | some j =>
        obtain ⟨-, hlen, -⟩ := search_some hs
        have hle := (List.takeWhile_prefix (l := t) (· ≠ 0)).length_le
        rw [List.length_append] at hlen hn
        split_ifs at hfirst
        · rw [hs, Option.map_some, Option.some.injEq] at hfirst
          exact absurd hfirst (nOffset_ne_zero (by omega) hp)
        · cases hfirst
    refine ⟨?_, hnone⟩
    by_contra hnul
    -- no NUL in the block, so all of it is searched
    have hself : t.takeWhile (· ≠ 0) = t := by
      rw [List.takeWhile_eq_self_iff]
      exact fun b hb => decide_eq_true fun h => hnul (h ▸ hb)
    rw [hself] at hnone
    rw [hnone, if_neg (by simp [hnul])] at hfirst
    cases hfirst
  · rintro ⟨hnul, hnone⟩ behind
    have hstop : (t ++ behind).takeWhile (· ≠ 0) = t.takeWhile (· ≠ 0) := takeWhile_append_of_fails ⟨0, hnul, by simp⟩
    rw [strstr_of_notMem hp h0 hl, if_pos (.inl (List.mem_append_left behind hnul)), hstop, hnone]
    rfl

end

namespace Owns
variable {s : Pool UInt8} {i : ℕ} {v : Cells UInt8}

theorem block (ho : Owns s.heap (s.buf i) v) : s.block i = v.mem := by
  have hp := ho.points
  rw [Pool.block]
  cases hb : (s.buf i).m_pBegin with
  | none =>
    rw [hb] at hp
    exact Eq.symm hp
  | some a =>
    rw [hb] at hp
    rw [Option.bind_some, hp.1]
    rfl

theorem searched (ho : Owns s.heap (s.buf i) v) (nPos : ℕ) : s.searched i nPos = v.live.drop nPos := by
  rw [Pool.searched, ho.block, ho.len]
  rfl

theorem stale (ho : Owns s.heap (s.buf i) v) : s.stale i = v.stale := by
  rw [Pool.stale, ho.block, ho.len]
  rfl

theorem scan (ho : Owns s.heap (s.buf i) v) {nPos : ℕ} (hpos : nPos ≤ v.len) (behind pScan : List UInt8) :
    (s.buf i).scan s.heap behind pScan nPos = if v.cap = 0 then none else
      (strstr pScan (v.live.drop nPos ++ (v.stale ++ behind))).map (nOffset nPos pScan) := by
  have hnull := ho.cap_eq_zero
  have hpoints := ho.points
  have hdrop : (v.mem ++ behind).drop nPos = v.live.drop nPos ++ (v.stale ++ behind) := by
    rw [← v.live_append_stale, List.append_assoc, List.drop_append_of_le_length (by rwa [v.length_live])]
  rw [Buffer.scan, ho.len, if_neg (Nat.not_lt.mpr hpos)]
  cases hb : (s.buf i).m_pBegin with
  | none =>
    rw [if_pos (hnull.mp hb)]
    rfl
  | some a =>
    rw [hb] at hnull hpoints
    rw [if_neg (fun hcap => by simpa using hnull.mpr hcap), Option.bind_some, hpoints.1]
    simp only [Option.bind_eq_bind, Option.bind_some, hdrop]
    cases strstr pScan (v.live.drop nPos ++ (v.stale ++ behind)) <;> rfl

end Owns

/-- Which searches meet only what they should. -/
theorem findsFirst_iff {s : Pool UInt8} (hs : Reachable s) (i : ℕ) {pScan : List UInt8} (hp : pScan ≠ [])
    (h0 : 0 ∉ pScan) {nPos : ℕ} (hpos : nPos ≤ (s.buf i).getBufferLen) :
    FindsFirst s i pScan nPos ↔ Findable s i pScan nPos := by
  obtain ⟨v, ho⟩ := hs.owned.owns i
  have hsmall := ho.small
  have hlc := v.len_le_cap
  have hstale := v.length_stale
  rw [ho.len] at hpos
  have hlen : nPos + (v.live.drop nPos ++ v.stale).length = v.cap := by
    rw [List.length_append, List.length_drop, v.length_live]
    omega
  rw [FindsFirst, Findable, ho.searched, ho.stale]
  simp only [ho.scan hpos]
  by_cases hcap : v.cap = 0
  · -- no block, so `strstr` reads through the null pointer
    obtain ⟨hlive, hrest⟩ := List.append_eq_nil_iff.mp (List.eq_nil_of_length_eq_zero (by omega :
      (v.live.drop nPos ++ v.stale).length = 0))
    rw [hlive, hrest, search_nil hp]
    simp only [if_pos hcap]
    refine ⟨fun hfinds => ?_, fun hfind => by simp at hfind⟩
    cases hfinds []
  simp only [if_neg hcap]
  cases hk : search pScan (v.live.drop nPos) with
  | none => exact answers_none_iff hp h0 (by omega) hk
  | some k =>
    rw [List.length_append] at hlen
    have hiff := answers_some_iff hp h0 (by omega : nPos + (v.live.drop nPos).length < 2 ^ 32) hk
    exact ⟨fun hfinds => (hiff _).mp (hfinds []), fun hfind behind => (hiff _).mpr hfind⟩

theorem findsFirst_iff_letter : ∃ s : Pool UInt8, s.bytes 0 = some [0x61] ∧ FindsFirst s 0 [0x61] 0 := by
  obtain ⟨s, hs, ho⟩ := exists_write_new [(0x61 : UInt8)] (by decide)
  refine ⟨s, ho.bytes.trans (by simp), (findsFirst_iff hs 0 (by decide) (by decide) (Nat.zero_le _)).mpr ?_⟩
  have hsearched : s.searched 0 0 = [0x61] := by rw [ho.searched, Cells.live_write]; rfl
  have hfirst : search [0x61] [(0x61 : UInt8)] = some 0 := by decide
  rw [Findable, hsearched, hfirst]
  exact ⟨List.not_mem_nil, by decide⟩

/-- The live bytes are a NUL and a letter, and the letter is not found. -/
theorem not_findsFirst_nul : ∃ s : Pool UInt8, Reachable s ∧ s.bytes 0 = some [0x00, 0x61] ∧
    ¬ FindsFirst s 0 [0x61] 0 := by
  obtain ⟨s, hs, ho⟩ := exists_write_new [(0x00 : UInt8), 0x61] (by decide)
  refine ⟨s, hs, ho.bytes.trans (by simp), fun hfinds => ?_⟩
  have hscan := hfinds []
  rw [ho.scan (Nat.zero_le _), ho.searched, Cells.live_write] at hscan
  split_ifs at hscan
  rw [strstr_of_mem (by decide) (by decide) (by decide)] at hscan
  exact absurd hscan (by decide)

end NetDemo.Memory
