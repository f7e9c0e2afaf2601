import NetDemo.Http.Slice

/-! `Slice::split`. Pointers into the slice are offsets from its first byte. -/

namespace NetDemo.Http
namespace Slice

def piece (s : Bytes) (pb p : ℕ) : Bytes := (s.take p).drop pb

/-- The loop over `p`, with the bytes from `p` on, and where it leaves `pb`. -/
def splitLoop (s : Bytes) (ch : UInt8) : Bytes → ℕ → ℕ → List Bytes → List Bytes × ℕ
  | [], _, pb, r => (r, pb)
  | b :: rest, p, pb, r =>
    if b = ch then splitLoop s ch rest (p + 1) (p + 1) (r ++ [piece s pb p])
    else splitLoop s ch rest (p + 1) pb r

def split (s : Bytes) (ch : UInt8) : List Bytes :=
  let (r, pb) := splitLoop s ch s 0 0 []
  if s ≠ [] then r ++ [piece s pb s.length] else r

/-- `join` of pieces with a separator between them. -/
def join (pieces : List Bytes) (ch : UInt8) : Bytes := [ch].intercalate pieces

variable {s : Bytes} {ch : UInt8}

theorem piece_append (front l rest : Bytes) :
    piece (front ++ l ++ rest) front.length (front ++ l).length = l := by
  rw [piece, List.take_left, List.drop_left]

theorem splitLoop_eq {front l rest : Bytes} (hs : s = front ++ l ++ rest) (hl : ch ∉ l) (r : List Bytes) :
    (splitLoop s ch rest (front ++ l).length front.length r).1 ++
        [piece s (splitLoop s ch rest (front ++ l).length front.length r).2 s.length] =
      r ++ (l ++ rest).splitOn ch := by
  induction rest generalizing front l r with
  | nil =>
    have hlast : piece s front.length s.length = l := by
      rw [hs, List.append_nil, piece, List.take_length, List.drop_left]
    rw [splitLoop, hlast, List.append_nil, List.splitOn_eq_singleton hl]
  | cons b rest ih =>
    have hnext : s = (front ++ l ++ [b]) ++ [] ++ rest := by simp [hs]
    rw [splitLoop]
    split_ifs with hb
    · have hpiece : piece s front.length (front ++ l).length = l := by rw [hs, piece_append]
      have hrec := ih hnext List.not_mem_nil (r ++ [l])
      rw [List.append_nil, List.nil_append, List.length_append, List.length_singleton] at hrec
      rw [hpiece, hrec, hb, List.splitOn_append_cons_self_of_not_mem hl, List.append_assoc,
        List.singleton_append]
    · have hl' : ch ∉ l ++ [b] := by
        rw [List.mem_append, List.mem_singleton]
        exact not_or.mpr ⟨hl, Ne.symm hb⟩
      have hnext : s = front ++ (l ++ [b]) ++ rest := by simp [hs]
      have hlen : (front ++ (l ++ [b])).length = (front ++ l).length + 1 := by
        rw [← List.append_assoc, List.length_append, List.length_singleton]
      have hrec := ih hnext hl' r
      rw [hlen, List.append_assoc, List.singleton_append] at hrec
      exact hrec

theorem split_eq (s : Bytes) (ch : UInt8) : split s ch = if s = [] then [] else s.splitOn ch := by
  have hstart : s = [] ++ [] ++ s := rfl
  have hnone : ch ∉ ([] : Bytes) := List.not_mem_nil
  have hloop := splitLoop_eq hstart hnone []
  unfold split
  by_cases hs : s = []
  · subst hs
    rfl
  · rw [if_neg hs]
    exact (if_pos hs).trans hloop

theorem notMem_of_mem_splitOn {l : Bytes} (h : l ∈ s.splitOn ch) : ch ∉ l := by
  induction s generalizing l with
  | nil =>
    rw [List.splitOn_nil, List.mem_singleton] at h
    rw [h]
    exact List.not_mem_nil
  | cons b s ih =>
    rw [List.splitOn_cons_eq_if_modifyHead] at h
    split_ifs at h with hb
    · rcases List.mem_cons.mp h with rfl | h
      · exact List.not_mem_nil
      · exact ih h
    · obtain ⟨head, tail, htail⟩ := List.exists_cons_of_ne_nil (List.splitOn_ne_nil ch s)
      rw [htail, List.modifyHead_cons] at h
      rw [htail] at ih
      rcases List.mem_cons.mp h with rfl | h
      · rw [List.mem_cons]
        exact not_or.mpr ⟨fun heq => hb (beq_iff_eq.mpr heq.symm), ih List.mem_cons_self⟩
      · exact ih (List.mem_cons_of_mem _ h)

theorem length_splitOn (s : Bytes) (ch : UInt8) : (s.splitOn ch).length = s.count ch + 1 := by
  induction s with
  | nil => rfl
  | cons b s ih =>
    rw [List.splitOn_cons_eq_if_modifyHead, List.count_cons]
    split_ifs with hb
    · rw [List.length_cons, ih]
    · rw [List.length_modifyHead, ih, Nat.add_zero]

theorem join_ne_nil {pieces : List Bytes} (h : pieces ≠ []) (h' : pieces ≠ [[]]) :
    join pieces ch ≠ [] := by
  unfold join
  cases pieces with
  | nil => exact absurd rfl h
  | cons l more =>
    cases more with
    | nil =>
      rw [List.intercalate_singleton]
      exact fun hl => h' (by rw [hl])
    | cons l' more =>
      rw [List.intercalate_cons_cons]
      simp

end Slice

/-- `split` and joining are inverse to each other, and every separator ends a piece. -/
theorem split_join (ch : UInt8) :
    (∀ s : Bytes, (∀ l ∈ Slice.split s ch, ch ∉ l) ∧ Slice.join (Slice.split s ch) ch = s ∧
      (s ≠ [] → (Slice.split s ch).length = s.count ch + 1)) ∧
    ∀ pieces : List Bytes, (∀ l ∈ pieces, ch ∉ l) → pieces ≠ [] → pieces ≠ [[]] →
      Slice.split (Slice.join pieces ch) ch = pieces := by
  refine ⟨fun s => ?_, fun pieces hfree hne hne' => ?_⟩
  · rw [Slice.split_eq]
    split_ifs with hs
    · exact ⟨fun l hl => absurd hl List.not_mem_nil, by rw [hs]; rfl, fun h => absurd hs h⟩
    · exact ⟨fun l => Slice.notMem_of_mem_splitOn, List.intercalate_splitOn ch,
        fun _ => Slice.length_splitOn s ch⟩
  · rw [Slice.split_eq, if_neg (Slice.join_ne_nil hne hne')]
    exact List.splitOn_intercalate ch hfree hne

/-- Empty first, middle and last pieces. -/
theorem split_join_commas :
    Slice.split (ascii ",a,,") 0x2c = [[], ascii "a", [], []] :=
  (split_join 0x2c).2 [[], ascii "a", [], []] (by decide) (by decide) (by decide)

end NetDemo.Http
