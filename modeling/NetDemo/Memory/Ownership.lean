import NetDemo.Memory.Cells

/-! The operations of `Buffer` on a heap compute the operations on `Cells`, and they touch no block
but their own. -/

namespace NetDemo.Memory
open Foundation Heap
variable {α : Type}

theorem roundUp_eq {n : ℕ} (h : n ≤ 2 ^ 32 - 1024) : roundUp n = alignUp n := by
  unfold roundUp
  rw [uint_natCast (by omega)]
  rfl

/-- The rounding wraps as soon as the size is beyond the last multiple of 1024. -/
theorem roundUp_eq_zero {n : ℕ} (hn : 2 ^ 32 - 1024 < n) (hlt : n < 2 ^ 32) : roundUp n = 0 := by
  unfold roundUp uint
  omega

/-- `b` is the only `Buffer` of its block, and the block holds the cells `v`. -/
structure Owns (h : Heap α) (b : Buffer) (v : Cells α) : Prop where
  points : h.Points b.m_pBegin v.mem
  size : b.m_nSize = v.cap
  small : v.cap < 2 ^ 32
  len : b.getBufferLen = v.len

namespace Owns

theorem new (h : Heap α) : Owns h Buffer.new Cells.empty := ⟨rfl, rfl, Nat.two_pow_pos 32, rfl⟩

theorem cap_le {h : Heap α} {b : Buffer} {v : Cells α} (ho : Owns h b v) : v.cap ≤ 2 ^ 32 - 1024 := by
  have h1 := ho.small
  have h2 : 1024 ∣ v.cap := v.aligned
  omega

theorem cap_eq_zero {h : Heap α} {b : Buffer} {v : Cells α} (ho : Owns h b v) :
    b.m_pBegin = none ↔ v.cap = 0 := by
  have hp := ho.points
  cases hb : b.m_pBegin with
  | none => simp_all [Points, Cells.cap]
  | some i => simp_all [Points, Cells.cap]

theorem uint_end {h : Heap α} {b : Buffer} {v : Cells α} (ho : Owns h b v) (hc : v.cap ≠ 0) :
    uint b.m_pEnd = v.len := by
  have hl := ho.len
  rwa [Buffer.getBufferLen, if_neg (fun he => hc (ho.cap_eq_zero.mp he))] at hl

theorem eq_new {h : Heap α} {b : Buffer} {v : Cells α} (ho : Owns h b v) (hc : v.cap = 0)
    (hend : b.m_pEnd = 0) : b = Buffer.new := by
  have hp := ho.cap_eq_zero.mpr hc
  have hs := ho.size
  obtain ⟨p, e, n⟩ := b
  simp only at hp hs hend
  rw [hp, hs, hend, hc]
  rfl

theorem frame {h h' : Heap α} {b : Buffer} {v : Cells α} {p p' : Ptr} (ho : Owns h b v)
    (hr : Replaces h p h' p') (hne : ∀ i, b.m_pBegin = some i → p ≠ some i) : Owns h' b v :=
  ⟨ho.points.frame hr hne, ho.size, ho.small, ho.len⟩

theorem load_live {h : Heap α} {b : Buffer} {v : Cells α} (ho : Owns h b v) {n : ℕ} (hn : n ≤ v.len) :
    h.load b.m_pBegin 0 n = some (v.live.take n) := by
  have hl := v.len_le
  rw [load_points ho.points le_rfl (by simp; omega)]
  simp [Cells.live, List.take_take, Nat.min_eq_left hn]

theorem destroy {h : Heap α} {b : Buffer} {v : Cells α} (ho : Owns h b v) :
    ∃ h', b.destroy h = some h' ∧ Replaces h b.m_pBegin h' none := release_points ho.points

theorem take_mem {v : Cells α} : v.mem.take v.len = v.live := rfl

theorem of_parts {h : Heap α} {b : Buffer} {l t : List α} (hd : 1024 ∣ l.length + t.length)
    (hp : h.Points b.m_pBegin (l ++ t)) (hs : b.m_nSize = l.length + t.length)
    (hlt : l.length + t.length < 2 ^ 32) (hl : b.getBufferLen = l.length) :
    Owns h b (Cells.ofParts l t hd) :=
  ⟨hp, by rw [hs, Cells.cap_ofParts], by rwa [Cells.cap_ofParts], hl⟩

end Owns

theorem copyMemory_points {h : Heap α} {dst src : Ptr} {c d : List α} (hs : h.Points src c)
    (hd : h.Points dst d) {n : ℕ} (hc : n ≤ c.length) (hn : n ≤ d.length) :
    ∃ h', copyMemory h dst 0 src 0 n = some h' ∧ h'.Points dst (c.take n ++ d.drop n) ∧
      Replaces h dst h' dst := by
  have hl : (c.take n).length = n := by simp [hc]
  obtain ⟨h', e, hp, hr⟩ := store_points hd 0 (c.take n) le_rfl (by simpa [hl] using hn)
  refine ⟨h', ?_, by simpa [hl] using hp, hr⟩
  rw [copyMemory, load_points hs (le_refl 0) (by simpa using hc)]
  simpa using e

variable [Inhabited α]

theorem virtualAlloc_points (h : Heap α) (n : ℕ) :
    (virtualAlloc h n).1.Points (virtualAlloc h n).2 (List.replicate n default) ∧
      Replaces h none (virtualAlloc h n).1 (virtualAlloc h n).2 := by
  unfold virtualAlloc
  split_ifs with hn
  · exact ⟨by simp [Points, hn], Replaces.refl h none⟩
  · exact alloc_points h (by simpa using hn)

namespace Owns
variable {h : Heap α} {b : Buffer} {v : Cells α}

theorem moveTo (ho : Owns h b v) {n : ℕ} (hn : v.len ≤ n) :
    ∃ h' p, b.moveTo h n = some (h', ⟨p, v.len, n⟩, n) ∧
      h'.Points p (v.live ++ List.replicate (n - v.len) default) ∧ Replaces h b.m_pBegin h' p := by
  obtain ⟨ha, hra⟩ := virtualAlloc_points h n
  have hold := ho.points.frame hra (by simp)
  obtain ⟨h₂, e₂, hc, hrc⟩ := copyMemory_points hold ha (n := v.len) v.len_le (by simpa using hn)
  have hfresh : ∀ i, b.m_pBegin = some i → (virtualAlloc h n).2 ≠ some i := by
    intro i hi he
    have hp := ho.points
    rw [hi] at hp
    exact hra.apart hp.lt_next (by simp) he
  have hold₂ := hold.frame hrc hfresh
  obtain ⟨h₃, e₃, hrr⟩ := release_points hold₂
  refine ⟨h₃, (virtualAlloc h n).2, ?_, ?_, (hra.trans hrc).swap hrr⟩
  · simp [Buffer.moveTo, ho.len, e₂, e₃]
  · rw [take_mem, List.drop_replicate] at hc
    exact hc.frame hrr fun i hi he => hfresh i he hi

theorem reallocateBuffer (ho : Owns h b v) {k : ℕ} (hk : v.len + k ≤ 2 ^ 32 - 1024) :
    ∃ h' b' r, b.reallocateBuffer h (v.len + k) = some (h', b', r) ∧ Owns h' b' (v.grow k) ∧
      (b.m_pEnd = v.len ∨ v.cap ≤ v.len + k → b'.m_pEnd = v.len) ∧
      Replaces h b.m_pBegin h' b'.m_pBegin := by
  have hlen := v.length_room k
  unfold Buffer.reallocateBuffer
  rw [Buffer.getMemSize, ho.size]
  split_ifs with hlt
  · refine ⟨h, b, 0, rfl, ?_, fun he => he.resolve_right (Nat.not_le.mpr hlt), Replaces.refl ..⟩
    rw [if_pos hlt] at hlen
    refine of_parts _ ?_ (by rw [ho.size, v.length_live, hlen]) ?_ (by rw [ho.len, v.length_live])
    · rw [Cells.room, if_pos hlt, Cells.live_append_stale]
      exact ho.points
    · rw [v.length_live, hlen]
      exact ho.small
  · -- The live cells move to a new block, whose other cells are zero.
    rw [if_neg hlt] at hlen
    have hle := le_alignUp (v.len + k)
    have hlt' : alignUp (v.len + k) < 2 ^ 32 := by
      have := dvd_alignUp (v.len + k)
      have := alignUp_lt (v.len + k)
      omega
    obtain ⟨h', p, e, hp, hr⟩ := ho.moveTo (n := alignUp (v.len + k)) (by omega)
    rw [roundUp_eq hk]
    refine ⟨h', _, _, e, ?_, fun _ => rfl, hr⟩
    refine of_parts _ ?_ (by rw [v.length_live, hlen]) ?_ ?_
    · rwa [Cells.room, if_neg hlt]
    · rwa [v.length_live, hlen]
    · rw [v.length_live, Buffer.getBufferLen]
      split_ifs with hnone
      · rw [show p = none from hnone] at hp
        have := congrArg List.length (show _ = ([] : List α) from hp)
        simp at this
        omega
      · exact uint_natCast (by omega)

theorem getBufferLen_grown {k : ℕ} (ho : Owns h b (v.grow k)) (hk : v.len + k < 2 ^ 32) :
    ({ b with m_pEnd := b.m_pEnd + k } : Buffer).getBufferLen = v.len + k := by
  have hlen := ho.len
  simp only [Buffer.getBufferLen, Cells.grow, Cells.len_ofParts, v.length_live] at hlen ⊢
  split_ifs at hlen ⊢ with hnone
  · -- A block of no cells has no room.
    have hcap := ho.cap_eq_zero.mp hnone
    have hroom := v.le_length_room k
    rw [Cells.grow, Cells.cap_ofParts] at hcap
    omega
  · unfold uint at hlen ⊢
    omega

theorem write (ho : Owns h b v) (data : List α) (ht : b.m_pEnd = v.len ∨ v.cap ≤ v.len + data.length)
    (hd : v.len + data.length ≤ 2 ^ 32 - 1024) :
    ∃ h' b', b.write h data = some (h', b', data.length) ∧ Owns h' b' (v.write data) ∧
      b'.m_pEnd = (v.write data).len ∧ Replaces h b.m_pBegin h' b'.m_pBegin := by
  obtain ⟨h₁, b₁, r, e₁, ho₁, ht₁, hr₁⟩ := ho.reallocateBuffer (k := data.length) hd
  have hroom := v.le_length_room data.length
  have hcap := ho₁.small
  rw [Cells.grow, Cells.cap_ofParts, v.length_live] at hcap
  obtain ⟨h₂, e₂, hp₂, hr₂⟩ := store_points ho₁.points b₁.m_pEnd data
    (by rw [ht₁ ht]; omega) (by rw [ht₁ ht]; simp [Cells.grow, Cells.ofParts]; omega)
  refine ⟨h₂, { b₁ with m_pEnd := b₁.m_pEnd + data.length }, ?_, ?_, ?_, hr₁.trans hr₂⟩
  · have hu : uint (data.length + b.getBufferLen) = v.len + data.length := by
      rw [ho.len, ← Nat.cast_add, uint_natCast (by omega), Nat.add_comm]
    simp only [Buffer.write, hu, e₁, Option.bind_eq_bind, Option.bind_some, e₂, Option.pure_def]
  · apply of_parts _
    · have hdrop : (v.live ++ v.room data.length).drop (v.len + data.length) =
          (v.room data.length).drop data.length := by
        rw [← v.length_live, List.drop_length_add_append]
      simpa [ht₁ ht, Cells.grow, Cells.ofParts, hdrop] using hp₂
    · simp only [ho₁.size, Cells.grow, Cells.cap_ofParts, List.length_append, List.length_drop]
      omega
    · simp only [List.length_append, v.length_live, List.length_drop]
      omega
    · rw [ho₁.getBufferLen_grown (by omega), List.length_append, v.length_live]
  · rw [ht₁ ht, Cells.len_write, Nat.cast_add]

omit [Inhabited α] in
theorem store_end (ho : Owns h b v) {h' : Heap α} (hp : h'.Points b.m_pBegin v.mem) {data : List α}
    (hd : data ≠ []) (hn : b.m_pEnd ≠ v.len ∨ v.cap < v.len + data.length) :
    h'.store b.m_pBegin b.m_pEnd data = none := by
  have hsmall := ho.small
  have hpos := List.length_pos_iff.mpr hd
  by_cases hcap : v.cap = 0
  · refine store_eq_none hp hd (.inr ?_)
    rw [Cells.cap] at hcap
    omega
  · have hend := ho.uint_end hcap
    refine store_eq_none hp hd ?_
    rw [← Cells.cap]
    unfold uint at hend
    omega

theorem moveTo_zero {h' : Heap α} {b' : Buffer} {r : ℕ} (he : b.moveTo h 0 = some (h', b', r)) :
    b' = ⟨none, b.getBufferLen, 0⟩ := by
  simp only [Buffer.moveTo, virtualAlloc, if_true, Option.bind_eq_bind, Option.pure_def,
    Option.bind_eq_some_iff, Option.some.injEq, Prod.mk.injEq] at he
  obtain ⟨_, _, _, _, _, rfl, _⟩ := he
  rfl

/-- Past 2^32 - 1024 bytes the size request wraps and the copy leaves the block. -/
theorem write_fault (ho : Owns h b v) {data : List α} (hd : data.length < 2 ^ 32)
    (hlong : 2 ^ 32 - 1024 < v.len + data.length) : b.write h data = none := by
  have hcap := ho.cap_le
  have hlc := v.len_le_cap
  have hdata : data ≠ [] := by
    intro he
    simp only [he, List.length_nil] at hlong
    omega
  simp only [Buffer.write, Buffer.reallocateBuffer, ho.len, Buffer.getMemSize, ho.size]
  by_cases hlt : uint (data.length + v.len) < v.cap
  · simp [hlt, ho.store_end ho.points hdata (.inr (by omega))]
  · -- the sum did not wrap, so the rounding did, and `VirtualAlloc(0)` answered `NULL`
    have hzero : roundUp (uint (data.length + v.len)) = 0 := by
      have hu : uint (data.length + v.len) < 2 ^ 32 ∧ 2 ^ 32 - 1024 < uint (data.length + v.len) := by
        unfold uint at hlt ⊢
        omega
      exact roundUp_eq_zero hu.2 hu.1
    have hstoreNull (h' : Heap α) (off : ℤ) : h'.store none off data = none := by simp [Heap.store, hdata]
    rw [if_neg hlt, hzero]
    cases he : b.moveTo h 0 with
    | none => simp
    | some r => simp [moveTo_zero he, hstoreNull]

theorem insert (ho : Owns h b v) (data : List α) (hd : v.len + data.length ≤ 2 ^ 32 - 1024) :
    ∃ h' b', b.insert h data = some (h', b', data.length) ∧ Owns h' b' (v.insert data) ∧
      (b.m_pEnd = v.len → b'.m_pEnd = (v.insert data).len) ∧ Replaces h b.m_pBegin h' b'.m_pBegin := by
  obtain ⟨h₁, b₁, r, e₁, ho₁, ht₁, hr₁⟩ := ho.reallocateBuffer (k := data.length) hd
  have hroom := v.le_length_room data.length
  have hcap := ho₁.small
  rw [Cells.grow, Cells.cap_ofParts, v.length_live] at hcap
  have hsize : b₁.m_nSize = v.len + (v.room data.length).length := by
    rw [ho₁.size, Cells.grow, Cells.cap_ofParts, v.length_live]
  have hmem : (v.grow data.length).mem = v.live ++ v.room data.length := rfl
  -- `MoveMemory` behind the place of the new bytes
  obtain ⟨h₂, e₂, hp₂, hr₂⟩ : ∃ h₂, moveMemory h₁ b₁.m_pBegin data.length 0
      (b₁.m_nSize - data.length) = some h₂ ∧ h₂.Points b₁.m_pBegin
        ((v.grow data.length).mem.take data.length ++
          (v.grow data.length).mem.take (b₁.m_nSize - data.length)) ∧
      Replaces h₁ b₁.m_pBegin h₂ b₁.m_pBegin := by
    have hl : ((v.grow data.length).mem.take (b₁.m_nSize - data.length)).length =
        b₁.m_nSize - data.length := by
      rw [List.length_take, hmem, List.length_append, v.length_live]
      omega
    obtain ⟨h₂, e₂, hp₂, hr₂⟩ := store_points ho₁.points data.length
      ((v.grow data.length).mem.take (b₁.m_nSize - data.length)) (by omega)
      (by rw [hl, Int.toNat_natCast, hmem, List.length_append, v.length_live]; omega)
    refine ⟨h₂, ?_, ?_, hr₂⟩
    · rw [moveMemory, copyMemory, load_points ho₁.points le_rfl (by simp [hmem]; omega)]
      simpa using e₂
    · rw [Int.toNat_natCast, hl, Nat.add_sub_cancel' (by omega),
        List.drop_of_length_le (by simp [hmem]; omega)] at hp₂
      simpa using hp₂
  obtain ⟨h₃, e₃, hp₃, hr₃⟩ := store_points hp₂ 0 data le_rfl
    (by simp [hmem]; omega)
  refine ⟨h₃, { b₁ with m_pEnd := b₁.m_pEnd + data.length }, ?_, ?_, ?_, (hr₁.trans hr₂).trans hr₃⟩
  · have hu : uint (data.length + b.getBufferLen) = v.len + data.length := by
      rw [ho.len, ← Nat.cast_add, uint_natCast (by omega), Nat.add_comm]
    have hu₂ : uint (b₁.getMemSize - data.length) = b₁.m_nSize - data.length := by
      rw [Buffer.getMemSize, ← Nat.cast_sub (by omega), uint_natCast (by omega)]
    simp only [Buffer.insert, hu, e₁, Option.bind_eq_bind, Option.bind_some, hu₂, e₂, e₃,
      Option.pure_def]
  · apply of_parts _
    · have htake : (v.grow data.length).mem.take (b₁.m_nSize - data.length) =
          v.live ++ (v.room data.length).take ((v.room data.length).length - data.length) := by
        rw [hmem, hsize, List.take_append, v.length_live, List.take_of_length_le (by simp; omega)]
        congr 2
        omega
      have hdrop : ((v.grow data.length).mem.take data.length ++
          (v.grow data.length).mem.take (b₁.m_nSize - data.length)).drop data.length =
          (v.grow data.length).mem.take (b₁.m_nSize - data.length) := by
        apply List.drop_left'
        simp [hmem]
        omega
      rw [Int.toNat_zero, List.take_zero, List.nil_append, Nat.zero_add, hdrop, htake] at hp₃
      rwa [List.append_assoc]
    · simp only [hsize, List.length_append, List.length_take, v.length_live]
      omega
    · simp only [List.length_append, List.length_take, v.length_live]
      omega
    · rw [ho₁.getBufferLen_grown (by omega), List.length_append, v.length_live, Nat.add_comm]
  · intro ht
    rw [ht₁ (.inl ht), ← Nat.cast_add]
    simp [Cells.insert, Nat.add_comm]

omit [Inhabited α] in
theorem consume (ho : Owns h b v) {n : ℕ} (hn : n ≤ v.len) :
    ∃ h' b', b.consume h n = some (h', b') ∧ Owns h' b' (v.shift n hn) ∧
      (b.m_pEnd = v.len → b'.m_pEnd = (v.len - n : ℕ)) ∧ b'.m_pBegin = b.m_pBegin ∧
      Replaces h b.m_pBegin h' b'.m_pBegin := by
  have hlc := v.len_le_cap
  by_cases h0 : n = 0
  · subst h0
    have hs : v.shift 0 hn = v := by
      ext1
      · simp [Cells.shift, Cells.cap]
      · rfl
    exact ⟨h, b, rfl, by rwa [hs], fun he => he, rfl, Replaces.refl ..⟩
  have hcap : v.cap = v.mem.length := rfl
  have hl : ((v.mem.drop n).take (v.cap - n)).length = v.cap - n := by simp; omega
  obtain ⟨h', e, hp, hr⟩ := store_points ho.points 0 ((v.mem.drop n).take (v.cap - n))
    le_rfl (by rw [hl]; simp; omega)
  refine ⟨h', { b with m_pEnd := b.m_pEnd - n }, ?_, ⟨?_, ?_, ?_, ?_⟩, ?_, rfl, hr⟩
  · rw [Buffer.consume, if_neg h0, Buffer.getMemSize, ho.size, moveMemory, copyMemory,
      load_points ho.points (by omega) (by simp; omega)]
    simp [e]
  · have hall : (v.mem.drop n).take (v.cap - n) = v.mem.drop n :=
      List.take_of_length_le (by simp; omega)
    rw [hall] at hp
    simpa [Cells.shift, hcap] using hp
  · rw [Cells.cap_shift]
    exact ho.size
  · rw [Cells.cap_shift]
    exact ho.small
  · have hsmall := ho.small
    have hend := ho.uint_end (by omega)
    have hnone : b.m_pBegin ≠ none := fun he => by
      have := ho.cap_eq_zero.mp he
      omega
    simp only [Buffer.getBufferLen, if_neg hnone, Cells.shift]
    unfold uint at hend ⊢
    omega
  · intro he
    simp only [he]
    omega

theorem deallocateBuffer (ho : Owns h b v) :
    ∃ h' b' r, b.deallocateBuffer h v.len = some (h', b', r) ∧ Owns h' b' v.settle ∧
      (b.m_pEnd = v.len → b'.m_pEnd = v.len) ∧ Replaces h b.m_pBegin h' b'.m_pBegin := by
  have hlc := v.len_le_cap
  have hcap := ho.cap_le
  have hal : 1024 ∣ v.cap := v.aligned
  unfold Buffer.deallocateBuffer Cells.settle
  rw [ho.len, Buffer.getMemSize, ho.size, if_neg (lt_irrefl _), roundUp_eq (by omega)]
  split_ifs with hlt
  · exact ⟨h, b, 0, rfl, ho, fun he => he, Replaces.refl ..⟩
  have hfull : alignUp v.len = v.cap := by
    have := alignUp_mono hlc
    rw [alignUp_of_dvd hal] at this
    omega
  obtain ⟨h', p, e, hp, hr⟩ := ho.moveTo (n := v.cap) hlc
  rw [hfull]
  refine ⟨h', _, _, e, of_parts _ hp ?_ ?_ ?_, fun _ => rfl, hr⟩
  · simp
    omega
  · simp
    omega
  · rw [v.length_live, Buffer.getBufferLen]
    split_ifs with hnone
    · rw [show p = none from hnone] at hp
      have := congrArg List.length (show _ = ([] : List α) from hp)
      simp at this
      omega
    · exact uint_natCast (by omega)

theorem clamp_eq (n len : ℕ) : (if len < n then len else n) = min n len := by
  split_ifs <;> omega

theorem remove (ho : Owns h b v) (n : ℕ) :
    ∃ h' b', b.remove h n = some (h', b', if v.cap < n then 0 else min n v.len) ∧
      Owns h' b' (v.remove n) ∧ (b.m_pEnd = v.len → b'.m_pEnd = (v.remove n).len) ∧
      Replaces h b.m_pBegin h' b'.m_pBegin := by
  simp only [Buffer.remove, Cells.remove, Buffer.getMemSize, ho.size, ho.len, clamp_eq]
  by_cases hn : v.cap < n
  · simp only [if_pos hn]
    exact ⟨h, b, rfl, ho, fun he => he, Replaces.refl ..⟩
  simp only [if_neg hn]
  obtain ⟨h₁, b₁, e₁, ho₁, ht₁, -, hr₁⟩ := ho.consume (Nat.min_le_right n v.len)
  obtain ⟨h₂, b₂, r, e₂, ho₂, ht₂, hr₂⟩ := ho₁.deallocateBuffer
  refine ⟨h₂, b₂, ?_, ho₂, fun he => ?_, hr₁.trans hr₂⟩
  · rw [← ho₁.len] at e₂
    simp [e₁, e₂]
  · rw [ht₂ (ht₁ he), Cells.len_settle]

theorem deallocateBuffer_zero (ho : Owns h b v) (h0 : v.len = 0) :
    ∃ h' b' r, b.deallocateBuffer h 0 = some (h', b', r) ∧ Owns h' b' v ∧
      (b.m_pEnd = v.len → b'.m_pEnd = v.len) ∧ b'.m_pBegin = b.m_pBegin ∧
      Replaces h b.m_pBegin h' b'.m_pBegin := by
  have hround : roundUp 0 = 0 := rfl
  unfold Buffer.deallocateBuffer
  rw [ho.len, Buffer.getMemSize, ho.size, if_neg (by omega), hround]
  split_ifs with hlt
  · exact ⟨h, b, 0, rfl, ho, fun he => he, rfl, Replaces.refl ..⟩
  · have hnull := ho.cap_eq_zero.mpr (by omega)
    have hv : v = Cells.empty := by
      ext1
      · exact List.eq_nil_of_length_eq_zero (by rw [← Cells.cap]; omega)
      · exact h0
    refine ⟨h, ⟨none, 0, 0⟩, 0, ?_, ?_, fun _ => by rw [h0]; rfl, hnull.symm, by rw [hnull]; exact .refl ..⟩
    · simp [Buffer.moveTo, virtualAlloc, Buffer.getBufferLen, hnull, copyMemory, load, store_nil, release]
    · rw [hv]
      exact Owns.new h

theorem remove_all (ho : Owns h b v) :
    ∃ h' b', b.remove h b.getBufferLen = some (h', b', v.len) ∧ Owns h' b' (v.remove v.len) ∧
      (b.m_pEnd = v.len → b'.m_pEnd = 0) ∧ b'.m_pBegin = b.m_pBegin ∧
      Replaces h b.m_pBegin h' b'.m_pBegin := by
  have hlc := v.len_le_cap
  obtain ⟨h₁, b₁, e₁, ho₁, ht₁, hp₁, hr₁⟩ := ho.consume le_rfl
  have hlen : (v.shift v.len le_rfl).len = 0 := Nat.sub_self _
  obtain ⟨h₂, b₂, r, e₂, ho₂, ht₂, hp₂, hr₂⟩ := ho₁.deallocateBuffer_zero hlen
  refine ⟨h₂, b₂, ?_, by rwa [Cells.remove_len], fun he => ?_, hp₂.trans hp₁, hr₁.trans hr₂⟩
  · have hlen₁ := ho₁.len
    rw [hlen] at hlen₁
    simp only [Buffer.remove, Buffer.getMemSize, ho.size, ho.len, if_neg (Nat.not_lt.mpr hlc), lt_irrefl,
      if_false, Option.bind_eq_bind, e₁, Option.bind_some, hlen₁, e₂, Option.pure_def]
  · rw [ht₂ (by rw [ht₁ he, hlen, Nat.sub_self]), hlen]
    rfl

theorem read (ho : Owns h b v) (n : ℕ) :
    ∃ h' b', b.read h n = some (h', b', if v.cap < n then (0, []) else (min n v.len, v.live.take n)) ∧
      Owns h' b' (v.remove n) ∧ (b.m_pEnd = v.len → b'.m_pEnd = (v.remove n).len) ∧
      Replaces h b.m_pBegin h' b'.m_pBegin := by
  simp only [Buffer.read, Cells.remove, Buffer.getMemSize, ho.size, ho.len, clamp_eq]
  by_cases hn : v.cap < n
  · simp only [if_pos hn]
    exact ⟨h, b, rfl, ho, fun he => he, Replaces.refl ..⟩
  simp only [if_neg hn]
  obtain ⟨h₁, b₁, e₁, ho₁, ht₁, -, hr₁⟩ := ho.consume (Nat.min_le_right n v.len)
  obtain ⟨h₂, b₂, r, e₂, ho₂, ht₂, hr₂⟩ := ho₁.deallocateBuffer
  have hload := ho.load_live (Nat.min_le_right n v.len)
  have htake : v.live.take (min n v.len) = v.live.take n := by
    rw [← v.length_live, ← List.take_take, List.take_length]
  refine ⟨h₂, b₂, ?_, ho₂, fun he => ?_, hr₁.trans hr₂⟩
  · rw [← ho₁.len] at e₂
    simp [hload, e₁, e₂, htake]
  · rw [ht₂ (ht₁ he), Cells.len_settle]

theorem clear (ho : Owns h b v) :
    ∃ h' b', b.clear h = some (h', b') ∧ Owns h' b' v.clear ∧ b'.m_pEnd = 0 ∧
      Replaces h b.m_pBegin h' b'.m_pBegin := by
  have hcap := ho.cap_le
  have hlen : ({ b with m_pEnd := 0 } : Buffer).getBufferLen = 0 := by
    simp [Buffer.getBufferLen, uint]
  have hround : roundUp 1024 = 1024 := rfl
  have hempty : Owns h { b with m_pEnd := 0 } ⟨v.mem, 0, Nat.zero_le _, v.aligned⟩ :=
    ⟨ho.points, ho.size, ho.small, hlen⟩
  have hsize : ({ b with m_pEnd := 0 } : Buffer).getMemSize = v.cap := ho.size
  have hrun : b.clear h = (if 1024 < v.cap then some (h, { b with m_pEnd := 0 }, 0)
      else Buffer.moveTo h { b with m_pEnd := 0 } 1024).bind fun r => some (r.1, r.2.1) := by
    simp only [Buffer.clear, Buffer.deallocateBuffer, hlen, hround, hsize, Nat.not_lt_zero, if_false]
    rfl
  by_cases hlt : 1024 < v.cap
  · refine ⟨h, { b with m_pEnd := 0 }, by simp [hrun, hlt], ?_, rfl, Replaces.refl ..⟩
    have hc : v.clear = ⟨v.mem, 0, Nat.zero_le _, v.aligned⟩ := by
      ext1
      · rw [Cells.mem_clear, if_neg (by omega)]
      · rfl
    rwa [hc]
  · obtain ⟨h', p, e, hp, hr⟩ := hempty.moveTo (n := 1024) (Nat.zero_le _)
    refine ⟨h', ⟨p, 0, 1024⟩, by simp [hrun, hlt, e], ⟨?_, ?_, ?_, ?_⟩, rfl, hr⟩
    · rw [Cells.mem_clear, if_pos (by omega)]
      exact hp
    · rw [Cells.cap_clear, Nat.max_eq_left (by omega)]
    · rw [Cells.cap_clear]
      omega
    · simp [Buffer.getBufferLen, uint]

theorem reallocate_copyRoom (ho : Owns h b v.clear) {w : Cells α} (hw : w.cap ≤ 2 ^ 32 - 1024) :
    ∃ h' b' r, b.reallocateBuffer h w.cap = some (h', b', r) ∧ h'.Points b'.m_pBegin (v.copyRoom w) ∧
      b'.m_nSize = max w.cap v.clear.cap ∧ Replaces h b.m_pBegin h' b'.m_pBegin := by
  unfold Buffer.reallocateBuffer Cells.copyRoom
  rw [Buffer.getMemSize, ho.size, roundUp_eq hw, alignUp_of_dvd (show 1024 ∣ w.cap from w.aligned)]
  split_ifs with hlt
  · exact ⟨h, b, 0, rfl, ho.points, by rw [ho.size, Nat.max_eq_right hlt.le], Replaces.refl ..⟩
  · obtain ⟨h', p, e, hp, hr⟩ := ho.moveTo (n := w.cap) (Nat.zero_le _)
    exact ⟨h', _, _, e, by simpa using hp, (Nat.max_eq_left (Nat.le_of_not_lt hlt)).symm, hr⟩

theorem copy (ho : Owns h b v) {src : Buffer} {w : Cells α} (hs : Owns h src w)
    (hne : ∀ i, src.m_pBegin = some i → b.m_pBegin ≠ some i) :
    ∃ h' b', b.copy h src = some (h', b') ∧ Owns h' b' (v.copy w) ∧
      b'.m_pEnd = int32 w.len ∧ Replaces h b.m_pBegin h' b'.m_pBegin := by
  have hwlen := w.len_le_cap
  have hwcap := hs.cap_le
  have hvcap := ho.cap_le
  have hclear := Cells.cap_clear v
  have hroom := v.length_copyRoom w
  obtain ⟨h₁, b₁, e₁, ho₁, -, hr₁⟩ := ho.clear
  obtain ⟨h₂, b₂, r, e₂, hp₂, hn₂, hr₂⟩ := ho₁.reallocate_copyRoom hwcap
  have hs₂ := hs.frame (hr₁.trans hr₂) fun i hi he => hne i hi he
  obtain ⟨h₃, e₃, hp₃, hr₃⟩ := copyMemory_points hs₂.points hp₂ (n := w.len) w.len_le (by omega)
  refine ⟨h₃, { b₂ with m_pEnd := int32 w.len }, ?_, of_parts _ hp₃ ?_ ?_ ?_, rfl,
    (hr₁.trans hr₂).trans hr₃⟩
  · have hu : uint (int32 src.getMemSize) = w.cap := by
      rw [Buffer.getMemSize, hs.size, uint_int32 hs.small]
    simp only [Buffer.copy, hu, e₁, e₂, hs.len, Option.bind_eq_bind, Option.bind_some, e₃,
      Option.pure_def]
  · rw [hn₂]
    exact (v.len_add_copyRoom w).symm
  · have := v.len_add_copyRoom w
    omega
  · have hnone : b₂.m_pBegin ≠ none := by
      intro he
      rw [he] at hp₂
      rw [show v.copyRoom w = [] from hp₂, List.length_nil] at hroom
      omega
    rw [w.length_live, Buffer.getBufferLen, if_neg hnone]
    exact uint_int32 (by omega)

end Owns

/-! ### A `Buffer` without its block -/

/-- The block of the `Buffer` was given back. -/
def Dead (h : Heap α) (b : Buffer) : Prop := ∃ i, b.m_pBegin = some i ∧ i < h.next ∧ h.block i = none

namespace Dead
variable {h h' : Heap α} {b : Buffer}

omit [Inhabited α]

theorem of_released {p : Ptr} {cells : List α} (hp : h.Points p cells) (hne : cells ≠ [])
    (hb : b.m_pBegin = p) (hr : Replaces h p h' none) : Dead h' b := by
  cases p with
  | none => exact absurd hp hne
  | some i =>
    refine ⟨i, hb, Nat.lt_of_lt_of_le hp.lt_next hr.next_le, ?_⟩
    cases hi : h'.block i with
    | none => rfl
    | some c => exact absurd rfl ((hr.live i (by rw [hi]; rfl)).resolve_left (by simp)).2

theorem frame {p p' : Ptr} {cells : List α} (hd : Dead h b) (hp : h.Points p cells)
    (hr : Replaces h p h' p') : Dead h' b := by
  obtain ⟨i, hb, hlt, hnone⟩ := hd
  refine ⟨i, hb, Nat.lt_of_lt_of_le hlt hr.next_le, ?_⟩
  rw [hr.kept i hlt, hnone]
  rintro rfl
  rw [hp.1] at hnone
  cases hnone

theorem load (hd : Dead h b) {n : ℕ} (hn : n ≠ 0) : h.load b.m_pBegin 0 n = none := by
  obtain ⟨i, hb, -, hnone⟩ := hd
  rw [Heap.load, if_neg hn, hb, Option.bind_some, hnone]

end Dead

theorem Owns.copy_dead {h : Heap α} {b src : Buffer} {v w : Cells α} (ho : Owns h b v)
    (hd : Dead h src) (hn : src.getBufferLen ≠ 0) (hw : src.m_nSize = w.cap)
    (hcap : w.cap ≤ 2 ^ 32 - 1024) : b.copy h src = none := by
  obtain ⟨h₁, b₁, e₁, ho₁, -, hr₁⟩ := ho.clear
  obtain ⟨h₂, b₂, r, e₂, hp₂, -, hr₂⟩ := ho₁.reallocate_copyRoom hcap
  have hd₂ := (hd.frame ho.points hr₁).frame ho₁.points hr₂
  have hu : uint (int32 src.getMemSize) = w.cap := by
    rw [Buffer.getMemSize, hw, uint_int32 (by omega)]
  simp only [Buffer.copy, hu, e₁, e₂, Option.bind_eq_bind, Option.bind_some, copyMemory, hd₂.load hn,
    Option.bind_none]

end NetDemo.Memory
