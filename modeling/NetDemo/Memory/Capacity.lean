import NetDemo.Memory.Reachable

/-! How far the block of a `Buffer` grows, and whether it shrinks again. -/

namespace NetDemo.Memory
open Foundation Heap
variable {α : Type}

def Pool.bytes (s : Pool α) (i : ℕ) : Option (List α) :=
  s.heap.load (s.buf i).m_pBegin 0 (s.buf i).getBufferLen

theorem Owns.bytes {s : Pool α} {i : ℕ} {v : Cells α} (ho : Owns s.heap (s.buf i) v) :
    s.bytes i = some v.live := by
  rw [Pool.bytes, ho.len, ho.load_live le_rfl, ← v.length_live, List.take_length]

variable [Inhabited α]

/-! ### Growth -/

/-- Neither the sum nor the rounding of `reallocateBuffer(nSize + getBufferLen())` wraps, and there is
room for `nSize` more bytes after it. -/
def MakesRoom (h : Heap α) (b : Buffer) (nSize : ℕ) : Prop :=
  uint (nSize + b.getBufferLen) = nSize + b.getBufferLen ∧
    roundUp (nSize + b.getBufferLen) = alignUp (nSize + b.getBufferLen) ∧
    ∃ h' b' r, b.reallocateBuffer h (uint (nSize + b.getBufferLen)) = some (h', b', r) ∧
      nSize + b.getBufferLen ≤ b'.getMemSize

theorem Owns.makesRoom_iff_le {h : Heap α} {b : Buffer} {v : Cells α} (ho : Owns h b v) {n : ℕ} :
    MakesRoom h b n ↔ v.len + n ≤ 2 ^ 32 - 1024 := by
  have hsmall := ho.small
  have hlc := v.len_le_cap
  rw [MakesRoom, ho.len]
  constructor
  · rintro ⟨hsum, hround, -⟩
    by_contra hlong
    have hlt : n + v.len < 2 ^ 32 := by
      rw [← hsum]
      unfold uint
      omega
    have hle := le_alignUp (n + v.len)
    rw [← hround, roundUp_eq_zero (by omega) hlt] at hle
    omega
  · intro hle
    have hsum : uint (n + v.len) = n + v.len := by rw [← Nat.cast_add, uint_natCast (by omega)]
    obtain ⟨h', b', r, e, ho', -, -⟩ := ho.reallocateBuffer hle
    have hroom := v.le_length_room n
    refine ⟨hsum, roundUp_eq (by omega), h', b', r, by rw [hsum, Nat.add_comm, e], ?_⟩
    rw [Buffer.getMemSize, ho'.size, Cells.grow, Cells.cap_ofParts, v.length_live]
    omega

/-- `write` and `insert` make room and stay inside of the block up to 2^32 - 1024 bytes, but for a
`write` behind an `m_pEnd` that a `copy` of 2^31 bytes or more misplaced. The length itself survives
every `copy`. -/
theorem makesRoom_iff {s : Pool α} (hs : Reachable s) (i : ℕ) {pData : List α} (hd : pData.length < 2 ^ 32) :
    (MakesRoom s.heap (s.buf i) pData.length ∧ ((s.buf i).write s.heap pData).isSome ↔
      (s.buf i).getBufferLen + pData.length ≤ 2 ^ 32 - 1024 ∧
        (pData = [] ∨ (s.buf i).m_pEnd = (s.buf i).getBufferLen ∨
          (s.buf i).m_nSize ≤ (s.buf i).getBufferLen + pData.length)) ∧
    (MakesRoom s.heap (s.buf i) pData.length ∧ ((s.buf i).insert s.heap pData).isSome ↔
      (s.buf i).getBufferLen + pData.length ≤ 2 ^ 32 - 1024) ∧
    ∀ j, ∃ s', s.act (.copy i j) = some s' ∧ (s'.buf i).getBufferLen = (s.buf j).getBufferLen ∧
      ((s'.buf i).m_pEnd = (s.buf j).getBufferLen ↔ (s.buf j).getBufferLen < 2 ^ 31) := by
  obtain ⟨v, ho⟩ := hs.owned.owns i
  refine ⟨?_, ?_, fun j => ?_⟩
  · rw [ho.makesRoom_iff_le, ho.isSome_write_iff hd, ho.len, ho.size]
    exact and_iff_right_of_imp And.left
  · rw [ho.makesRoom_iff_le, ho.len]
    refine and_iff_left_of_imp fun hle => ?_
    obtain ⟨h', b', e, -⟩ := ho.insert pData hle
    rw [e]
    rfl
  · have hplace {w : Cells α} (hw : w.cap < 2 ^ 32) : int32 w.len = w.len ↔ w.len < 2 ^ 31 := by
      have hlc := w.len_le_cap
      unfold int32
      split_ifs <;> omega
    by_cases hij : i = j
    · subst hij
      obtain ⟨h', b', v', e, ho', hlen, hend, -⟩ := ho.copySelf
      refine ⟨s.set i h' b' (0, []), by simp [Pool.act, e], ?_, ?_⟩
      · simp only [Pool.set, Function.update_self, ho'.len, ho.len, hlen]
      · simp only [Pool.set, Function.update_self, hend, ho.len]
        exact hplace ho.small
    · obtain ⟨w, hw⟩ := hs.owned.owns j
      obtain ⟨h', b', e, ho', hend, -⟩ := ho.copy hw fun k hk => hs.owned.apart j i (Ne.symm hij) k hk
      refine ⟨s.set i h' b' (0, []), by simp [Pool.act, Pool.step, hij, e], ?_, ?_⟩
      · simp only [Pool.set, Function.update_self, ho'.len, hw.len, Cells.len_copy]
      · simp only [Pool.set, Function.update_self, hend, hw.len]
        exact hplace hw.small

theorem exists_write_new (pData : List α) (hd : pData.length ≤ 2 ^ 32 - 1024) :
    ∃ s : Pool α, Reachable s ∧ Owns s.heap (s.buf 0) (Cells.empty.write pData) := by
  obtain ⟨h, b, e, ho, -⟩ := (Owns.new (Heap.empty : Heap α)).write pData (.inl rfl) (by simpa using hd)
  have hact : Pool.new.act (.write 0 pData) = some (Pool.new.set 0 h b (pData.length, [])) := by
    have e' : ((Pool.new : Pool α).buf 0).write Pool.new.heap pData = some (h, b, pData.length) := e
    simp only [Pool.act, Pool.step, e', Option.bind_eq_bind, Option.bind_some, Option.pure_def]
  exact ⟨_, Reachable.new.act (Nat.lt_of_le_of_lt hd (by decide)) hact, ho⟩

/-- 1000 bytes are held, and the block of 1024 has to grow for 100 more. -/
theorem makesRoom_iff_grow : ∃ s : Pool UInt8, Reachable s ∧ (s.buf 0).getBufferLen = 1000 ∧
    (s.buf 0).m_nSize = 1024 ∧ MakesRoom s.heap (s.buf 0) 100 ∧
      ((s.buf 0).insert s.heap (List.replicate 100 7)).isSome := by
  obtain ⟨s, hs, ho⟩ := exists_write_new (List.replicate 1000 (0 : UInt8))
    (List.length_replicate.trans_le (by decide))
  have hlen : (s.buf 0).getBufferLen = 1000 := by
    rw [ho.len, Cells.len_write, List.length_replicate, Cells.len_empty]
  have hsize : (s.buf 0).m_nSize = 1024 := by
    rw [ho.size, Cells.cap_write, List.length_replicate, Cells.len_empty]
    decide
  have hn : (List.replicate 100 (7 : UInt8)).length = 100 := List.length_replicate
  have hd : (List.replicate 100 (7 : UInt8)).length < 2 ^ 32 := by rw [hn]; decide
  have hfit := (makesRoom_iff hs 0 hd).2.1.mpr (by rw [hlen, hn]; decide)
  rw [hn] at hfit
  exact ⟨s, hs, hlen, hsize, hfit⟩

/-- One byte more than fits: the rounded size wraps to 0. -/
theorem not_makesRoom_full : ∃ s : Pool UInt8, Reachable s ∧ (s.buf 0).getBufferLen = 2 ^ 32 - 1024 ∧
    ¬ (MakesRoom s.heap (s.buf 0) 1 ∧ ((s.buf 0).write s.heap [0]).isSome) := by
  obtain ⟨s, hs, ho⟩ := exists_write_new (List.replicate (2 ^ 32 - 1024) (0 : UInt8)) List.length_replicate.le
  have hlen := ho.len
  rw [Cells.len_write, List.length_replicate, Cells.len_empty, Nat.zero_add] at hlen
  refine ⟨s, hs, hlen, fun hfit => ?_⟩
  have hle := ho.makesRoom_iff_le.mp hfit.1
  rw [← ho.len, hlen] at hle
  omega

/-! ### Release -/

def Pool.taken (s : Pool α) (i nSize : ℕ) : ℕ :=
  if (s.buf i).m_nSize < nSize then 0 else min nSize (s.buf i).getBufferLen

/-- `clear`, `remove` and `read` leave the live bytes that they should, and no more capacity than
those need. -/
def GivesBack (s s' : Pool α) : Op α → Prop
  | .clear i => s'.bytes i = some [] ∧ (s'.buf i).m_nSize ≤ 1024
  | .remove i nSize | .read i nSize =>
    s'.bytes i = (s.bytes i).map (List.drop (s.taken i nSize)) ∧
      (0 < s.taken i nSize → (s'.buf i).m_nSize ≤ alignUp ((s.buf i).getBufferLen - s.taken i nSize))
  | .write .. | .insert .. | .copy .. => True

/-- The capacity is not above what will be needed. -/
def Tight (s : Pool α) : Op α → Prop
  | .clear i => (s.buf i).m_nSize ≤ 1024
  | .remove i nSize | .read i nSize =>
    0 < s.taken i nSize → (s.buf i).m_nSize ≤ alignUp ((s.buf i).getBufferLen - s.taken i nSize)
  | .write .. | .insert .. | .copy .. => True

def Op.Shrinks : Op α → Prop
  | .clear _ | .remove .. | .read .. => True
  | .write .. | .insert .. | .copy .. => False

namespace Owns
variable {s : Pool α} {i : ℕ} {v : Cells α}

theorem drops (ho : Owns s.heap (s.buf i) v) {n : ℕ} {s' : Pool α} (ho' : Owns s'.heap (s'.buf i) (v.remove n)) :
    (s'.bytes i = (s.bytes i).map (List.drop (s.taken i n)) ∧
      (0 < s.taken i n → (s'.buf i).m_nSize ≤ alignUp ((s.buf i).getBufferLen - s.taken i n))) ↔
    (0 < s.taken i n → (s.buf i).m_nSize ≤ alignUp ((s.buf i).getBufferLen - s.taken i n)) := by
  have hbytes : s'.bytes i = (s.bytes i).map (List.drop (s.taken i n)) := by
    rw [ho'.bytes, ho.bytes, Pool.taken, ho.size, ho.len, Option.map_some]
    by_cases hn : v.cap < n
    · rw [if_pos hn, Cells.remove, if_pos hn, List.drop_zero]
    · rw [if_neg hn, Cells.live_remove v (Nat.le_of_not_lt hn), ← v.length_live]
      rcases Nat.le_total n v.live.length with h | h
      · rw [Nat.min_eq_left h]
      · rw [Nat.min_eq_right h, List.drop_length, List.drop_of_length_le h]
  rw [ho'.size, Cells.cap_remove, ← ho.size]
  exact and_iff_right hbytes

end Owns

/-- No operation ever makes a block smaller: what is left is tight only if it was before. -/
theorem givesBack_iff {s : Pool α} (hs : Reachable s) {op : Op α} (hop : op.Shrinks) :
    ∃ s', s.act op = some s' ∧ (GivesBack s s' op ↔ Tight s op) := by
  cases op with
  | clear i =>
    obtain ⟨v, ho⟩ := hs.owned.owns i
    obtain ⟨h', b', e, ho', -⟩ := ho.clear
    have hset : Owns (s.set i h' b' (0, [])).heap ((s.set i h' b' (0, [])).buf i) v.clear := by
      simpa only [Pool.set, Function.update_self] using ho'
    refine ⟨s.set i h' b' (0, []), by simp [Pool.act, Pool.step, e], ?_⟩
    rw [GivesBack, Tight, hset.bytes, hset.size, ho.size, Cells.cap_clear, max_le_iff]
    simp
  | remove i n =>
    obtain ⟨v, ho⟩ := hs.owned.owns i
    obtain ⟨h', b', e, ho', -⟩ := ho.remove n
    refine ⟨s.set i h' b' _, by simp [Pool.act, Pool.step, e]; rfl, ho.drops ?_⟩
    simpa only [Pool.set, Function.update_self] using ho'
  | read i n =>
    obtain ⟨v, ho⟩ := hs.owned.owns i
    obtain ⟨h', b', e, ho', -⟩ := ho.read n
    refine ⟨s.set i h' b' _, by simp [Pool.act, Pool.step, e]; rfl, ho.drops ?_⟩
    simpa only [Pool.set, Function.update_self] using ho'
  | write | insert | copy => exact hop.elim

/-- Two of three bytes are read. -/
theorem givesBack_iff_read : ∃ s s' : Pool UInt8, Reachable s ∧ s.bytes 0 = some [1, 2, 3] ∧
    s.act (.read 0 2) = some s' ∧ s'.bytes 0 = some [3] ∧ (s'.buf 0).m_nSize ≤ 1024 := by
  obtain ⟨s, hs, ho⟩ := exists_write_new [(1 : UInt8), 2, 3] (by decide)
  have hop : (Op.read 0 2 : Op UInt8).Shrinks := trivial
  obtain ⟨s', hact, hiff⟩ := givesBack_iff hs hop
  have hbytes : s.bytes 0 = some [1, 2, 3] := by
    rw [ho.bytes, Cells.live_write, Cells.live_empty]
    rfl
  have hlen : (s.buf 0).getBufferLen = 3 := by rw [ho.len, Cells.len_write]; rfl
  have hsize : (s.buf 0).m_nSize = 1024 := by rw [ho.size, Cells.cap_write]; rfl
  have htaken : s.taken 0 2 = 2 := by simp [Pool.taken, hlen, hsize]
  have htight : Tight s (.read 0 2) := fun _ => by rw [hsize, hlen, htaken]; decide
  obtain ⟨hdrop, hback⟩ := hiff.mpr htight
  rw [htaken, hbytes] at hdrop
  rw [htaken, hlen] at hback
  exact ⟨s, s', hs, hbytes, hact, hdrop, (hback (by decide)).trans (by decide)⟩

/-- Two blocks of 1024 bytes stay two when nothing is left in them. -/
theorem not_givesBack_clear : ∃ s s' : Pool UInt8, Reachable s ∧ (s.buf 0).getBufferLen = 1025 ∧
    s.act (.clear 0) = some s' ∧ ¬ GivesBack s s' (.clear 0) := by
  obtain ⟨s, hs, ho⟩ := exists_write_new (List.replicate 1025 (0 : UInt8))
    (List.length_replicate.trans_le (by decide))
  have hlen := ho.len
  have hcap := (Cells.empty.write (List.replicate 1025 (0 : UInt8))).len_le_cap
  rw [Cells.len_write, List.length_replicate, Cells.len_empty, Nat.zero_add] at hlen hcap
  obtain ⟨h', b', e, ho', -⟩ := ho.clear
  refine ⟨s, s.set 0 h' b' (0, []), hs, hlen, by simp [Pool.act, Pool.step, e], fun hback => ?_⟩
  have hsize : ((s.set 0 h' b' (0, [])).buf 0).m_nSize ≤ 1024 := hback.2
  simp only [Pool.set, Function.update_self, ho'.size, Cells.cap_clear] at hsize
  omega

end NetDemo.Memory
