import NetDemo.Memory.ByteString

/-! The `Buffer`s that any operations lead to, also beyond the sizes for which the operations work. -/

namespace NetDemo.Memory
open Foundation Heap
variable {α : Type}

/-- The sizes are of type `UINT`. -/
def Op.Sized : Op α → Prop
  | .write _ pData | .insert _ pData => pData.length < 2 ^ 32
  | .read _ nSize | .remove _ nSize => nSize < 2 ^ 32
  | .clear _ | .copy .. => True

variable [Inhabited α]

/-- `copy` when the source is the target: its block and its length are taken behind `clear`. -/
def Buffer.copySelf (h : Heap α) (b : Buffer) : Option (Heap α × Buffer) := do
  let nReSize := int32 b.getMemSize
  let nSize := int32 b.getBufferLen
  let (h, b) ← clear h b
  let (h, b, _) ← reallocateBuffer h b (uint nReSize)
  let b := { b with m_pEnd := nSize }
  let h ← copyMemory h b.m_pBegin 0 b.m_pBegin 0 b.getBufferLen
  return (h, b)

/-- One operation on any `Buffer`s. -/
def Pool.act (s : Pool α) (op : Op α) : Option (Pool α) :=
  match op with
  | .copy i j =>
    if i = j then do
      let (h, b) ← (s.buf i).copySelf s.heap
      return s.set i h b (0, [])
    else s.step (.copy i j)
  | op => s.step op

/-- What operations with sizes of type `UINT` lead to when none of them leaves a block. -/
def Reachable (s : Pool α) : Prop := ∃ ops, (∀ op ∈ ops, Op.Sized op) ∧ run Pool.act Pool.new ops = some s

/-! ### One operation -/

namespace Owns
variable {h h' : Heap α} {b b' : Buffer} {v : Cells α} {data : List α} {r : ℕ}

theorem write_kept (ho : Owns h b v) (hroom : v.len + data.length < v.cap) : b.write h data =
    (h.store b.m_pBegin b.m_pEnd data).map fun h' =>
      (h', { b with m_pEnd := b.m_pEnd + data.length }, data.length) := by
  have hsmall := ho.small
  have hu : uint (data.length + b.getBufferLen) = v.len + data.length := by
    rw [ho.len, ← Nat.cast_add, uint_natCast (by omega), Nat.add_comm]
  have hkept : b.reallocateBuffer h (v.len + data.length) = some (h, b, 0) := by
    rw [Buffer.reallocateBuffer, Buffer.getMemSize, ho.size, if_pos hroom]
  simp only [Buffer.write, hu, hkept, Option.bind_eq_bind, Option.bind_some, Option.pure_def]
  cases h.store b.m_pBegin b.m_pEnd data <;> rfl

theorem isSome_write_iff (ho : Owns h b v) (hd : data.length < 2 ^ 32) :
    (b.write h data).isSome ↔ v.len + data.length ≤ 2 ^ 32 - 1024 ∧
      (data = [] ∨ b.m_pEnd = v.len ∨ v.cap ≤ v.len + data.length) := by
  by_cases hlong : 2 ^ 32 - 1024 < v.len + data.length
  · rw [ho.write_fault hd hlong]
    exact ⟨nofun, fun hfit => absurd hfit.1 (Nat.not_le.mpr hlong)⟩
  have hle : v.len + data.length ≤ 2 ^ 32 - 1024 := Nat.le_of_not_lt hlong
  by_cases hplace : b.m_pEnd = v.len ∨ v.cap ≤ v.len + data.length
  · obtain ⟨h', b', he, -⟩ := ho.write data hplace hle
    rw [he]
    exact ⟨fun _ => ⟨hle, .inr hplace⟩, fun _ => rfl⟩
  -- the block is kept, and `m_pEnd` lies outside of it
  rw [not_or] at hplace
  rw [ho.write_kept (Nat.lt_of_not_le hplace.2), Option.isSome_map]
  by_cases hnil : data = []
  · rw [hnil, store_nil]
    exact ⟨fun _ => ⟨hnil ▸ hle, .inl rfl⟩, fun _ => rfl⟩
  · rw [ho.store_end ho.points hnil (.inl hplace.1)]
    refine ⟨nofun, fun hfit => ?_⟩
    exact absurd (hfit.2.resolve_left hnil) (not_or.mpr hplace)

theorem of_write (ho : Owns h b v) (hd : data.length < 2 ^ 32) (he : b.write h data = some (h', b', r)) :
    ∃ v', Owns h' b' v' ∧ Replaces h b.m_pBegin h' b'.m_pBegin := by
  have hsome : (b.write h data).isSome := by rw [he]; rfl
  obtain ⟨hle, hplace⟩ := (ho.isSome_write_iff hd).mp hsome
  by_cases hroom : v.len + data.length < v.cap
  swap
  · obtain ⟨h₁, b₁, e₁, ho₁, -, hr₁⟩ := ho.write data (.inr (Nat.le_of_not_lt hroom)) hle
    obtain ⟨rfl, rfl, -⟩ := Prod.mk.inj (Option.some.inj (e₁.symm.trans he)) |>.imp_right Prod.mk.inj
    exact ⟨_, ho₁, hr₁⟩
  rcases hplace with rfl | hend | hfull
  · rw [ho.write_kept hroom, store_nil, Option.map_some, List.length_nil] at he
    obtain ⟨rfl, rfl, -⟩ := Prod.mk.inj (Option.some.inj he) |>.imp_right Prod.mk.inj
    rw [Nat.cast_zero, add_zero]
    exact ⟨v, ho, Replaces.refl ..⟩
  · obtain ⟨h₁, b₁, e₁, ho₁, -, hr₁⟩ := ho.write data (.inl hend) hle
    obtain ⟨rfl, rfl, -⟩ := Prod.mk.inj (Option.some.inj (e₁.symm.trans he)) |>.imp_right Prod.mk.inj
    exact ⟨_, ho₁, hr₁⟩
  · exact absurd hroom (Nat.not_lt.mpr hfull)

/-- The sum of the sizes wraps to less than the length, so the block is kept, and what does not fit is
lost. -/
theorem of_insert_wrapped (ho : Owns h b v) (hd : data.length < 2 ^ 32) (hwrap : 2 ^ 32 ≤ v.len + data.length)
    (he : b.insert h data = some (h', b', r)) :
    ∃ v', Owns h' b' v' ∧ Replaces h b.m_pBegin h' b'.m_pBegin := by
  have hsmall := ho.small
  have hlc := v.len_le_cap
  have hcap : v.cap = v.mem.length := rfl
  have hu : uint (data.length + b.getBufferLen) = v.len + data.length - 2 ^ 32 := by
    rw [ho.len]
    unfold uint
    omega
  have hkept : b.reallocateBuffer h (v.len + data.length - 2 ^ 32) = some (h, b, 0) := by
    rw [Buffer.reallocateBuffer, Buffer.getMemSize, ho.size, if_pos (by omega)]
  simp only [Buffer.insert, hu, hkept, Option.bind_eq_bind, Option.bind_some, Option.pure_def, Buffer.getMemSize,
    ho.size] at he
  by_cases hfit : data.length ≤ v.cap
  swap
  · -- `getMemSize() - nSize` wraps, too, and the move reads beyond the block
    have hmove : moveMemory h b.m_pBegin data.length 0 (uint (v.cap - data.length)) = none := by
      rw [moveMemory, copyMemory, load_eq_none ho.points, Option.bind_none]
      · unfold uint
        omega
      · unfold uint
        omega
    rw [hmove] at he
    cases he
  have hu₂ : uint (v.cap - data.length) = v.cap - data.length := by
    rw [← Nat.cast_sub hfit, uint_natCast (by omega)]
  obtain ⟨h₁, e₁, hp₁, hr₁⟩ := store_points ho.points data.length (v.mem.take (v.cap - data.length))
    (by omega) (by simp; omega)
  have hmove : moveMemory h b.m_pBegin data.length 0 (uint (v.cap - data.length)) = some h₁ := by
    rw [hu₂, moveMemory, copyMemory, load_points ho.points le_rfl (by simp; omega)]
    simpa using e₁
  have hmem : v.mem.take data.length ++ v.mem.take (v.cap - data.length) ++
      v.mem.drop (data.length + (v.mem.take (v.cap - data.length)).length) =
        v.mem.take data.length ++ v.mem.take (v.cap - data.length) := by
    rw [List.drop_of_length_le (by simp; omega), List.append_nil]
  rw [Int.toNat_natCast, hmem] at hp₁
  obtain ⟨h₂, e₂, hp₂, hr₂⟩ := store_points hp₁ 0 data le_rfl (by simp; omega)
  rw [hmove, Option.bind_some, e₂, Option.bind_some] at he
  obtain ⟨rfl, rfl, -⟩ := Prod.mk.inj (Option.some.inj he) |>.imp_right Prod.mk.inj
  have hdrop : (v.mem.take data.length ++ v.mem.take (v.cap - data.length)).drop data.length =
      v.mem.take (v.cap - data.length) := List.drop_left' (by simp; omega)
  rw [Int.toNat_zero, List.take_zero, List.nil_append, Nat.zero_add, hdrop] at hp₂
  have hlen : (data ++ v.mem.take (v.cap - data.length)).length = v.cap := by
    rw [List.length_append, List.length_take]
    omega
  refine ⟨⟨data ++ v.mem.take (v.cap - data.length), v.len + data.length - 2 ^ 32, by omega,
    by rw [hlen]; exact v.aligned⟩, ⟨hp₂, hlen.symm, hlen.trans_lt hsmall, ?_⟩, hr₁.trans hr₂⟩
  have hend := ho.uint_end (by omega)
  have hnone : b.m_pBegin ≠ none := fun hnull => by
    have := ho.cap_eq_zero.mp hnull
    omega
  simp only [Buffer.getBufferLen, if_neg hnone]
  unfold uint at hend ⊢
  omega

theorem insert_fault (ho : Owns h b v) (hlong : 2 ^ 32 - 1024 < v.len + data.length)
    (hlt : v.len + data.length < 2 ^ 32) : b.insert h data = none := by
  have hcap := ho.cap_le
  have hlc := v.len_le_cap
  have hu : uint (data.length + b.getBufferLen) = v.len + data.length := by
    rw [ho.len, ← Nat.cast_add, uint_natCast (by omega), Nat.add_comm]
  have hnull (h' : Heap α) : moveMemory h' none data.length 0 (uint (0 - data.length)) = none := by
    have hzero : uint (0 - data.length) ≠ 0 := by
      unfold uint
      omega
    rw [moveMemory, copyMemory, Heap.load, if_neg hzero]
    rfl
  simp only [Buffer.insert, hu, Buffer.reallocateBuffer, Buffer.getMemSize, ho.size,
    if_neg (Nat.not_lt.mpr (hcap.trans hlong.le)), roundUp_eq_zero hlong hlt, Option.bind_eq_bind]
  cases he : b.moveTo h 0 with
  | none => rfl
  | some r =>
    rw [Option.bind_some, moveTo_zero he]
    simp only [Nat.cast_zero, hnull, Option.bind_none]

theorem of_insert (ho : Owns h b v) (hd : data.length < 2 ^ 32) (he : b.insert h data = some (h', b', r)) :
    ∃ v', Owns h' b' v' ∧ Replaces h b.m_pBegin h' b'.m_pBegin := by
  by_cases hwrap : 2 ^ 32 ≤ v.len + data.length
  · exact ho.of_insert_wrapped hd hwrap he
  by_cases hlong : 2 ^ 32 - 1024 < v.len + data.length
  · rw [ho.insert_fault hlong (Nat.lt_of_not_le hwrap)] at he
    cases he
  · obtain ⟨h₁, b₁, e₁, ho₁, -, hr₁⟩ := ho.insert data (Nat.le_of_not_lt hlong)
    obtain ⟨rfl, rfl, -⟩ := Prod.mk.inj (Option.some.inj (e₁.symm.trans he)) |>.imp_right Prod.mk.inj
    exact ⟨_, ho₁, hr₁⟩

theorem copySelf (ho : Owns h b v) : ∃ h' b' v', b.copySelf h = some (h', b') ∧ Owns h' b' v' ∧
    v'.len = v.len ∧ b'.m_pEnd = int32 v.len ∧ Replaces h b.m_pBegin h' b'.m_pBegin := by
  have hlc := v.len_le_cap
  have hcap := ho.cap_le
  have hclear := v.cap_clear
  have hroom := v.length_copyRoom v
  obtain ⟨h₁, b₁, e₁, ho₁, -, hr₁⟩ := ho.clear
  obtain ⟨h₂, b₂, r, e₂, hp₂, hn₂, hr₂⟩ := ho₁.reallocate_copyRoom hcap
  obtain ⟨h₃, e₃, hp₃, hr₃⟩ := copyMemory_points hp₂ hp₂ (n := v.len) (by omega) (by omega)
  have hnone : b₂.m_pBegin ≠ none := by
    intro he
    rw [he] at hp₂
    rw [show v.copyRoom v = [] from hp₂, List.length_nil] at hroom
    omega
  have hlen : ({ b₂ with m_pEnd := int32 v.len } : Buffer).getBufferLen = v.len := by
    rw [Buffer.getBufferLen, if_neg hnone]
    exact uint_int32 (by omega)
  have htake : ((v.copyRoom v).take v.len).length = v.len := List.length_take_of_le (by omega)
  have hall : ((v.copyRoom v).take v.len).length + ((v.copyRoom v).drop v.len).length =
      (v.copyRoom v).length := by
    rw [← List.length_append, List.take_append_drop]
  have hdvd : 1024 ∣ (v.copyRoom v).length := by
    have hmax : max v.cap v.clear.cap = v.clear.cap := Nat.max_eq_right (by omega)
    rw [hroom, hmax]
    exact v.clear.aligned
  refine ⟨h₃, { b₂ with m_pEnd := int32 v.len }, .ofParts _ _ (hall ▸ hdvd), ?_,
    of_parts _ hp₃ ?_ ?_ ?_, htake, rfl, (hr₁.trans hr₂).trans hr₃⟩
  · have hu : uint (int32 b.getMemSize) = v.cap := by
      rw [Buffer.getMemSize, ho.size, uint_int32 ho.small]
    simp only [Buffer.copySelf, hu, e₁, e₂, ho.len, hlen, Option.bind_eq_bind, Option.bind_some, e₃,
      Option.pure_def]
  · rw [hn₂, hall, hroom]
  · rw [hall, hroom]
    omega
  · rw [hlen, htake]

end Owns

/-! ### Every run -/

namespace Owned
variable {s s' : Pool α}

theorem act (hs : Owned s) {op : Op α} (hop : op.Sized) (hstep : s.act op = some s') : Owned s' := by
  cases op with
  | write i pData =>
    obtain ⟨v, ho⟩ := hs.owns i
    simp only [Pool.act, Pool.step, Option.bind_eq_bind, Option.bind_eq_some_iff, Option.pure_def,
      Option.some.injEq] at hstep
    obtain ⟨⟨h, b, n⟩, he, rfl⟩ := hstep
    obtain ⟨v', ho', hr⟩ := ho.of_write hop he
    exact hs.set ho' hr _
  | insert i pData =>
    obtain ⟨v, ho⟩ := hs.owns i
    simp only [Pool.act, Pool.step, Option.bind_eq_bind, Option.bind_eq_some_iff, Option.pure_def,
      Option.some.injEq] at hstep
    obtain ⟨⟨h, b, n⟩, he, rfl⟩ := hstep
    obtain ⟨v', ho', hr⟩ := ho.of_insert hop he
    exact hs.set ho' hr _
  | read i nSize =>
    obtain ⟨v, ho⟩ := hs.owns i
    obtain ⟨h', b', e, ho', -, hr⟩ := ho.read nSize
    simp only [Pool.act, Pool.step, e, Option.bind_eq_bind, Option.bind_some, Option.pure_def,
      Option.some.injEq] at hstep
    rw [← hstep]
    exact hs.set ho' hr _
  | remove i nSize =>
    obtain ⟨v, ho⟩ := hs.owns i
    obtain ⟨h', b', e, ho', -, hr⟩ := ho.remove nSize
    simp only [Pool.act, Pool.step, e, Option.bind_eq_bind, Option.bind_some, Option.pure_def,
      Option.some.injEq] at hstep
    rw [← hstep]
    exact hs.set ho' hr _
  | clear i =>
    obtain ⟨v, ho⟩ := hs.owns i
    obtain ⟨h', b', e, ho', -, hr⟩ := ho.clear
    simp only [Pool.act, Pool.step, e, Option.bind_eq_bind, Option.bind_some, Option.pure_def,
      Option.some.injEq] at hstep
    rw [← hstep]
    exact hs.set ho' hr _
  | copy i j =>
    obtain ⟨v, ho⟩ := hs.owns i
    simp only [Pool.act] at hstep
    split_ifs at hstep with hij
    · obtain ⟨h', b', v', e, ho', -, -, hr⟩ := ho.copySelf
      simp only [e, Option.bind_eq_bind, Option.bind_some, Option.pure_def, Option.some.injEq] at hstep
      rw [← hstep]
      exact hs.set ho' hr _
    · obtain ⟨w, hw⟩ := hs.owns j
      obtain ⟨h', b', e, ho', -, hr⟩ := ho.copy hw fun k hk => hs.apart j i (Ne.symm hij) k hk
      simp only [Pool.step, e, Option.bind_eq_bind, Option.bind_some, Option.pure_def, Option.some.injEq] at hstep
      rw [← hstep]
      exact hs.set ho' hr _

theorem run {ops : List (Op α)} (hs : Owned s) (hops : ∀ op ∈ ops, Op.Sized op)
    (hrun : Foundation.run Pool.act s ops = some s') : Owned s' :=
  run_invariant Owned hs (fun _ _ _ h hop hstep => h.act hop hstep) (meets_of_forall_mem hops s) hrun

end Owned

namespace Reachable
variable {s s' : Pool α}

theorem new : Reachable (Pool.new : Pool α) := ⟨[], fun _ hop => absurd hop List.not_mem_nil, rfl⟩

theorem act (hs : Reachable s) {op : Op α} (hop : op.Sized) (hstep : s.act op = some s') : Reachable s' := by
  obtain ⟨ops, hops, hrun⟩ := hs
  refine ⟨ops ++ [op], fun op' hop' => ?_, ?_⟩
  · rcases List.mem_append.mp hop' with h | h
    · exact hops op' h
    · rwa [List.mem_singleton.mp h]
  · rw [run_append_of_eq hrun, run_cons, hstep]
    rfl

theorem owned (hs : Reachable s) : Owned s := by
  obtain ⟨ops, hops, hrun⟩ := hs
  exact Owned.new.run hops hrun

end Reachable
end NetDemo.Memory
