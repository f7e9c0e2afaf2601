import NetDemo.Memory.Buffer

/-! What a `Buffer` holds, without addresses: the cells of its block, of which the first `len` are
live. The operations follow the class; the cells behind the live ones are kept because
`HttpServer` reads them. -/

namespace NetDemo.Memory

def alignUp (n : ℕ) : ℕ := (n + 1023) / 1024 * 1024

theorem le_alignUp (n : ℕ) : n ≤ alignUp n := by unfold alignUp; omega

theorem alignUp_lt (n : ℕ) : alignUp n < n + 1024 := by unfold alignUp; omega

theorem dvd_alignUp (n : ℕ) : 1024 ∣ alignUp n := Dvd.intro_left _ rfl

theorem alignUp_of_dvd {n : ℕ} (h : 1024 ∣ n) : alignUp n = n := by unfold alignUp; omega

theorem alignUp_mono {m n : ℕ} (h : m ≤ n) : alignUp m ≤ alignUp n := by unfold alignUp; omega

@[ext]
structure Cells (α : Type) where
  mem : List α
  len : ℕ
  len_le : len ≤ mem.length
  aligned : 1024 ∣ mem.length

namespace Cells
variable {α : Type}

def cap (v : Cells α) : ℕ := v.mem.length

def live (v : Cells α) : List α := v.mem.take v.len

def stale (v : Cells α) : List α := v.mem.drop v.len

@[simp] theorem length_live (v : Cells α) : v.live.length = v.len := by
  simp only [live, List.length_take, Nat.min_eq_left v.len_le]

theorem live_append_stale (v : Cells α) : v.live ++ v.stale = v.mem := List.take_append_drop ..

theorem len_le_cap (v : Cells α) : v.len ≤ v.cap := v.len_le

theorem length_stale (v : Cells α) : v.stale.length = v.cap - v.len := List.length_drop ..

def empty : Cells α := ⟨[], 0, le_rfl, Nat.dvd_zero _⟩

/-- A block whose first cells are `l` and live, followed by `t`. -/
def ofParts (l t : List α) (h : 1024 ∣ l.length + t.length) : Cells α where
  mem := l ++ t
  len := l.length
  len_le := by simp
  aligned := by simpa using h

@[simp] theorem live_ofParts (l t : List α) (h) : (ofParts l t h).live = l := by simp [ofParts, live]

@[simp] theorem stale_ofParts (l t : List α) (h) : (ofParts l t h).stale = t := by simp [ofParts, stale]

@[simp] theorem len_ofParts (l t : List α) (h) : (ofParts l t h).len = l.length := rfl

@[simp] theorem cap_ofParts (l t : List α) (h) : (ofParts l t h).cap = l.length + t.length := by
  simp [ofParts, cap]

@[simp] theorem live_empty : (empty : Cells α).live = [] := rfl

@[simp] theorem len_empty : (empty : Cells α).len = 0 := rfl

@[simp] theorem cap_empty : (empty : Cells α).cap = 0 := rfl

variable [Inhabited α]

/-- The stale cells once there is room for `k` more live ones. -/
def room (v : Cells α) (k : ℕ) : List α :=
  if v.len + k < v.cap then v.stale else List.replicate (alignUp (v.len + k) - v.len) default

theorem length_room (v : Cells α) (k : ℕ) :
    v.len + (v.room k).length = if v.len + k < v.cap then v.cap else alignUp (v.len + k) := by
  have h1 := v.len_le_cap
  have h2 := le_alignUp (v.len + k)
  unfold room
  split_ifs with h
  · rw [length_stale]
    omega
  · rw [List.length_replicate]
    omega

theorem le_length_room (v : Cells α) (k : ℕ) : k ≤ (v.room k).length := by
  have h1 := v.length_room k
  have h2 := le_alignUp (v.len + k)
  split_ifs at h1 <;> omega

theorem dvd_length_room (v : Cells α) (k : ℕ) : 1024 ∣ v.len + (v.room k).length := by
  rw [length_room]
  split_ifs
  · exact v.aligned
  · exact dvd_alignUp _

/-- The cells after `reallocateBuffer` made room for `k` more live ones. -/
def grow (v : Cells α) (k : ℕ) : Cells α :=
  ofParts v.live (v.room k) (by rw [length_live]; exact v.dvd_length_room k)

def write (v : Cells α) (data : List α) : Cells α :=
  ofParts (v.live ++ data) ((v.room data.length).drop data.length) (by
    have h := v.le_length_room data.length
    rw [List.length_append, length_live, List.length_drop, Nat.add_assoc, Nat.add_sub_cancel' h]
    exact v.dvd_length_room _)

def insert (v : Cells α) (data : List α) : Cells α :=
  ofParts (data ++ v.live) ((v.room data.length).take ((v.room data.length).length - data.length)) (by
    have h := v.le_length_room data.length
    rw [List.length_append, length_live, List.length_take, Nat.min_eq_left (Nat.sub_le ..),
      Nat.add_comm data.length, Nat.add_assoc, Nat.add_sub_cancel' h]
    exact v.dvd_length_room _)

/-- `MoveMemory` of the whole block towards its beginning; the last `n` cells stay as they are. -/
def shift (v : Cells α) (n : ℕ) (hn : n ≤ v.len) : Cells α where
  mem := v.mem.drop n ++ v.mem.drop (v.cap - n)
  len := v.len - n
  len_le := by
    have := v.len_le_cap
    simp only [List.length_append, List.length_drop, cap] at this ⊢
    omega
  aligned := by
    have h1 := v.len_le_cap
    have h2 := v.aligned
    have h3 : (v.mem.drop n ++ v.mem.drop (v.cap - n)).length = v.mem.length := by
      simp only [List.length_append, List.length_drop, cap] at h1 ⊢
      omega
    rw [h3]
    exact h2

/-- `deallocateBuffer(getBufferLen())`: a block that its live cells fill is exchanged for a new one
of the same size, any other is kept. -/
def settle (v : Cells α) : Cells α :=
  if alignUp v.len < v.cap then v else ofParts v.live (List.replicate (v.cap - v.len) default) (by
    have h := v.len_le_cap
    rw [length_live, List.length_replicate, Nat.add_sub_cancel' h]
    exact v.aligned)

def remove (v : Cells α) (n : ℕ) : Cells α :=
  if v.cap < n then v else (v.shift (min n v.len) (Nat.min_le_right ..)).settle

def clear (v : Cells α) : Cells α where
  mem := if v.cap ≤ 1024 then List.replicate 1024 default else v.mem
  len := 0
  len_le := Nat.zero_le _
  aligned := by
    split_ifs
    · rw [List.length_replicate]
    · exact v.aligned

theorem mem_clear (v : Cells α) :
    v.clear.mem = if v.cap ≤ 1024 then List.replicate 1024 default else v.mem := rfl

theorem cap_clear (v : Cells α) : v.clear.cap = max 1024 v.cap := by
  rw [cap, mem_clear]
  split_ifs with h
  · rw [List.length_replicate, Nat.max_eq_left h]
  · rw [← cap, Nat.max_eq_right (by omega)]

/-- The block of the cleared target once it is as large as the one of the source. -/
def copyRoom (v src : Cells α) : List α :=
  if src.cap < v.clear.cap then v.clear.mem else List.replicate src.cap default

theorem length_copyRoom (v src : Cells α) : (v.copyRoom src).length = max src.cap v.clear.cap := by
  unfold copyRoom
  split_ifs with h
  · exact (Nat.max_eq_right h.le).symm
  · rw [List.length_replicate, Nat.max_eq_left (by omega)]

theorem len_add_copyRoom (v src : Cells α) :
    src.live.length + ((v.copyRoom src).drop src.len).length = max src.cap v.clear.cap := by
  have h := src.len_le_cap
  rw [length_live, List.length_drop, length_copyRoom]
  omega

def copy (v src : Cells α) : Cells α :=
  ofParts src.live ((v.copyRoom src).drop src.len) (by
    rw [len_add_copyRoom]
    rcases Nat.le_total src.cap v.clear.cap with h | h
    · rw [Nat.max_eq_right h]
      exact v.clear.aligned
    · rw [Nat.max_eq_left h]
      exact src.aligned)

@[simp] theorem live_write (v : Cells α) (data : List α) : (v.write data).live = v.live ++ data :=
  live_ofParts ..

@[simp] theorem len_write (v : Cells α) (data : List α) : (v.write data).len = v.len + data.length := by
  simp [write]

@[simp] theorem live_insert (v : Cells α) (data : List α) : (v.insert data).live = data ++ v.live :=
  live_ofParts ..

@[simp] theorem live_copy (v src : Cells α) : (v.copy src).live = src.live := live_ofParts ..

@[simp] theorem len_copy (v src : Cells α) : (v.copy src).len = src.len := by simp [copy]

@[simp] theorem live_clear (v : Cells α) : v.clear.live = [] := rfl

@[simp] theorem len_clear (v : Cells α) : v.clear.len = 0 := rfl

theorem cap_copy (v src : Cells α) : (v.copy src).cap = max src.cap (max 1024 v.cap) := by
  rw [copy, cap_ofParts, len_add_copyRoom, cap_clear]

theorem cap_write (v : Cells α) (data : List α) : (v.write data).cap =
    if v.len + data.length < v.cap then v.cap else alignUp (v.len + data.length) := by
  have h := v.le_length_room data.length
  rw [← length_room]
  simp [write]
  omega

theorem cap_insert (v : Cells α) (data : List α) : (v.insert data).cap =
    if v.len + data.length < v.cap then v.cap else alignUp (v.len + data.length) := by
  have h := v.le_length_room data.length
  rw [← length_room]
  simp [insert]
  omega

omit [Inhabited α] in
theorem live_shift (v : Cells α) {n : ℕ} (hn : n ≤ v.len) : (v.shift n hn).live = v.live.drop n := by
  have h := v.len_le
  simp only [live, shift]
  rw [List.take_append_of_le_length (by rw [List.length_drop]; omega), List.drop_take]

omit [Inhabited α] in
theorem cap_shift (v : Cells α) {n : ℕ} (hn : n ≤ v.len) : (v.shift n hn).cap = v.cap := by
  have h := v.len_le_cap
  simp only [cap, shift, List.length_append, List.length_drop] at h ⊢
  omega

@[simp] theorem live_settle (v : Cells α) : v.settle.live = v.live := by
  unfold settle
  split_ifs
  · rfl
  · exact live_ofParts ..

@[simp] theorem len_settle (v : Cells α) : v.settle.len = v.len := by
  rw [← length_live, live_settle, length_live]

@[simp] theorem cap_settle (v : Cells α) : v.settle.cap = v.cap := by
  have h := v.len_le_cap
  unfold settle
  split_ifs
  · rfl
  · simp
    omega

@[simp] theorem cap_remove (v : Cells α) (n : ℕ) : (v.remove n).cap = v.cap := by
  unfold remove
  split_ifs
  · rfl
  · rw [cap_settle, cap_shift]

theorem live_remove (v : Cells α) {n : ℕ} (hn : n ≤ v.cap) : (v.remove n).live = v.live.drop n := by
  rw [remove, if_neg (by omega), live_settle, live_shift]
  rcases Nat.le_total n v.len with h | h
  · rw [Nat.min_eq_left h]
  · rw [Nat.min_eq_right h, List.drop_of_length_le (by simp), List.drop_of_length_le (by simpa using h)]

theorem settle_of_len {v : Cells α} (h : v.len = 0) : v.settle = v := by
  unfold settle
  split_ifs with hlt
  · rfl
  · have hcap : v.cap = 0 := by
      rw [h] at hlt
      simpa [alignUp] using hlt
    have hmem : v.mem = [] := List.eq_nil_of_length_eq_zero hcap
    ext1
    · simp [ofParts, live, h, hcap, hmem]
    · simp [h]

/-- All live cells are removed: the block is shifted, and its last cells are left twice. -/
theorem remove_len (v : Cells α) : v.remove v.len = v.shift v.len le_rfl := by
  have h := v.len_le_cap
  have hmin : v.shift (min v.len v.len) (Nat.min_le_right ..) = v.shift v.len le_rfl := by
    simp only [Nat.min_self]
  rw [remove, if_neg (by omega), hmin, settle_of_len (Nat.sub_self _)]

end Cells
end NetDemo.Memory
