import NetDemo.Client.Delivery

/-! What is left in the block of `m_inBuf` after its bytes were removed. `tryDecode` looks at it once
more after every request, in the place where the request stood. -/

namespace NetDemo.Client
open Foundation Memory Http

/-- The block `m` once `d` was written to its beginning and removed again. -/
def spent (m d : Bytes) : Bytes := m.drop d.length ++ (d ++ m.drop d.length).drop (m.length - d.length)

/-- What `tryDecode` answers after the request `d`, on the bytes that stand in its place then. -/
def secondAnswer (w : ℕ) (m d : Bytes) : ℤ :=
  ((HttpCodec.new.tryDecode w d).2.tryDecode w ((spent m d).take d.length)).1

/-- Some requests that fit into the blocks, one after the other, get another second answer from the
block `m` than from `n`. -/
inductive Tells (w : ℕ) : Bytes → Bytes → Prop
  | now {m n d : Bytes} : 0 < (HttpCodec.new.tryDecode w d).1 → d.length < 1024 →
      (secondAnswer w m d).sign ≠ (secondAnswer w n d).sign → Tells w m n
  | later {m n d : Bytes} : 0 < (HttpCodec.new.tryDecode w d).1 → d.length < 1024 →
      secondAnswer w m d = 0 → secondAnswer w n d = 0 → Tells w (spent m d) (spent n d) → Tells w m n

theorem Tells.ne {w : ℕ} {m n : Bytes} (h : Tells w m n) : m ≠ n := by
  induction h with
  | now _ _ hne =>
    rintro rfl
    exact hne rfl
  | later _ _ _ _ _ ih =>
    rintro rfl
    exact ih rfl

theorem length_spent {m d : Bytes} (h : d.length ≤ m.length) : (spent m d).length = m.length := by
  simp only [spent, List.length_append, List.length_drop]
  omega

theorem take_spent {m d : Bytes} (h : 2 * d.length ≤ m.length) :
    (spent m d).take d.length = (m.drop d.length).take d.length := by
  rw [spent, List.take_append_of_le_length]
  rw [List.length_drop]
  omega

/-- The cells of a block `m` with the live bytes `l` written over it. -/
structure Over (m l : Bytes) (v : Cells UInt8) : Prop where
  mem : v.mem = l ++ m.drop l.length
  len : v.len = l.length

namespace Over
variable {m n l : Bytes} {u v : Cells UInt8}

theorem live (h : Over m l v) : v.live = l := by rw [Cells.live, h.mem, h.len, List.take_left' rfl]

theorem stale (h : Over m l v) : v.stale = m.drop l.length := by
  rw [Cells.stale, h.mem, h.len, List.drop_left' rfl]

theorem cap (h : Over m l v) (hle : l.length ≤ m.length) : v.cap = m.length := by
  rw [Cells.cap, h.mem, List.length_append, List.length_drop]
  omega

theorem write (h : Over m l v) {d : Bytes} (hlt : l.length + d.length < m.length) :
    Over m (l ++ d) (v.write d) where
  mem := by
    have hroom : v.room d.length = m.drop l.length := by
      rw [Cells.room, h.len, h.cap (by omega), if_pos hlt, h.stale]
    simp only [Cells.write, Cells.ofParts, h.live, hroom, List.drop_drop, List.length_append]
  len := by rw [Cells.len_write, h.len, List.length_append]

/-- Once the block is full, another one of the same size becomes the same as this one. -/
theorem write_full (h : Over m l u) (h' : Over n l v) (hsize : m.length = n.length)
    (hle : l.length ≤ m.length) {d : Bytes} (hfull : m.length ≤ l.length + d.length) : u.write d = v.write d := by
  have hroom : u.room d.length = v.room d.length := by
    rw [Cells.room, Cells.room, h.len, h'.len, h.cap hle, h'.cap (by omega), if_neg (by omega),
      if_neg (by omega)]
  ext1
  · simp only [Cells.write, Cells.ofParts, h.live, h'.live, hroom]
  · rw [Cells.len_write, Cells.len_write, h.len, h'.len]

theorem remove (h : Over m l v) (hle : l.length ≤ m.length) : Over (spent m l) [] (v.remove v.len) := by
  have hcap := h.cap hle
  rw [Cells.remove_len]
  refine ⟨?_, Nat.sub_self _⟩
  simp only [Cells.shift, hcap, h.mem, h.len, List.drop_left' rfl]
  rfl

theorem window (h : Over m l v) (hle : l.length ≤ m.length) :
    View.window v = (spent m l).take l.length := by
  have hcap := h.cap hle
  simp only [View.window, hcap, h.mem, h.len, List.drop_left' rfl]
  rfl

end Over

/-! ### Two blocks that no request tells apart -/

/-- A block of the smallest size, as `VirtualAlloc` answers it. -/
def blank : Cells UInt8 where
  mem := List.replicate 1024 0
  len := 0
  len_le := Nat.zero_le _
  aligned := by rw [List.length_replicate]

theorem over_blank : Over (List.replicate 1024 0) [] blank := ⟨rfl, rfl⟩

/-- The first write makes the same of it as of no block. -/
theorem write_blank {d : Bytes} (hd : d ≠ []) : blank.write d = Cells.empty.write d := by
  have hpos : 0 < d.length := List.length_pos_of_ne_nil hd
  have hcap : blank.cap = 1024 := List.length_replicate
  have hlive : blank.live = [] := rfl
  have hstale : blank.stale = List.replicate 1024 0 := rfl
  have hroom : blank.room d.length = Cells.empty.room d.length := by
    have hempty : Cells.empty.room d.length = List.replicate (alignUp d.length) (0 : UInt8) := by
      rw [Cells.room, Cells.len_empty, Cells.cap_empty, if_neg (Nat.not_lt_zero _), Nat.zero_add,
        Nat.sub_zero]
      rfl
    have hlen : blank.len = 0 := rfl
    rw [hempty, Cells.room, hcap, hlen, hstale]
    split_ifs with hlt
    · rw [show alignUp d.length = 1024 by unfold alignUp; omega]
    · rw [Nat.zero_add, Nat.sub_zero]
      rfl
  ext1
  · simp only [Cells.write, Cells.ofParts, hroom, hlive, Cells.live_empty]
  · rw [Cells.len_write, Cells.len_write]
    rfl

/-- The cells `u` and `v` have the same live bytes, over blocks that are not told apart. -/
structure Twins (w : ℕ) (m n l : Bytes) (u v : Cells UInt8) : Prop where
  left : m.length = 1024
  right : n.length = 1024
  short : l.length < 1024
  alike : ¬ Tells w m n
  covers : Over m l u
  covers' : Over n l v

/-- `m_inBuf` of a context that was used and of a new one. -/
inductive Paired (w : ℕ) (u v : Cells UInt8) : Prop
  | same : u = v → Paired w u v
  | twins {m n l : Bytes} : Twins w m n l u v → Paired w u v
  /-- The new context has no block yet. -/
  | first {m : Bytes} : Twins w m (List.replicate 1024 0) [] u blank → v = Cells.empty → Paired w u v

namespace Twins
variable {w : ℕ} {m n l : Bytes} {u v : Cells UInt8}

theorem live (h : Twins w m n l u v) : u.live = v.live := h.covers.live.trans h.covers'.live.symm

theorem write (h : Twins w m n l u v) (d : Bytes) :
    u.write d = v.write d ∨ Twins w m n (l ++ d) (u.write d) (v.write d) := by
  have hl := h.left
  have hr := h.right
  have hs := h.short
  rcases Nat.lt_or_ge (l.length + d.length) 1024 with hlt | hge
  · refine .inr ⟨hl, hr, by rwa [List.length_append], h.alike, ?_, ?_⟩
    · exact h.covers.write (by omega)
    · exact h.covers'.write (by omega)
  · exact .inl (h.covers.write_full h.covers' (hl.trans hr.symm) (by omega) (by omega))

theorem second (h : Twins w m n l u v) (hpos : 0 < (HttpCodec.new.tryDecode w l).1) :
    (secondAnswer w m l).sign = (secondAnswer w n l).sign ∧ (secondAnswer w n l = 0 →
      Twins w (spent m l) (spent n l) [] (u.remove u.len) (v.remove v.len)) := by
  have hl := h.left
  have hr := h.right
  have hs := h.short
  have hsign : (secondAnswer w m l).sign = (secondAnswer w n l).sign := by
    by_contra hne
    exact h.alike (.now hpos hs hne)
  refine ⟨hsign, fun hzero => ⟨?_, ?_, Nat.zero_lt_succ _, ?_, ?_, ?_⟩⟩
  · rw [length_spent (by omega), hl]
  · rw [length_spent (by omega), hr]
  · intro ht
    have hzero' : secondAnswer w m l = 0 := by
      rw [hzero, Int.sign_zero] at hsign
      exact Int.sign_eq_zero_iff_zero.mp hsign
    exact h.alike (.later hpos hs hzero' hzero ht)
  · exact h.covers.remove (by omega)
  · exact h.covers'.remove (by omega)

end Twins

/-! ### How the loop of `notifyPackageReceived` ends -/

namespace View
variable {w : ℕ} {x : View UInt8}

def refuse (x : View UInt8) (codec : HttpCodec) (ret : ℤ) : View UInt8 :=
  (x.reply codec ret).modify fun l => l.closeClient.releaseClientContext

theorem notifyPackageReceived_waits (fuel : ℕ) (h : (HttpCodec.new.tryDecode w x.inBuf.live).1 = 0) :
    x.notifyPackageReceived w (fuel + 1) = some x := by
  have hround : (x.round w x.inBuf.len HttpCodec.new).1 = 0 := h
  rw [notifyPackageReceived, requestLoop_last hround.le, round_zero h]

theorem notifyPackageReceived_refuses (fuel : ℕ) (h : (HttpCodec.new.tryDecode w x.inBuf.live).1 < 0) :
    x.notifyPackageReceived w (fuel + 1) = some (x.refuse (HttpCodec.new.tryDecode w x.inBuf.live).2
      (HttpCodec.new.tryDecode w x.inBuf.live).1) := by
  have hround : (x.round w x.inBuf.len HttpCodec.new).1 < 0 := h
  rw [notifyPackageReceived, requestLoop_last hround.le, round_neg h]
  rfl

/-- The context after the first request was answered. -/
def answer (w : ℕ) (x : View UInt8) : View UInt8 :=
  x.reply (HttpCodec.new.tryDecode w x.inBuf.live).2 (HttpCodec.new.tryDecode w x.inBuf.live).1

/-- What the codec answers to the bytes that are left after that. -/
def second (w : ℕ) (x : View UInt8) : ℤ × HttpCodec :=
  (HttpCodec.new.tryDecode w x.inBuf.live).2.tryDecode w (window x.inBuf)

theorem inBuf_answer : (x.answer w).inBuf = x.inBuf.remove x.inBuf.len := inBuf_reply ..

theorem take_answer : (x.answer w).inBuf.mem.take x.inBuf.len = window x.inBuf := by
  rw [inBuf_answer, Cells.remove_len]
  rfl

theorem notifyPackageReceived_pos (fuel : ℕ) (h : 0 < (HttpCodec.new.tryDecode w x.inBuf.live).1) :
    x.notifyPackageReceived w (fuel + 1) =
      (x.answer w).requestLoop w x.inBuf.len fuel (HttpCodec.new.tryDecode w x.inBuf.live).2 := by
  have hround : 0 < (x.round w x.inBuf.len HttpCodec.new).1 := h
  rw [notifyPackageReceived, requestLoop_more hround, round_pos h]
  rfl

theorem notifyPackageReceived_one (h : 0 < (HttpCodec.new.tryDecode w x.inBuf.live).1) :
    x.notifyPackageReceived w 1 = none := notifyPackageReceived_pos 0 h

theorem answer_round :
    ((x.answer w).round w x.inBuf.len (HttpCodec.new.tryDecode w x.inBuf.live).2).1 = (x.second w).1 := by
  rw [round_ret, take_answer, second]

theorem notifyPackageReceived_stuck (h : 0 < (HttpCodec.new.tryDecode w x.inBuf.live).1)
    (h₂ : 0 < (x.second w).1) (fuel : ℕ) : x.notifyPackageReceived w fuel = none := by
  cases fuel with
  | zero => rfl
  | succ fuel =>
    rw [notifyPackageReceived_pos fuel h]
    refine requestLoop_stuck ?_ (by rwa [answer_round]) fuel
    rw [inBuf_answer, Cells.remove_len]
    exact Nat.sub_self _

theorem notifyPackageReceived_then_waits (fuel : ℕ) (h : 0 < (HttpCodec.new.tryDecode w x.inBuf.live).1)
    (h₂ : (x.second w).1 = 0) : x.notifyPackageReceived w (fuel + 2) = some (x.answer w) := by
  rw [notifyPackageReceived_pos _ h, requestLoop_last (by rw [answer_round]; exact h₂.le), round_zero]
  rw [take_answer]
  exact h₂

theorem notifyPackageReceived_then_refuses (fuel : ℕ) (h : 0 < (HttpCodec.new.tryDecode w x.inBuf.live).1)
    (h₂ : (x.second w).1 < 0) : x.notifyPackageReceived w (fuel + 2) =
      some ((x.answer w).refuse (x.second w).2 (x.second w).1) := by
  have h₂' := h₂
  rw [second, ← take_answer (w := w)] at h₂'
  rw [notifyPackageReceived_pos _ h, requestLoop_last (by rw [answer_round]; exact h₂.le), round_neg h₂',
    take_answer]
  rfl

theorem second_outBuf (h : 0 < (HttpCodec.new.tryDecode w x.inBuf.live).1) :
    (x.second w).2.m_outBuf = HttpCodec.okResponse := by
  have hfirst := HttpCodec.tryDecode_pos h
  rcases HttpCodec.tryDecode_outBuf w (HttpCodec.new.tryDecode w x.inBuf.live).2 (window x.inBuf) with he | he
  · rw [second, he, hfirst]
  · rw [second, he]

theorem second_over {m l : Bytes} (h : Over m l x.inBuf) (hle : l.length ≤ m.length) :
    (x.second w).1 = secondAnswer w m l := by
  rw [second, h.live, h.window hle, secondAnswer]

end View

end NetDemo.Client
