import NetDemo.Foundation.CString

/-! Arrays that C strings are copied to, with the faults of a copy, and what a computation yields unless it
meets with a fault. -/

namespace NetDemo.Foundation

section
variable {ε α β : Type} {x : Except ε α} {f : α → Except ε β} {P : β → Prop}

/-- There is no fault, and `P` holds of the value. -/
def Yields (x : Except ε α) (P : α → Prop) : Prop := ∃ a, x = .ok a ∧ P a

theorem yields_pure {P : α → Prop} {a : α} : Yields (pure a : Except ε α) P ↔ P a := by
  constructor
  · rintro ⟨b, hb, hP⟩
    obtain rfl := Except.ok.inj hb
    exact hP
  · exact fun hP => ⟨a, rfl, hP⟩

theorem yields_bind : Yields (x >>= f) P ↔ Yields x fun a => Yields (f a) P := by
  cases x with
  | error e => exact iff_of_false (fun ⟨_, h, _⟩ => nomatch h) fun ⟨_, h, _⟩ => nomatch h
  | ok a => exact ⟨fun h => ⟨a, rfl, h⟩, fun ⟨_, ha, h⟩ => Except.ok.inj ha ▸ h⟩

end

inductive Fault
  /-- Something is read through NULL. -/
  | null
  /-- Something is read behind the array. -/
  | beyond
  /-- Something is written behind the array. -/
  | overflow
  deriving DecidableEq

structure Block (n : ℕ) where
  mem : List UInt8
  length_eq : mem.length = n

instance (n : ℕ) : Inhabited (Block n) := ⟨⟨List.replicate n 0, List.length_replicate⟩⟩

section
variable {n : ℕ} {mem : List UInt8} {s : ℕ}

theorem zero_mem_drop_iff : 0 ∈ mem.drop s ↔ mem[s + (cstr mem s).length]? = some 0 := by
  have hhead : mem[s + (cstr mem s).length]? = ((mem.drop s).dropWhile (· ≠ 0)).head? := by
    rw [← List.getElem?_drop, ← List.head?_drop, cstr, drop_length_takeWhile]
  rw [hhead]
  constructor
  · intro h0
    cases hdrop : (mem.drop s).dropWhile (· ≠ 0) with
    | nil =>
      rw [List.dropWhile_eq_nil_iff] at hdrop
      exact absurd (hdrop 0 h0) (by decide)
    | cons a t =>
      have ha := head?_dropWhile (congrArg List.head? hdrop)
      rw [List.head?_cons, not_not.1 (of_decide_eq_false ha)]
  · exact fun h => (List.dropWhile_suffix _).mem (List.mem_of_head? h)

/-- A string and its NUL, at the begin of the array. -/
def Block.write (b : Block n) (str : List UInt8) (h : str.length < n) : Block n where
  mem := str ++ 0 :: b.mem.drop (str.length + 1)
  length_eq := by
    rw [List.length_append, List.length_cons, List.length_drop, b.length_eq]
    omega

theorem Block.zero_mem_write {b : Block n} {str : List UInt8} (h : str.length < n) :
    0 ∈ (b.write str h).mem := List.mem_append_right str List.mem_cons_self

theorem Block.cstr_write {b : Block n} {str : List UInt8} (h : str.length < n) :
    cstr (b.write str h).mem 0 = str.takeWhile (· ≠ 0) := cstr_of_drop (List.drop_zero ..)

theorem Block.length_cstr {b : Block n} (h : 0 ∈ b.mem) : (cstr b.mem 0).length < n := by
  obtain ⟨hlt, -⟩ := List.getElem?_eq_some_iff.1 ((zero_mem_drop_iff (s := 0)).1 h)
  rwa [Nat.zero_add, b.length_eq] at hlt

/-- `none` stands for NULL. -/
def strcpy (dst : Block n) (mem : List UInt8) : Option ℕ → Except Fault (Block n)
  | none => .error .null
  | some src =>
    if 0 ∉ mem.drop src then .error .beyond
    else if h : (cstr mem src).length < n then .ok (dst.write (cstr mem src) h)
    else .error .overflow

theorem yields_strcpy {dst : Block n} {src : Option ℕ} {P : Block n → Prop} {Q : List UInt8 → Prop}
    (hPQ : ∀ b : Block n, 0 ∈ b.mem → (P b ↔ Q (cstr b.mem 0))) :
    Yields (strcpy dst mem src) P ↔
      ∃ s ∈ src, 0 ∈ mem.drop s ∧ (cstr mem s).length < n ∧ Q (cstr mem s) := by
  have hself {s : ℕ} : (cstr mem s).takeWhile (· ≠ 0) = cstr mem s :=
    List.takeWhile_eq_self_iff.2 fun _ => List.mem_takeWhile_imp
  constructor
  · rintro ⟨b, hb, hP⟩
    unfold strcpy at hb
    split at hb
    · cases hb
    · split_ifs at hb with h0 hlen
      obtain rfl := Except.ok.inj hb
      rw [hPQ _ (Block.zero_mem_write hlen), Block.cstr_write, hself] at hP
      exact ⟨_, rfl, h0, hlen, hP⟩
  · rintro ⟨s, rfl, h0, hlen, hQ⟩
    refine ⟨dst.write (cstr mem s) hlen, ?_, ?_⟩
    · simp only [strcpy]
      rw [if_neg (not_not.2 h0), dif_pos hlen]
    · rw [hPQ _ (Block.zero_mem_write hlen), Block.cstr_write, hself]
      exact hQ

/-- What `fgets` takes of a stream: less than `n` bytes, and none behind a newline. -/
def firstLine (n : ℕ) (stream : List UInt8) : List UInt8 :=
  (stream.take (n - 1)).take (strcspn (stream.take (n - 1)) [0x0a] + 1)

theorem length_firstLine (hn : 0 < n) (stream : List UInt8) : (firstLine n stream).length < n := by
  unfold firstLine
  grind

/-- `none` stands for NULL, and leaves the array as it is. -/
def fgets (dst : Block n) (stream : List UInt8) : Option (Block n) :=
  if hn : 0 < n then
    if stream = [] then none else some (dst.write (firstLine n stream) (length_firstLine hn stream))
  else none

theorem zero_mem_of_fgets {dst b : Block n} {stream : List UInt8} (h : fgets dst stream = some b) :
    0 ∈ b.mem := by
  unfold fgets at h
  split_ifs at h
  obtain rfl := Option.some.inj h
  exact Block.zero_mem_write _

theorem fgets_of_ne_nil {stream : List UInt8} (dst : Block n) (hn : 0 < n) (h : stream ≠ []) :
    ∃ b, fgets dst stream = some b ∧ cstr b.mem 0 = (firstLine n stream).takeWhile (· ≠ 0) :=
  ⟨dst.write (firstLine n stream) (length_firstLine hn stream), by simp [fgets, hn, h], Block.cstr_write _⟩

end
end NetDemo.Foundation
