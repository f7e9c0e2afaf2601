import NetDemo.Http.Pointers
import NetDemo.Http.Lines
import NetDemo.Http.Verdict

/-! The pointers of `HttpCodec::tryDecode` stay inside of the header block and of the received bytes,
and what they cut is what the functions on bytes cut. -/

namespace NetDemo.Http.Pointers
open Foundation

variable {d l : Bytes} {s : Slice} {w : ℕ}

/-! ### The bytes that a slice shows -/

theorem toString_eq_some_iff : s.toString d = some l ↔
    0 ≤ s.m_pb ∧ s.m_pb ≤ s.m_pe ∧ s.m_pe ≤ d.length ∧
      l = (d.take s.m_pe.toNat).drop s.m_pb.toNat := by
  rw [Slice.toString, readAll]
  split_ifs with h
  · rw [Option.some.injEq]
    exact ⟨fun he => ⟨h.1, h.2.1, h.2.2, he.symm⟩, fun he => he.2.2.2.symm⟩
  · exact ⟨fun hno => absurd hno (by simp), fun he => absurd ⟨he.1, he.2.1, he.2.2.1⟩ h⟩

theorem length_of_toString (h : s.toString d = some l) : (l.length : ℤ) = s.m_pe - s.m_pb := by
  obtain ⟨h₁, h₂, h₃, rfl⟩ := toString_eq_some_iff.mp h
  rw [List.length_drop, List.length_take]
  omega

theorem toString_cut (h : s.toString d = some l) {k n : ℕ} (hk : k + n ≤ l.length) :
    (Slice.mk (s.m_pb + k) (s.m_pb + k + n)).toString d = some ((l.drop k).take n) := by
  have hlen := length_of_toString h
  obtain ⟨h₁, h₂, h₃, hl⟩ := toString_eq_some_iff.mp h
  refine toString_eq_some_iff.mpr ⟨by simp only; omega, by simp only; omega, by simp only; omega, ?_⟩
  have hb : (s.m_pb + k).toNat = s.m_pb.toNat + k := by omega
  have he : (s.m_pb + k + n).toNat = s.m_pb.toNat + k + n := by omega
  simp only [hb, he]
  rw [hl, List.drop_drop, List.drop_take, List.drop_take, List.take_take]
  congr 1
  omega

theorem toString_rest (h : s.toString d = some l) {k : ℕ} (hk : k ≤ l.length) :
    (Slice.mk (s.m_pb + k) s.m_pe).toString d = some (l.drop k) := by
  have hlen := length_of_toString h
  have hcut := toString_cut h (k := k) (n := l.length - k) (by omega)
  have he : s.m_pb + k + (l.length - k : ℕ) = s.m_pe := by omega
  rw [he, List.take_of_length_le (by simp)] at hcut
  exact hcut

theorem read_of_toString (h : s.toString d = some l) {k : ℕ} (hk : k < l.length) :
    read d (s.m_pb + k) = l[k]? := by
  have hlen := length_of_toString h
  obtain ⟨h₁, h₂, h₃, hl⟩ := toString_eq_some_iff.mp h
  have hb : (s.m_pb + k).toNat = s.m_pb.toNat + k := by omega
  rw [read, if_pos (by omega), hb, hl, List.getElem?_drop, List.getElem?_take, if_pos (by omega)]

theorem toString_cons {a : UInt8} (h : s.toString d = some (a :: l)) :
    s.m_pb < s.m_pe ∧ read d s.m_pb = some a ∧ (Slice.mk (s.m_pb + 1) s.m_pe).toString d = some l := by
  have hlen := length_of_toString h
  have hread := read_of_toString h (k := 0) (by simp)
  have hrest := toString_rest h (k := 1) (by simp)
  simp only [List.length_cons, Nat.cast_add, Nat.cast_one] at hlen
  simp only [Nat.cast_zero, Int.add_zero, List.getElem?_cons_zero] at hread
  exact ⟨by omega, hread, hrest⟩

theorem empty_of_toString (h : s.toString d = some l) : s.empty = decide (l = []) := by
  have hlen := length_of_toString h
  rw [Slice.empty, Bool.eq_iff_iff, beq_iff_eq, decide_eq_true_iff, ← List.length_eq_zero_iff]
  omega

theorem size_of_toString (h : s.toString d = some l) (hw : d.length < 2 ^ w) :
    s.size w = l.length := by
  have hlen := length_of_toString h
  obtain ⟨h₁, h₂, h₃, -⟩ := toString_eq_some_iff.mp h
  have hlt : (d.length : ℤ) < 2 ^ w := by exact_mod_cast hw
  rw [Slice.size, Int.emod_eq_of_lt (by omega) (by omega), hlen]

/-! ### Loops and operations -/

theorem skipLoop_eq {p : UInt8 → Bool} {m_pe b : ℤ} {fuel : ℕ}
    (h : (Slice.mk b m_pe).toString d = some l) (hfuel : l.length < fuel) :
    skipLoop d p m_pe fuel b = some (b + (l.takeWhile p).length) := by
  induction l generalizing b fuel with
  | nil =>
    have hlen := length_of_toString h
    obtain ⟨fuel, rfl⟩ := Nat.exists_eq_succ_of_ne_zero (Nat.ne_of_gt hfuel)
    simp only [List.length_nil, Nat.cast_zero] at hlen
    rw [skipLoop, if_neg (by omega)]
    simp
  | cons a l ih =>
    obtain ⟨fuel, rfl⟩ := Nat.exists_eq_succ_of_ne_zero (by omega : fuel ≠ 0)
    obtain ⟨hlt, hread, hrest⟩ := toString_cons h
    rw [skipLoop, if_pos hlt, hread]
    simp only [Option.bind_eq_bind, Option.bind_some]
    split_ifs with ha
    · rw [ih hrest (by simpa using hfuel), List.takeWhile_cons_of_pos ha]
      simp only [List.length_cons, Nat.cast_add, Nat.cast_one, Option.some.injEq]
      omega
    · rw [List.takeWhile_cons_of_neg ha]
      simp

theorem skip_eq (p : UInt8 → Bool) (h : s.toString d = some l) :
    skip d p s.m_pe s.m_pb = some (s.m_pb + (l.takeWhile p).length) := by
  have hlen := length_of_toString h
  exact skipLoop_eq h (by omega)

/-- The word that `eatWord` cuts off, by its place in the slice. -/
def Slice.word (s : Slice) (l : Bytes) : Slice :=
  ⟨s.m_pb + (l.takeWhile isspace).length,
    s.m_pb + (l.takeWhile isspace).length + (Http.Slice.eatWord l).1.length⟩

theorem length_eatWord (l : Bytes) :
    (l.takeWhile isspace).length + (Http.Slice.eatWord l).1.length + (Http.Slice.eatWord l).2.length =
      l.length := by
  have hsplit : l.takeWhile isspace ++ ((Http.Slice.eatWord l).1 ++ (Http.Slice.eatWord l).2) = l := by
    simp only [Http.Slice.eatWord, List.takeWhile_append_dropWhile]
  have := congrArg List.length hsplit
  simp only [List.length_append] at this
  omega

theorem eatWord_eq (h : s.toString d = some l) :
    s.eatWord d = some (s.word l, ⟨(s.word l).m_pe, s.m_pe⟩) ∧
      (s.word l).toString d = some (Http.Slice.eatWord l).1 ∧
      (Slice.mk (s.word l).m_pe s.m_pe).toString d = some (Http.Slice.eatWord l).2 := by
  have hlen := length_eatWord l
  have hdrop : l.drop (l.takeWhile isspace).length = l.dropWhile isspace := drop_length_takeWhile ..
  have hrest := toString_rest h (k := (l.takeWhile isspace).length) (by omega)
  rw [hdrop] at hrest
  have hskip := skip_eq (fun c => !isspace c) hrest
  have hword := toString_cut hrest (k := 0) (n := (Http.Slice.eatWord l).1.length) (by
    rw [← hdrop, List.length_drop]
    omega)
  have hbehind := toString_rest hrest (k := (Http.Slice.eatWord l).1.length) (by
    rw [← hdrop, List.length_drop]
    omega)
  simp only [Nat.cast_zero, Int.add_zero, List.drop_zero] at hword
  refine ⟨?_, hword.trans (congrArg some ?_), hbehind.trans (congrArg some ?_)⟩
  · rw [Slice.eatWord, skip_eq isspace h]
    simp only [Option.bind_eq_bind, Option.bind_some]
    rw [hskip]
    rfl
  · exact take_length_takeWhile ..
  · exact drop_length_takeWhile ..

/-- The line that `eatLine` cuts off, by its place in the slice. -/
def Slice.line (s : Slice) (l : Bytes) : Slice := ⟨s.m_pb, s.m_pb + (Http.Slice.eatLine l).1.length⟩

theorem eatLine_eq (h : s.toString d = some l) :
    s.eatLine d = some (s.line l, ⟨(s.line l).m_pe, s.m_pe⟩) ∧
      (s.line l).toString d = some (Http.Slice.eatLine l).1 ∧
      (Slice.mk (s.line l).m_pe s.m_pe).toString d = some (Http.Slice.eatLine l).2 := by
  have hle : (Http.Slice.eatLine l).1.length ≤ l.length := (List.takeWhile_prefix _).length_le
  have hline := toString_cut h (k := 0) (n := (Http.Slice.eatLine l).1.length) (by omega)
  have hbehind := toString_rest h hle
  simp only [Nat.cast_zero, Int.add_zero, List.drop_zero] at hline
  refine ⟨?_, hline.trans (congrArg some ?_), hbehind.trans (congrArg some ?_)⟩
  · rw [Slice.eatLine, skip_eq (fun c => !isEol c) h]
    simp only [Option.bind_eq_bind, Option.bind_some, Slice.line, Http.Slice.eatLine,
      Option.some.injEq, Prod.mk.injEq, Slice.mk.injEq, true_and, and_true]
    omega
  · exact take_length_takeWhile ..
  · exact drop_length_takeWhile ..

theorem eat_eq (h : s.toString d = some l) (hw : d.length < 2 ^ w) :
    s.eat w 2 = (⟨s.m_pb, s.m_pb + min 2 l.length⟩, ⟨s.m_pb + min 2 l.length, s.m_pe⟩) ∧
      (Slice.mk (s.m_pb + min 2 l.length) s.m_pe).toString d = some (l.drop 2) := by
  have hmin : (if 2 > (l.length : ℤ) then (l.length : ℤ) else 2) = min 2 l.length := by
    split_ifs <;> omega
  have hrest := toString_rest h (k := min 2 l.length) (by omega)
  have hdrop : l.drop (min 2 l.length) = l.drop 2 := by
    rcases Nat.le_total 2 l.length with h2 | h2
    · rw [Nat.min_eq_left h2]
    · rw [Nat.min_eq_right h2, List.drop_length, List.drop_of_length_le h2]
  rw [hdrop] at hrest
  refine ⟨?_, hrest⟩
  rw [Slice.eat, size_of_toString h hw]
  simp only [hmin]

theorem back_eq (h : s.toString d = some l) (hne : l ≠ []) : s.back d = l.getLast? := by
  have hlen := length_of_toString h
  have hpos : 0 < l.length := List.length_pos_iff.mpr hne
  have hread := read_of_toString h (k := l.length - 1) (by omega)
  have hlast : s.m_pb + (l.length - 1 : ℕ) = s.m_pe - 1 := by omega
  rw [hlast] at hread
  rw [Slice.back, hread, List.getLast?_eq_getElem?]

theorem sub_eq (h : s.toString d = some l) (hne : l ≠ []) :
    (s.sub 0 (-1)).toString d = some l.dropLast := by
  have hlen := length_of_toString h
  have hpos : 0 < l.length := List.length_pos_iff.mpr hne
  have hcut := toString_cut h (k := 0) (n := l.length - 1) (by omega)
  have he : s.m_pb + 0 + (l.length - 1 : ℕ) = s.m_pe + -1 := by omega
  simp only [Nat.cast_zero, he, List.drop_zero] at hcut
  rw [List.dropLast_eq_take]
  exact hcut

/-! ### The end of the header block -/

theorem getHeader_of_length_lt {d : Bytes} (h : d.length < 4) : Http.getHeader d = none := by
  cases hi : Http.getHeader d with
  | none => rfl
  | some i =>
    have := getHeader_le hi
    omega

theorem readAll_eq (h : s.toString d = some l) {k n : ℕ} (hk : k + n ≤ l.length) :
    readAll d (s.m_pb + k) (s.m_pb + k + n) = some ((l.drop k).take n) := toString_cut h hk

theorem getHeaderLoop_eq (h : s.toString d = some l) (hw : d.length < 2 ^ w) (h4 : 4 ≤ l.length)
    {fuel i : ℕ} (hi : i ≤ l.length - 3) (hfuel : l.length - 3 - i < fuel) :
    getHeaderLoop w d s fuel i = some ((Http.getHeader (l.drop i)).map fun j => ((i + j : ℕ) : ℤ)) := by
  have hsz : (s.size w - 4) % 2 ^ w = l.length - 4 := by
    have hlen := length_of_toString h
    obtain ⟨h₁, h₂, h₃, -⟩ := toString_eq_some_iff.mp h
    have hlt : (d.length : ℤ) < 2 ^ w := by exact_mod_cast hw
    rw [size_of_toString h hw, Int.emod_eq_of_lt (by omega) (by omega)]
  induction fuel generalizing i with
  | zero => omega
  | succ fuel ih =>
    rw [getHeaderLoop, hsz]
    by_cases hlast : i = l.length - 3
    · rw [if_neg (by omega), getHeader_of_length_lt (by rw [List.length_drop]; omega)]
      rfl
    · have hlt : i < l.length := by omega
      have hnext := ih (i := i + 1) (by omega) (by omega)
      have hcons : l.drop i = l[i] :: l.drop (i + 1) := List.drop_eq_getElem_cons hlt
      have hfour := readAll_eq h (k := i) (n := 4) (by omega)
      have hprefix : decide ((l.drop i).take 4 = crlfcrlf) = decide (crlfcrlf <+: l.drop i) := by
        rw [decide_eq_decide, List.prefix_iff_eq_take]
        exact eq_comm
      rw [if_pos (by omega), Slice.at_, read_of_toString h hlt, List.getElem?_eq_getElem hlt]
      simp only [Option.bind_eq_bind, Option.bind_some]
      rw [hcons, getHeader_cons, ← hcons]
      push_cast at hnext
      by_cases hcr : 0x0d = l[i]
      · rw [if_pos hcr, show s.m_pb + i + 4 = s.m_pb + i + (4 : ℕ) from rfl, hfour]
        simp only [Option.map_some, Option.bind_some, hprefix, decide_eq_true_eq]
        split_ifs with hp
        · simp
        · rw [hnext, Option.map_map]
          congr 2
          funext j
          simp only [Function.comp_apply]
          omega
      · have hno : ¬ crlfcrlf <+: l.drop i := by
          rw [hcons]
          exact fun hp => hcr (List.cons_prefix_cons.mp hp).1
        rw [if_neg hcr, if_neg hno]
        simp only [Bool.false_eq_true, if_false]
        rw [hnext, Option.map_map]
        congr 2
        funext j
        simp only [Function.comp_apply]
        omega

theorem getHeader_eq (hw : d.length < 2 ^ w) :
    getHeader w d ⟨0, d.length⟩ = some ((Http.getHeader d).map fun i : ℕ => (i : ℤ)) := by
  have h : (Slice.mk 0 d.length).toString d = some d :=
    toString_eq_some_iff.mpr ⟨le_rfl, by simp, le_rfl, by simp⟩
  rw [getHeader, size_of_toString h hw]
  split_ifs with h4
  · rw [getHeader_of_length_lt (by omega)]
    rfl
  · have hloop := @getHeaderLoop_eq d d _ w h hw (by omega) (d.length + 1) 0 (by omega) (by omega)
    simp only [Nat.cast_zero, List.drop_zero, Nat.zero_add] at hloop
    exact hloop

/-! ### One round of the header loop -/

theorem isField_eq {key value : Slice} {k v : Bytes} (hk : key.toString d = some k)
    (hv : value.toString d = some v) :
    isField d key value = some (decide (v ≠ [] ∧ k ≠ [] ∧ k.getLast? = some 0x3a)) := by
  rw [isField, empty_of_toString hk, empty_of_toString hv]
  by_cases hvn : v = []
  · simp [hvn]
  by_cases hkn : k = []
  · simp [hvn, hkn]
  · rw [back_eq hk hkn, List.getLast?_eq_some_getLast hkn]
    simp [hvn, hkn]

/-- The pointers are in order between `lo` and `hi`. -/
structure Slice.Between (lo hi : ℤ) (s : Slice) : Prop where
  lower : lo ≤ s.m_pb
  ordered : s.m_pb ≤ s.m_pe
  upper : s.m_pe ≤ hi

theorem Slice.Between.mono {lo lo' hi hi' : ℤ} (h : s.Between lo hi) (hlo : lo' ≤ lo) (hhi : hi ≤ hi') :
    s.Between lo' hi' := ⟨hlo.trans h.lower, h.ordered, h.upper.trans hhi⟩

theorem between_self (h : s.toString d = some l) : s.Between s.m_pb s.m_pe := by
  have hlen := length_of_toString h
  exact ⟨le_rfl, by omega, le_rfl⟩

theorem between_word (h : s.toString d = some l) : (s.word l).Between s.m_pb s.m_pe ∧
    (Slice.mk (s.word l).m_pe s.m_pe).Between s.m_pb s.m_pe := by
  have hlen := length_of_toString h
  have hword := length_eatWord l
  refine ⟨⟨?_, ?_, ?_⟩, ?_, ?_, le_rfl⟩ <;> simp only [Slice.word] <;> omega

theorem between_line (h : s.toString d = some l) : (s.line l).Between s.m_pb s.m_pe ∧
    (Slice.mk (s.line l).m_pe s.m_pe).Between s.m_pb s.m_pe := by
  have hlen := length_of_toString h
  have hline : (Http.Slice.eatLine l).1.length ≤ l.length := (List.takeWhile_prefix _).length_le
  refine ⟨⟨?_, ?_, ?_⟩, ?_, ?_, le_rfl⟩ <;> simp only [Slice.line] <;> omega

/-- The slices of a round of the header loop, by their places in a header that shows `l`. -/
structure Round where
  eol : Slice
  header₁ : Slice
  line : Slice
  header₂ : Slice
  key : Slice
  line₁ : Slice
  value : Slice
  line₂ : Slice

def Slice.round (s : Slice) (l : Bytes) : Round :=
  let header₁ : Slice := ⟨s.m_pb + min 2 l.length, s.m_pe⟩
  let line := header₁.line (l.drop 2)
  let key := line.word (firstLine (l.drop 2))
  let line₁ : Slice := ⟨key.m_pe, line.m_pe⟩
  let value := line₁.word (Http.Slice.eatWord (firstLine (l.drop 2))).2
  { eol := ⟨s.m_pb, s.m_pb + min 2 l.length⟩
    header₁ := header₁
    line := line
    header₂ := ⟨line.m_pe, s.m_pe⟩
    key := key
    line₁ := line₁
    value := value
    line₂ := ⟨value.m_pe, line.m_pe⟩ }

def Round.cuts (r : Round) : List Slice :=
  [r.eol, r.header₁, r.line, r.header₂, r.key, r.line₁, r.value, r.line₂]

theorem round_header_toString (h : s.toString d = some l) (hw : d.length < 2 ^ w) :
    (s.round l).header₂.toString d = some (Http.Slice.eatLine (l.drop 2)).2 :=
  (eatLine_eq (eat_eq h hw).2).2.2

theorem round_key_toString (h : s.toString d = some l) (hw : d.length < 2 ^ w) :
    (s.round l).key.toString d = some (Http.Slice.eatWord (firstLine (l.drop 2))).1 :=
  (eatWord_eq (eatLine_eq (eat_eq h hw).2).2.1).2.1

theorem round_value_toString (h : s.toString d = some l) (hw : d.length < 2 ^ w) :
    (s.round l).value.toString d =
      some (Http.Slice.eatWord (Http.Slice.eatWord (firstLine (l.drop 2))).2).1 :=
  (eatWord_eq (eatWord_eq (eatLine_eq (eat_eq h hw).2).2.1).2.2).2.1

theorem between_round (h : s.toString d = some l) (hw : d.length < 2 ^ w) :
    ∀ cut ∈ (s.round l).cuts, cut.Between s.m_pb s.m_pe := by
  have hlen := length_of_toString h
  have hrest := (eat_eq h hw).2
  obtain ⟨-, hline, -⟩ := eatLine_eq hrest
  obtain ⟨-, -, hline₁⟩ := eatWord_eq hline
  have heol : (s.round l).eol.Between s.m_pb s.m_pe := ⟨le_rfl, by simp [Slice.round], by
    simp only [Slice.round]
    omega⟩
  have hheader₁ : (s.round l).header₁.Between s.m_pb s.m_pe := ⟨by simp [Slice.round], by
    simp only [Slice.round]
    omega, le_rfl⟩
  -- Each slice is cut from one before it.
  have hlines := between_line hrest
  have hl : (s.round l).line.Between s.m_pb s.m_pe := hlines.1.mono hheader₁.lower hheader₁.upper
  have hkeys := between_word hline
  have hk₁ : (s.round l).line₁.Between s.m_pb s.m_pe := hkeys.2.mono hl.lower hl.upper
  have hvalues := between_word hline₁
  intro cut hcut
  simp only [Round.cuts, List.mem_cons, List.not_mem_nil, or_false] at hcut
  rcases hcut with rfl | rfl | rfl | rfl | rfl | rfl | rfl | rfl
  · exact heol
  · exact hheader₁
  · exact hl
  · exact hlines.2.mono hheader₁.lower hheader₁.upper
  · exact hkeys.1.mono hl.lower hl.upper
  · exact hk₁
  · exact hvalues.1.mono hk₁.lower hk₁.upper
  · exact hvalues.2.mono hk₁.lower hk₁.upper

theorem headerLoop_succ (h : s.toString d = some l) (hw : d.length < 2 ^ w) (hne : l ≠ []) (fuel : ℕ)
    (c : HttpCodec) : headerLoop w d (fuel + 1) s c =
      (headerLine (firstLine (l.drop 2))).elim
        (some (false, { c with m_status := some .bad_request }, ⟨(s.round l).cuts, [(s.round l).eol], []⟩))
        fun kv => (headerLoop w d fuel (s.round l).header₂
            (c.withHeaders (c.m_req.m_headers.insert kv.1 kv.2))).map fun r => (r.1, r.2.1,
              Trace.append ⟨(s.round l).cuts ++ [(s.round l).key.sub 0 (-1)], [(s.round l).eol],
                if (c.m_req.m_headers.lookup kv.1).isSome then []
                else [⟨(s.round l).key, (s.round l).value⟩]⟩ r.2.2) := by
  obtain ⟨heat, hrest⟩ := eat_eq h hw
  obtain ⟨hline, hl, hheader⟩ := eatLine_eq hrest
  obtain ⟨hkey, hk, hkrest⟩ := eatWord_eq hl
  obtain ⟨hvalue, hv, hvrest⟩ := eatWord_eq hkrest
  have hempty : s.empty = false := by
    rw [empty_of_toString h]
    exact decide_eq_false hne
  have hround : headerLoop w d (fuel + 1) s c = (isField d (s.round l).key (s.round l).value).bind fun ok =>
      if ok then
        (((s.round l).key.sub 0 (-1)).toString d).bind fun name => ((s.round l).value.toString d).bind fun text =>
          (headerLoop w d fuel (s.round l).header₂
              (c.withHeaders (c.m_req.m_headers.insert name text))).bind fun r => some (r.1, r.2.1,
            Trace.append ⟨(s.round l).cuts ++ [(s.round l).key.sub 0 (-1)], [(s.round l).eol],
              if (c.m_req.m_headers.lookup name).isSome then []
              else [⟨(s.round l).key, (s.round l).value⟩]⟩ r.2.2)
      else some (false, { c with m_status := some .bad_request }, ⟨(s.round l).cuts, [(s.round l).eol], []⟩) := by
    rw [headerLoop, hempty, heat]
    simp only [Bool.false_eq_true, if_false, Option.bind_eq_bind, hline, Option.bind_some]
    rw [hkey]
    simp only [Option.bind_some]
    rw [hvalue]
    rfl
  rw [hround, isField_eq (round_key_toString h hw) (round_value_toString h hw)]
  simp only [Option.bind_some, decide_eq_true_eq]
  have hlineEq := headerLine_eq (firstLine (l.drop 2))
  split_ifs at hlineEq ⊢ with hok
  · rw [hlineEq, sub_eq (round_key_toString h hw) hok.2.1, round_value_toString h hw]
    simp only [Option.elim_some, Option.bind_some, Option.map_eq_bind]
    rfl
  · rw [hlineEq, Option.elim_none]

theorem between_sub {key : Slice} {lo hi : ℤ} (hb : key.Between lo hi) (h : key.toString d = some l)
    (hne : l ≠ []) : (key.sub 0 (-1)).Between lo hi := by
  have hself := between_self (sub_eq h hne)
  refine ⟨?_, hself.ordered, ?_⟩
  · simpa [Slice.sub] using hb.lower
  · have := hb.upper
    simp only [Slice.sub]
    omega

/-! ### The whole header phase -/

theorem key_ne_of_headerLine {line : Bytes} {kv : Bytes × Bytes} (h : headerLine line = some kv) :
    (Http.Slice.eatWord line).1 ≠ [] := by
  rw [headerLine_eq] at h
  split_ifs at h with hok
  exact hok.2.1

theorem length_round_header (h : l ≠ []) :
    (Http.Slice.eatLine (l.drop 2)).2.length + 1 ≤ l.length := by
  have hpos : 0 < l.length := List.length_pos_iff.mpr h
  have hle : (Http.Slice.eatLine (l.drop 2)).2.length ≤ (l.drop 2).length :=
    List.length_dropWhile_le ..
  rw [List.length_drop] at hle
  omega

theorem headerLoop_nil (h : s.toString d = some []) (fuel : ℕ) (c : HttpCodec) :
    headerLoop w d (fuel + 1) s c = some (true, c, ⟨[], [], []⟩) := by
  rw [headerLoop, empty_of_toString h]
  rfl

theorem headerLoop_eq (hw : d.length < 2 ^ w) {fuel : ℕ} (h : s.toString d = some l)
    (hfuel : l.length ≤ fuel) (c : HttpCodec) :
    ∃ t, headerLoop w d (fuel + 1) s c =
        some ((HttpCodec.headerLoop fuel l c).1, (HttpCodec.headerLoop fuel l c).2, t) ∧
      ∀ cut ∈ t.cuts, cut.Between s.m_pb s.m_pe := by
  induction fuel generalizing s l c with
  | zero =>
    obtain rfl := List.eq_nil_of_length_eq_zero (Nat.le_zero.mp hfuel)
    exact ⟨_, headerLoop_nil h 0 c, by simp⟩
  | succ fuel ih =>
    by_cases hnil : l = []
    · subst hnil
      exact ⟨_, headerLoop_nil h (fuel + 1) c, by simp⟩
    have hround := between_round h hw
    rw [headerLoop_succ h hw hnil, HttpCodec.headerLoop_succ fuel hnil]
    cases hline : headerLine (firstLine (l.drop 2)) with
    | none => exact ⟨_, rfl, hround⟩
    | some kv =>
      have hle := length_round_header hnil
      obtain ⟨t, heq, hcuts⟩ := ih (round_header_toString h hw) (by omega)
        (c.withHeaders (c.m_req.m_headers.insert kv.1 kv.2))
      have hheader₂ : (s.round l).header₂.Between s.m_pb s.m_pe := hround _ (by simp [Round.cuts])
      have hkey : (s.round l).key.Between s.m_pb s.m_pe := hround _ (by simp [Round.cuts])
      refine ⟨_, by simp only [Option.elim_some, heq]; rfl, fun cut hcut => ?_⟩
      simp only [Trace.append, List.mem_append, List.mem_singleton] at hcut
      rcases hcut with (hcut | rfl) | hcut
      · exact hround cut hcut
      · exact between_sub hkey (round_key_toString h hw) (key_ne_of_headerLine hline)
      · exact (hcuts cut hcut).mono hheader₂.lower hheader₂.upper

theorem parseStartLine_eq (c : HttpCodec) : parseStartLine c = c.parseStartLine := by
  unfold parseStartLine HttpCodec.parseStartLine
  cases c.m_req.m_url with
  | nil => rfl
  | cons b t => rfl

def checkFields (w : ℕ) (c : HttpCodec) (m_inBuf header : Bytes) : ℤ × HttpCodec :=
  match HttpCodec.headerLoop header.length header c with
  | (false, c) => (-1, c)
  | (true, c) =>
    match c.parseStartLine with
    | (false, c) => (-1, c)
    | (true, c) =>
      match c.parseHeader with
      | (false, c) => (-1, c)
      | (true, c) => c.finish w m_inBuf

theorem decodeFields_eq (hw : d.length < 2 ^ w) (h : s.toString d = some l) (c : HttpCodec) :
    ∃ t, headerLoop w d (l.length + 1) s c = some ((HttpCodec.headerLoop l.length l c).1,
        (HttpCodec.headerLoop l.length l c).2, t) ∧
      decodeFields w c d s = some ((checkFields w c d l).1, (checkFields w c d l).2, t) ∧
      ∀ cut ∈ t.cuts, cut.Between s.m_pb s.m_pe := by
  have hlen := length_of_toString h
  have hfuel : (s.m_pe - s.m_pb).toNat = l.length := by omega
  obtain ⟨t, heq, hcuts⟩ := headerLoop_eq hw h le_rfl c
  refine ⟨t, heq, ?_, hcuts⟩
  rw [decodeFields, hfuel, heq, checkFields]
  simp only [Option.bind_eq_bind, Option.bind_some, parseStartLine_eq]
  rcases HttpCodec.headerLoop l.length l c with ⟨_ | _, c₁⟩
  · rfl
  · simp only [Bool.not_true, Bool.false_eq_true, if_false]
    rcases c₁.parseStartLine with ⟨_ | _, c₂⟩
    · rfl
    · simp only
      rcases c₂.parseHeader with ⟨_ | _, c₃⟩ <;> rfl

theorem exists_eatWord {lo hi : ℤ} (hb : s.Between lo hi) (h : s.toString d = some l) :
    ∃ word rest, s.eatWord d = some (word, rest) ∧
      word.toString d = some (Http.Slice.eatWord l).1 ∧
      rest.toString d = some (Http.Slice.eatWord l).2 ∧ word.Between lo hi ∧ rest.Between lo hi := by
  obtain ⟨heq, hword, hrest⟩ := eatWord_eq h
  obtain ⟨hb₁, hb₂⟩ := between_word h
  exact ⟨_, _, heq, hword, hrest, hb₁.mono hb.lower hb.upper, hb₂.mono hb.lower hb.upper⟩

theorem decodeHeader_startLine (h : s.toString d = some l) (w : ℕ) (c : HttpCodec) :
    ∃ cuts, (∀ cut ∈ cuts, cut.Between s.m_pb s.m_pe) ∧ decodeHeader w c d s =
      if HttpCodec.versionOf l = [] then some (-1, { c with m_status := some .bad_request }, ⟨cuts, [], []⟩)
      else (decodeFields w (c.parsed l []) d ⟨(s.line l).m_pe, s.m_pe⟩).map fun r =>
        (r.1, r.2.1, Trace.append ⟨cuts, [], []⟩ r.2.2) := by
  obtain ⟨hline, hl, -⟩ := eatLine_eq h
  obtain ⟨bl, bh⟩ := between_line h
  obtain ⟨method, line₁, hmethod, hm, hm', bm, bm'⟩ := exists_eatWord bl hl
  obtain ⟨url, line₂, hurl, hu, hu', bu, bu'⟩ := exists_eatWord bm' hm'
  obtain ⟨version, line₃, hversion, hv, -, bv, bv'⟩ := exists_eatWord bu' hu'
  have hempty : version.empty = decide (HttpCodec.versionOf l = []) := empty_of_toString hv
  refine ⟨[s, s.line l, ⟨(s.line l).m_pe, s.m_pe⟩, method, line₁, url, line₂, version, line₃], ?_, ?_⟩
  · simp only [List.forall_mem_cons]
    exact ⟨between_self h, bl, bh, bm, bm', bu, bu', bv, bv', by simp⟩
  · rw [decodeHeader]
    simp only [hline, hmethod, hurl, hversion, Option.bind_eq_bind, Option.bind_some, hempty,
      decide_eq_true_eq]
    split_ifs with hnil
    · rfl
    · rw [hm, hu, hv]
      rfl

theorem decodeHeader_eq (hw : d.length < 2 ^ w) (h : s.toString d = some l) (c : HttpCodec) :
    ∃ t, decodeHeader w c d s = some ((c.decodeHeader w d l).1, (c.decodeHeader w d l).2, t) ∧
      ∀ cut ∈ t.cuts, cut.Between s.m_pb s.m_pe := by
  obtain ⟨-, -, hheader⟩ := eatLine_eq h
  obtain ⟨-, bh⟩ := between_line h
  obtain ⟨cuts, hcuts, heq⟩ := decodeHeader_startLine h w c
  rw [heq, HttpCodec.decodeHeader_eq]
  split_ifs with hnil
  · exact ⟨_, rfl, hcuts⟩
  · obtain ⟨t, -, hfields, hcuts'⟩ := decodeFields_eq hw hheader (c.parsed l [])
    refine ⟨_, congrArg (Option.map _) hfields, fun cut hcut => ?_⟩
    simp only [Trace.append, List.mem_append] at hcut
    rcases hcut with hcut | hcut
    · exact hcuts cut hcut
    · exact (hcuts' cut hcut).mono bh.lower bh.upper

theorem tryDecode_some {i : ℕ} (hw : d.length < 2 ^ w) (hi : Http.getHeader d = some i) (h0 : 0 < i)
    (c : HttpCodec) : tryDecode w c d = decodeHeader w (c.scanned i) d ⟨0, i⟩ := by
  rw [tryDecode, getHeader_eq hw, hi]
  have hempty : ¬ (Slice.mk 0 i).empty = true := by
    rw [Slice.empty, beq_iff_eq]
    simp only
    omega
  have hlen : ((i : ℤ) + 4).toNat = i + 4 := by omega
  simp only [Option.map_some, Option.bind_eq_bind, Option.bind_some, hlen, Int.zero_add]
  rw [if_neg hempty]
  rfl

theorem toString_header {i : ℕ} (hi : Http.getHeader d = some i) :
    (Slice.mk 0 i).toString d = some (d.take i) := by
  have hle := getHeader_le hi
  exact toString_eq_some_iff.mpr ⟨le_rfl, by simp, by simp only; omega, by simp⟩

theorem tryDecode_eq (hw : d.length < 2 ^ w) (c : HttpCodec) :
    ∃ t, tryDecode w c d = some ((c.tryDecode w d).1, (c.tryDecode w d).2, t) ∧
      ∀ cut ∈ t.cuts, cut.Between 0 ((c.tryDecode w d).2.m_req.m_nHeaderLength - 4) := by
  cases hi : Http.getHeader d with
  | none =>
    refine ⟨⟨[], [], []⟩, ?_, by simp⟩
    rw [tryDecode, getHeader_eq hw, HttpCodec.tryDecode, hi]
    rfl
  | some i =>
    have hlen := HttpCodec.tryDecode_headerLength hi w c
    rw [hlen]
    by_cases h0 : i = 0
    · subst h0
      refine ⟨⟨[⟨0, 0⟩], [], []⟩, ?_, ?_⟩
      · rw [tryDecode, getHeader_eq hw, HttpCodec.tryDecode, hi]
        rfl
      · intro cut hcut
        rw [List.mem_singleton.mp hcut]
        exact ⟨le_rfl, le_rfl, by simp⟩
    · have hpos := Nat.pos_of_ne_zero h0
      obtain ⟨t, heq, hcuts⟩ := decodeHeader_eq hw (toString_header hi) (c.scanned i)
      refine ⟨t, ?_, fun cut hcut => ?_⟩
      · rw [tryDecode_some hw hi hpos, heq, HttpCodec.tryDecode_some hi hpos]
      · exact (hcuts cut hcut).mono le_rfl (by simp only; omega)

/-- The header phase reads received bytes only and comes to an end, it answers what the functions on
bytes answer, and all its slices lie in the header block. -/
theorem header_phase_safe {w : ℕ} (hw : w = 32 ∨ w = 64) {d : Bytes} (hd : d.length < 2 ^ 31)
    (c : HttpCodec) : ∃ t, tryDecode w c d = some ((c.tryDecode w d).1, (c.tryDecode w d).2, t) ∧
      ∀ cut ∈ t.cuts, 0 ≤ cut.m_pb ∧ cut.m_pb ≤ cut.m_pe ∧
        cut.m_pe ≤ (c.tryDecode w d).2.m_req.m_nHeaderLength - 4 := by
  have hlt : d.length < 2 ^ w := by rcases hw with rfl | rfl <;> omega
  obtain ⟨t, heq, hcuts⟩ := tryDecode_eq hlt c
  exact ⟨t, heq, fun cut hcut => ⟨(hcuts cut hcut).lower, (hcuts cut hcut).ordered,
    (hcuts cut hcut).upper⟩⟩

theorem header_phase_safe_get : ∃ t, tryDecode 64 .new (ascii "GET / HTTP/1.1\nHost: a\r\nB: c\r\n\r\n") =
      some (-1, (HttpCodec.new.tryDecode 64 (ascii "GET / HTTP/1.1\nHost: a\r\nB: c\r\n\r\n")).2, t) ∧
    ∀ cut ∈ t.cuts, 0 ≤ cut.m_pb ∧ cut.m_pb ≤ cut.m_pe ∧ cut.m_pe ≤ 28 :=
  header_phase_safe (.inr rfl) (by decide) .new

end NetDemo.Http.Pointers
