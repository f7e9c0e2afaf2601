import NetDemo.Foundation.Arrays

/-! Files that are read with `fgets`: the pieces it cuts them into, and what the bodies of the usual loops
around it find in the array. -/

namespace NetDemo.Foundation
variable {n : ℕ}

/-- `fgets` stopped before a newline and before the array was full, for want of bytes. -/
def Unfinished (n : ℕ) (piece : List UInt8) : Prop := piece.length < n - 1 ∧ 0x0a ∉ piece

instance : DecidablePred (Unfinished n) := fun _ => inferInstanceAs (Decidable (_ ∧ _))

/-- What is left to be read, and the end-of-file indicator. -/
structure InFile where
  rest : List UInt8
  eof : Bool

namespace InFile

def fopen (content : List UInt8) : InFile := ⟨content, false⟩

def gets (f : InFile) (buf : Block n) : Option (Block n) × InFile :=
  let line := firstLine n f.rest
  (fgets buf f.rest, ⟨f.rest.drop line.length, f.eof || decide (Unfinished n line)⟩)

/-- `while (fgets(buf, n, f) != NULL) body` -/
def getsWhile : ℕ → InFile → Block n → Option (List (List UInt8))
  | 0, _, _ => none
  | fuel + 1, f, buf =>
    match f.gets buf with
    | (none, _) => some []
    | (some buf, f) => (getsWhile fuel f buf).map (cstr buf.mem 0 :: ·)

/-- `while (!feof(f)) { fgets(buf, n, f); body }` -/
def getsUntilEof : ℕ → InFile → Block n → Option (List (List UInt8))
  | 0, _, _ => none
  | fuel + 1, f, buf =>
    if f.eof then some []
    else
      let (line, f) := f.gets buf
      (getsUntilEof fuel f (line.getD buf)).map (cstr (line.getD buf).mem 0 :: ·)

/-- `while (!feof(f)) { body; fgets(buf, n, f); }` -/
def untilEofGets : ℕ → InFile → Block n → Option (List (List UInt8))
  | 0, _, _ => none
  | fuel + 1, f, buf =>
    if f.eof then some []
    else
      let (line, f) := f.gets buf
      (untilEofGets fuel f (line.getD buf)).map (cstr buf.mem 0 :: ·)

end InFile

section
variable {s : List UInt8}

theorem firstLine_isPrefix (n : ℕ) (s : List UInt8) : firstLine n s <+: s :=
  (List.take_prefix ..).trans (List.take_prefix ..)

theorem firstLine_ne_nil (hn : 2 ≤ n) (hs : s ≠ []) : firstLine n s ≠ [] := by
  obtain ⟨a, t, rfl⟩ := List.exists_cons_of_ne_nil hs
  obtain ⟨m, rfl⟩ := Nat.exists_eq_add_of_le hn
  have hm : 2 + m - 1 = m + 1 := by omega
  rw [firstLine, hm, List.take_succ_cons, List.take_succ_cons]
  exact List.cons_ne_nil _ _

theorem firstLine_append_drop (n : ℕ) (s : List UInt8) :
    firstLine n s ++ s.drop (firstLine n s).length = s := by
  have htake := List.prefix_iff_eq_take.mp (firstLine_isPrefix n s)
  calc firstLine n s ++ s.drop (firstLine n s).length
      = s.take (firstLine n s).length ++ s.drop (firstLine n s).length := by rw [← htake]
    _ = s := List.take_append_drop ..

theorem firstLine_of_newline (h : 0x0a ∈ s.take (n - 1)) : 0x0a ∈ firstLine n s := by
  unfold firstLine strcspn
  generalize s.take (n - 1) = t at h ⊢
  cases hd : t.dropWhile fun b => !([0x0a] : List UInt8).contains b with
  | nil =>
    rw [List.dropWhile_eq_nil_iff] at hd
    exact absurd (hd 0x0a h) (by decide)
  | cons c r =>
    have hc := head?_dropWhile (congrArg List.head? hd)
    have hsplit : t = (t.takeWhile fun b => !([0x0a] : List UInt8).contains b) ++ c :: r := by
      rw [← hd, List.takeWhile_append_dropWhile]
    generalize t.takeWhile _ = l at hsplit ⊢
    obtain rfl : c = 0x0a := by simpa using hc
    rw [hsplit, List.take_length_add_append]
    simp

theorem firstLine_of_no_newline (h : 0x0a ∉ s.take (n - 1)) : firstLine n s = s.take (n - 1) := by
  have hall : strcspn (s.take (n - 1)) [0x0a] = (s.take (n - 1)).length := by
    refine Nat.le_antisymm (strcspn_le _ _) (Nat.not_lt.mp fun hlt => h ?_)
    obtain ⟨b, hb, hmem⟩ := strcspn_lt_iff.mp hlt
    rwa [List.mem_singleton.mp hmem] at hb
  rw [firstLine, hall]
  exact List.take_of_length_le (Nat.le_succ _)

theorem firstLine_line {l : List UInt8} (hl : 0x0a ∉ l) (hlen : l.length + 1 ≤ n - 1) (t : List UInt8) :
    firstLine n (l ++ 0x0a :: t) = l ++ [0x0a] := by
  have htake : (l ++ 0x0a :: t).take (n - 1) = l ++ 0x0a :: t.take (n - 1 - (l.length + 1)) := by
    rw [List.take_append, List.take_of_length_le (by omega)]
    obtain ⟨k, hk⟩ := Nat.exists_eq_add_of_le hlen
    have hsub : n - 1 - l.length = k + 1 := by omega
    rw [hsub, List.take_succ_cons, hk, Nat.add_sub_cancel_left]
  have hspan := (span_append (p := fun b => !([0x0a] : List UInt8).contains b) (l := l)
    (t := 0x0a :: t.take (n - 1 - (l.length + 1))) (by simpa using fun b hb => ne_of_mem_of_not_mem hb hl)
    (by simp)).1
  rw [firstLine, htake, strcspn, hspan, List.take_length_add_append]
  rfl

theorem drop_of_unfinished (h : Unfinished n (firstLine n s)) : s.drop (firstLine n s).length = [] := by
  have hno : 0x0a ∉ s.take (n - 1) := fun hmem => h.2 (firstLine_of_newline hmem)
  have hlen := h.1
  rw [firstLine_of_no_newline hno] at hlen ⊢
  rw [List.length_take] at hlen ⊢
  rw [List.drop_eq_nil_iff]
  omega

/-- The pieces that `fgets` reads one after the other. -/
def pieces (n : ℕ) (s : List UInt8) : List (List UInt8) :=
  if _h : s = [] ∨ n < 2 then [] else firstLine n s :: pieces n (s.drop (firstLine n s).length)
termination_by s.length
decreasing_by
  rw [not_or, Nat.not_lt] at _h
  have hpos := List.length_pos_iff.mpr (firstLine_ne_nil _h.2 _h.1)
  have hle := (firstLine_isPrefix n s).length_le
  rw [List.length_drop]
  omega

theorem pieces_nil (n : ℕ) : pieces n [] = [] := by
  rw [pieces, dif_pos (.inl rfl)]

theorem pieces_of_ne_nil (hn : 2 ≤ n) (hs : s ≠ []) :
    pieces n s = firstLine n s :: pieces n (s.drop (firstLine n s).length) := by
  rw [pieces, dif_neg (not_or.mpr ⟨hs, Nat.not_lt.mpr hn⟩)]

theorem pieces_induction (hn : 2 ≤ n) {P : List UInt8 → Prop} (nil : P [])
    (cons : ∀ s, s ≠ [] → P (s.drop (firstLine n s).length) → P s) (s : List UInt8) : P s := by
  induction hlen : s.length using Nat.strongRecOn generalizing s with
  | ind m ih =>
    by_cases hs : s = []
    · exact hs ▸ nil
    · refine cons s hs (ih _ ?_ _ rfl)
      have hpos := List.length_pos_iff.mpr (firstLine_ne_nil hn hs)
      have hle := (firstLine_isPrefix n s).length_le
      rw [List.length_drop]
      omega

theorem flatten_pieces (hn : 2 ≤ n) (s : List UInt8) : (pieces n s).flatten = s := by
  induction s using pieces_induction hn with
  | nil => rw [pieces_nil, List.flatten_nil]
  | cons s hs ih => rw [pieces_of_ne_nil hn hs, List.flatten_cons, ih, firstLine_append_drop]

theorem mem_pieces (hn : 2 ≤ n) (s : List UInt8) : ∀ piece ∈ pieces n s, piece ≠ [] ∧ piece.length < n := by
  induction s using pieces_induction hn with
  | nil => simp [pieces_nil]
  | cons s hs ih =>
    rw [pieces_of_ne_nil hn hs, List.forall_mem_cons]
    exact ⟨⟨firstLine_ne_nil hn hs, length_firstLine (by omega) s⟩, ih⟩

theorem length_drop_firstLine_lt (hs : s ≠ []) (hn : 2 ≤ n) :
    (s.drop (firstLine n s).length).length < s.length := by
  have hpos := List.length_pos_iff.mpr (firstLine_ne_nil hn hs)
  have hle := (firstLine_isPrefix n s).length_le
  rw [List.length_drop]
  omega

theorem firstLine_append (h : ¬ Unfinished n (firstLine n s)) (t : List UInt8) :
    firstLine n (s ++ t) = firstLine n s := by
  by_cases hnl : 0x0a ∈ s.take (n - 1)
  · have hfails : ∃ b ∈ s.take (n - 1), (!([0x0a] : List UInt8).contains b) = false := ⟨0x0a, hnl, by decide⟩
    have hlt : strcspn (s.take (n - 1)) [0x0a] < (s.take (n - 1)).length :=
      strcspn_lt_iff.mpr ⟨0x0a, hnl, List.mem_singleton_self _⟩
    have hspan : strcspn ((s ++ t).take (n - 1)) [0x0a] = strcspn (s.take (n - 1)) [0x0a] := by
      rw [List.take_append, strcspn, takeWhile_append_of_fails hfails, strcspn]
    rw [firstLine, hspan, List.take_append, List.take_append_of_le_length (by omega), firstLine]
  · have hline := firstLine_of_no_newline hnl
    rw [hline] at h
    have hlen : n - 1 ≤ s.length := by
      by_contra hshort
      exact h ⟨by rw [List.length_take]; omega, hnl⟩
    have htake : (s ++ t).take (n - 1) = s.take (n - 1) := List.take_append_of_le_length hlen
    rw [hline, firstLine_of_no_newline (by rwa [htake]), htake]

theorem pieces_append (hn : 2 ≤ n) (s : List UInt8) (h : ∀ piece ∈ pieces n s, ¬ Unfinished n piece)
    (t : List UInt8) : pieces n (s ++ t) = pieces n s ++ pieces n t := by
  induction s using pieces_induction hn with
  | nil => rw [pieces_nil]; rfl
  | cons s hs ih =>
    rw [pieces_of_ne_nil hn hs] at h
    have hfirst := firstLine_append (h _ List.mem_cons_self) t
    have hdrop : (s ++ t).drop (firstLine n s).length = s.drop (firstLine n s).length ++ t :=
      List.drop_append_of_le_length (firstLine_isPrefix n s).length_le
    rw [pieces_of_ne_nil hn (by simp [hs]), hfirst, hdrop, ih fun p hp => h p (List.mem_cons_of_mem _ hp),
      pieces_of_ne_nil hn hs]
    rfl

theorem finished_of_mem_dropLast (hn : 2 ≤ n) (s : List UInt8) :
    ∀ piece ∈ (pieces n s).dropLast, ¬ Unfinished n piece := by
  induction s using pieces_induction hn with
  | nil => simp [pieces_nil]
  | cons s hs ih =>
    rw [pieces_of_ne_nil hn hs]
    by_cases hrest : s.drop (firstLine n s).length = []
    · simp [hrest, pieces_nil]
    · rw [List.dropLast_cons_of_ne_nil (by rw [pieces_of_ne_nil hn hrest]; exact List.cons_ne_nil _ _)]
      intro piece hmem
      rcases List.mem_cons.mp hmem with rfl | hmem
      · exact fun hunfinished => hrest (drop_of_unfinished hunfinished)
      · exact ih piece hmem

/-- The pieces that end with a newline or fill the array. -/
def finished (n : ℕ) (s : List UInt8) : List (List UInt8) := (pieces n s).filter fun p => ¬ Unfinished n p

/-! ### The loops -/

/-- The string that a body finds in the array. -/
def shown (piece : List UInt8) : List UInt8 := piece.takeWhile (· ≠ 0)

namespace InFile

theorem gets_nil (hn : 2 ≤ n) (eof : Bool) (buf : Block n) :
    (⟨[], eof⟩ : InFile).gets buf = (none, ⟨[], true⟩) := by
  have hempty : firstLine n ([] : List UInt8) = [] := List.eq_nil_of_prefix_nil (firstLine_isPrefix n [])
  have hunfinished : Unfinished n [] := ⟨by simp; omega, List.not_mem_nil⟩
  simp [gets, fgets, hempty, hunfinished]

theorem gets_of_ne_nil (hn : 2 ≤ n) (hs : s ≠ []) (eof : Bool) (buf : Block n) :
    ∃ b, (⟨s, eof⟩ : InFile).gets buf = (some b, ⟨s.drop (firstLine n s).length,
        eof || decide (Unfinished n (firstLine n s))⟩) ∧ cstr b.mem 0 = shown (firstLine n s) := by
  obtain ⟨b, hb, hcstr⟩ := fgets_of_ne_nil buf (by omega) hs
  exact ⟨b, by rw [gets, hb], hcstr⟩

theorem getsWhile_eq (hn : 2 ≤ n) {fuel : ℕ} (hfuel : s.length < fuel) (eof : Bool) (buf : Block n) :
    getsWhile fuel ⟨s, eof⟩ buf = some ((pieces n s).map shown) := by
  induction s using pieces_induction hn generalizing fuel eof buf with
  | nil =>
    cases fuel with
    | zero => cases hfuel
    | succ fuel =>
      rw [getsWhile, gets_nil hn, pieces_nil]
      rfl
  | cons s hs ih =>
    cases fuel with
    | zero => cases hfuel
    | succ fuel =>
      obtain ⟨b, hb, hcstr⟩ := gets_of_ne_nil hn hs eof buf
      have hlt := length_drop_firstLine_lt hs hn
      rw [getsWhile, hb]
      simp only
      rw [ih (by omega), pieces_of_ne_nil hn hs, List.map_cons, hcstr]
      rfl

/-- What the body finds once more when the end of the file was not seen in time: the last piece, or
what was in the array before. -/
def again (n : ℕ) (s : List UInt8) (buf : Block n) : List (List UInt8) :=
  match (pieces n s).getLast? with
  | none => [cstr buf.mem 0]
  | some piece => if Unfinished n piece then [] else [shown piece]

theorem again_of_finished (hn : 2 ≤ n) (hs : s ≠ []) (hp : ¬ Unfinished n (firstLine n s)) {buf b : Block n}
    (hb : cstr b.mem 0 = shown (firstLine n s)) :
    again n s buf = again n (s.drop (firstLine n s).length) b := by
  unfold again
  rw [pieces_of_ne_nil hn hs, List.getLast?_cons]
  cases hrest : (pieces n (s.drop (firstLine n s).length)).getLast? with
  | none => simp [hp, hb]
  | some piece => rfl

theorem getsUntilEof_eq (hn : 2 ≤ n) {fuel : ℕ} (hfuel : s.length + 1 < fuel) (buf : Block n) :
    getsUntilEof fuel ⟨s, false⟩ buf = some ((pieces n s).map shown ++ again n s buf) := by
  induction s using pieces_induction hn generalizing fuel buf with
  | nil =>
    match fuel, hfuel with
    | fuel + 2, _ =>
      have hagain : again n [] buf = [cstr buf.mem 0] := by simp [again, pieces_nil]
      simp [getsUntilEof, gets_nil hn, pieces_nil, hagain]
  | cons s hs ih =>
    match fuel, hfuel with
    | fuel + 2, hfuel =>
      obtain ⟨b, hb, hcstr⟩ := gets_of_ne_nil hn hs false buf
      have hlt := length_drop_firstLine_lt hs hn
      rw [getsUntilEof, hb, pieces_of_ne_nil hn hs]
      by_cases hp : Unfinished n (firstLine n s)
      · have hrest := drop_of_unfinished hp
        have hagain : again n s buf = [] := by simp [again, pieces_of_ne_nil hn hs, hrest, pieces_nil, hp]
        simp [getsUntilEof, hp, hrest, pieces_nil, hcstr, hagain]
      · simp only [Bool.false_eq_true, if_false, Option.getD_some, hp, decide_false, Bool.or_false]
        rw [ih (by omega), again_of_finished hn hs hp hcstr, hcstr]
        rfl

theorem untilEofGets_eq (hn : 2 ≤ n) {fuel : ℕ} (hfuel : s.length + 1 < fuel) (buf : Block n) :
    untilEofGets fuel ⟨s, false⟩ buf = some (cstr buf.mem 0 :: (finished n s).map shown) := by
  induction s using pieces_induction hn generalizing fuel buf with
  | nil =>
    match fuel, hfuel with
    | fuel + 2, _ => simp [untilEofGets, gets_nil hn, finished, pieces_nil]
  | cons s hs ih =>
    match fuel, hfuel with
    | fuel + 2, hfuel =>
      obtain ⟨b, hb, hcstr⟩ := gets_of_ne_nil hn hs false buf
      have hlt := length_drop_firstLine_lt hs hn
      rw [untilEofGets, hb, finished, pieces_of_ne_nil hn hs]
      by_cases hp : Unfinished n (firstLine n s)
      · have hrest := drop_of_unfinished hp
        simp [untilEofGets, hp, hrest, pieces_nil]
      · simp only [Bool.false_eq_true, if_false, Option.getD_some, hp, decide_false, Bool.or_false]
        rw [ih (by omega), hcstr]
        simp [hp, finished]

/-- `fgets(buf, n, f); while (!feof(f)) { body; fgets(buf, n, f); }` -/
def getsAhead (fuel : ℕ) (f : InFile) (buf : Block n) : Option (List (List UInt8)) :=
  let (line, f) := f.gets buf
  untilEofGets fuel f (line.getD buf)

/-- A last piece that is unfinished never gets to the body. -/
theorem getsAhead_eq (hn : 2 ≤ n) {fuel : ℕ} (hfuel : s.length + 1 < fuel) (buf : Block n) :
    getsAhead fuel (fopen s) buf = some ((finished n s).map shown) := by
  match fuel, hfuel with
  | fuel + 2, hfuel =>
    by_cases hs : s = []
    · subst hs
      simp [getsAhead, fopen, gets_nil hn, untilEofGets, finished, pieces_nil]
    · obtain ⟨b, hb, hcstr⟩ := gets_of_ne_nil hn hs false buf
      have hlt := length_drop_firstLine_lt hs hn
      rw [getsAhead, fopen, hb, finished, pieces_of_ne_nil hn hs]
      by_cases hp : Unfinished n (firstLine n s)
      · have hrest := drop_of_unfinished hp
        simp [untilEofGets, hp, hrest, pieces_nil]
      · simp only [Option.getD_some, hp, decide_false, Bool.or_false]
        rw [untilEofGets_eq hn (by omega), hcstr]
        simp [hp, finished]

end InFile

/-! ### What is lost on the way -/

theorem shown_eq_self (h : 0 ∉ s) : shown s = s :=
  List.takeWhile_eq_self_iff.mpr fun _ hb => decide_eq_true (ne_of_mem_of_not_mem hb h)

theorem length_shown_le (s : List UInt8) : (shown s).length ≤ s.length := (List.takeWhile_prefix _).length_le

theorem zero_notMem_shown (s : List UInt8) : 0 ∉ shown s := fun h => by
  simpa using List.mem_takeWhile_imp h

theorem zero_notMem_flatten_shown (l : List (List UInt8)) : 0 ∉ (l.map shown).flatten := by
  simp only [List.mem_flatten, List.mem_map]
  rintro ⟨_, ⟨piece, -, rfl⟩, h⟩
  exact zero_notMem_shown piece h

theorem map_shown_eq_self {l : List (List UInt8)} (h : 0 ∉ l.flatten) : l.map shown = l := by
  conv_rhs => rw [← List.map_id l]
  exact List.map_congr_left fun piece hp =>
    shown_eq_self fun h0 => h (List.mem_flatten.mpr ⟨piece, hp, h0⟩)

theorem flatten_shown_pieces_iff (hn : 2 ≤ n) (s : List UInt8) :
    ((pieces n s).map shown).flatten = s ↔ 0 ∉ s := by
  constructor
  · intro h
    rw [← h]
    exact zero_notMem_flatten_shown _
  · intro h
    rw [map_shown_eq_self (by rwa [flatten_pieces hn]), flatten_pieces hn]

theorem finished_append_last (hn : 2 ≤ n) (s : List UInt8) :
    finished n s = pieces n s ∨ ∃ piece, Unfinished n piece ∧ pieces n s = finished n s ++ [piece] := by
  rcases List.eq_nil_or_concat (pieces n s) with hnil | ⟨l, piece, hl⟩
  · exact .inl (by rw [finished, hnil]; rfl)
  · have hall := finished_of_mem_dropLast hn s
    rw [List.concat_eq_append] at hl
    rw [hl, List.dropLast_concat] at hall
    have hfilter : l.filter (fun p => ¬ Unfinished n p) = l :=
      List.filter_eq_self.mpr fun p hp => decide_eq_true (hall p hp)
    by_cases hp : Unfinished n piece
    · refine .inr ⟨piece, hp, ?_⟩
      rw [finished, hl, List.filter_append, hfilter]
      simp [hp]
    · refine .inl ?_
      rw [finished, hl, List.filter_append, hfilter]
      simp [hp]

theorem not_unfinished_of_newline (hn : 2 ≤ n) (l : List UInt8) :
    ∀ piece ∈ pieces n (l ++ [0x0a]), ¬ Unfinished n piece := by
  rcases finished_append_last hn (l ++ [0x0a]) with hall | ⟨last, hlast, hpieces⟩
  · intro piece hp
    rw [← hall, finished, List.mem_filter] at hp
    exact of_decide_eq_true hp.2
  · have hflat := flatten_pieces hn (l ++ [0x0a])
    have hne : last ≠ [] := (mem_pieces hn (l ++ [0x0a]) last (by rw [hpieces]; simp)).1
    obtain ⟨init, b, rfl⟩ := (List.eq_nil_or_concat last).resolve_left hne
    rw [hpieces, List.flatten_append, List.flatten_singleton, List.concat_eq_append,
      ← List.append_assoc] at hflat
    have hb : b = 0x0a := (List.append_singleton_inj.mp hflat).2
    exact absurd (by simp [hb]) hlast.2

theorem flatten_finished_iff (hn : 2 ≤ n) (s : List UInt8) :
    (finished n s).flatten = s ↔ ∀ piece ∈ pieces n s, ¬ Unfinished n piece := by
  constructor
  · intro h
    rcases finished_append_last hn s with hall | ⟨last, -, hpieces⟩
    · intro piece hp
      rw [← hall, finished, List.mem_filter] at hp
      exact of_decide_eq_true hp.2
    · have hflat := flatten_pieces hn s
      have hne : last ≠ [] := (mem_pieces hn s last (by rw [hpieces]; simp)).1
      rw [hpieces, List.flatten_append, h, List.flatten_singleton] at hflat
      exact absurd (List.append_right_eq_self.mp hflat) hne
  · intro h
    rw [finished, List.filter_eq_self.mpr fun p hp => decide_eq_true (h p hp), flatten_pieces hn]

theorem finished_append (hn : 2 ≤ n) {s : List UInt8} (h : ∀ piece ∈ pieces n s, ¬ Unfinished n piece)
    (t : List UInt8) : finished n (s ++ t) = pieces n s ++ finished n t := by
  rw [finished, pieces_append hn s h, List.filter_append,
    List.filter_eq_self.mpr fun p hp => decide_eq_true (h p hp)]
  rfl

theorem flatten_shown_finished_iff (hn : 2 ≤ n) (l t : List UInt8) (hl : 0 ∉ l) :
    ((finished n (l ++ [0x0a] ++ ((pieces n t).map shown).flatten)).map shown).flatten = l ++ [0x0a] ++ t ↔
      0 ∉ t ∧ ∀ piece ∈ pieces n t, ¬ Unfinished n piece := by
  have h0 : 0 ∉ l ++ [0x0a] := by simp [hl]
  rw [finished_append hn (not_unfinished_of_newline hn l), List.map_append, List.flatten_append,
    map_shown_eq_self (by rwa [flatten_pieces hn]), flatten_pieces hn, List.append_cancel_left_eq]
  by_cases ht : 0 ∈ t
  · refine iff_of_false (fun h => ?_) fun h => h.1 ht
    rw [← h] at ht
    exact zero_notMem_flatten_shown _ ht
  · have hflat : ((pieces n t).map shown).flatten = t := (flatten_shown_pieces_iff hn t).mpr ht
    have hfin : 0 ∉ (finished n t).flatten := by
      intro h
      obtain ⟨piece, hp, hmem⟩ := List.mem_flatten.mp h
      rw [← flatten_pieces hn t] at ht
      exact ht (List.mem_flatten.mpr ⟨piece, (List.mem_filter.mp hp).1, hmem⟩)
    rw [hflat, map_shown_eq_self hfin, flatten_finished_iff hn, and_iff_right ht]

end
end NetDemo.Foundation
