import NetDemo.Http.Scanning

/-! Which bytes of the header block the keys in `m_headers` are cut from. -/

namespace NetDemo.Http.Pointers
open Foundation

variable {d l block : Bytes} {s : Slice} {w : ℕ}

/-- The key, with its colon, is the whole first word of a line. A line ends with a CR or a LF. -/
def IsFirstWord (block : Bytes) (key : Slice) : Prop :=
  ∃ before blanks word after, block = before ++ blanks ++ word ++ after ∧
    (∀ b ∈ before.getLast?, isEol b) ∧ (∀ b ∈ blanks, isspace b ∧ isEol b = false) ∧
    word ≠ [] ∧ (∀ b ∈ word, isspace b = false) ∧ (∀ b ∈ after.head?, isspace b) ∧
    key = ⟨(before ++ blanks).length, (before ++ blanks ++ word).length⟩

/-- The byte at `p` is one of the first word of a line, which is where a header name stands. -/
def InName (block : Bytes) (p : ℤ) : Prop :=
  ∃ name, IsFirstWord block name ∧ name.m_pb ≤ p ∧ p < name.m_pe

/-- Keys are whole first words, and nothing of a first word is thrown away. -/
structure CutAtLines (block : Bytes) (t : Trace) : Prop where
  stored : ∀ r ∈ t.stored, IsFirstWord block r.key
  skipped : ∀ eol ∈ t.skipped, ∀ p, eol.m_pb ≤ p → p < eol.m_pe → ¬ InName block p

/-- In every round of the header loop, also in one whose key is known or whose line is refused, the
second of the two bytes that are skipped is white space, or there is none. -/
def SkipsBlanks : ℕ → Bytes → Prop
  | 0, _ => True
  | fuel + 1, header => header ≠ [] → (∀ b ∈ header[1]?, isspace b) ∧
    ∀ kv, headerLine (firstLine (header.drop 2)) = some kv →
      SkipsBlanks fuel (Http.Slice.eatLine (header.drop 2)).2

theorem SkipsBlanks.nil (fuel : ℕ) : SkipsBlanks fuel [] := by
  cases fuel with
  | zero => trivial
  | succ fuel => exact fun hno => absurd rfl hno

theorem SkipsBlanks.cons {fuel : ℕ} {a b : UInt8} {header : Bytes} (hb : isspace b)
    (h : SkipsBlanks fuel (Http.Slice.eatLine header).2) : SkipsBlanks (fuel + 1) (a :: b :: header) :=
  fun _ => ⟨fun _ hmem => Option.some.inj hmem ▸ hb, fun _ _ => h⟩

/-! ### One key -/

theorem isspace_of_isEol {b : UInt8} (h : isEol b) : isspace b := by
  by_contra hno
  have := isEol_of_not_isspace (Bool.eq_false_iff.mpr hno)
  simp [this] at h

theorem firstLine_split (rest : Bytes) :
    rest = (firstLine rest).takeWhile isspace ++ ((Http.Slice.eatWord (firstLine rest)).1 ++
      ((Http.Slice.eatWord (firstLine rest)).2 ++ (Http.Slice.eatLine rest).2)) ∧
      (∀ b ∈ (firstLine rest).takeWhile isspace, isspace b ∧ isEol b = false) ∧
      (∀ b ∈ (Http.Slice.eatWord (firstLine rest)).1, isspace b = false) ∧
      ∀ b ∈ ((Http.Slice.eatWord (firstLine rest)).2 ++ (Http.Slice.eatLine rest).2).head?, isspace b := by
  have hline : (firstLine rest).takeWhile isspace ++
      ((Http.Slice.eatWord (firstLine rest)).1 ++ (Http.Slice.eatWord (firstLine rest)).2) = firstLine rest := by
    simp only [Http.Slice.eatWord, List.takeWhile_append_dropWhile]
  have hrest : firstLine rest ++ (Http.Slice.eatLine rest).2 = rest := List.takeWhile_append_dropWhile
  refine ⟨?_, fun b hb => ⟨List.mem_takeWhile_imp hb, ?_⟩, fun b hb => ?_, fun b hb => ?_⟩
  · conv_lhs => rw [← hrest, ← hline]
    simp only [List.append_assoc]
  · have hmem : b ∈ firstLine rest := (List.takeWhile_sublist _).mem hb
    simpa using List.mem_takeWhile_imp hmem
  · simpa using List.mem_takeWhile_imp hb
  · cases hl : (Http.Slice.eatWord (firstLine rest)).2 with
    | nil =>
      rw [hl, List.nil_append] at hb
      have hstop : (!isEol b) = false := head?_dropWhile (p := fun c => !isEol c) hb
      exact isspace_of_isEol (by simpa using hstop)
    | cons a t =>
      rw [hl] at hb
      exact head_eatWord (firstLine rest) b (by rw [hl]; exact hb)

theorem isspace_of_isFirstWord {pre rest : Bytes} {eol x : UInt8} (hblock : block = pre ++ eol :: x :: rest)
    (h : IsFirstWord block ⟨(pre.length + 2 + ((firstLine rest).takeWhile isspace).length : ℕ),
      (pre.length + 2 + ((firstLine rest).takeWhile isspace).length +
        (Http.Slice.eatWord (firstLine rest)).1.length : ℕ)⟩) : isspace x := by
  obtain ⟨hsplit, hblanks, -, -⟩ := firstLine_split rest
  obtain ⟨before, blanks, word, after, hb, hbefore, hbl, -, -, -, hkey⟩ := h
  have hlen : pre.length + 2 + ((firstLine rest).takeWhile isspace).length =
      before.length + blanks.length := by
    have hpb := congrArg Slice.m_pb hkey
    simp only [List.length_append] at hpb
    exact_mod_cast hpb
  have hx : block[pre.length + 1]? = some x := by
    rw [hblock, List.getElem?_append_right (by omega)]
    simp
  rcases Nat.lt_trichotomy before.length (pre.length + 2) with hlt | heq | hgt
  · -- The byte is one of the blanks at the begin of the line.
    rw [hb, List.append_assoc, List.append_assoc, List.getElem?_append_right (by omega),
      List.getElem?_append_left (by omega)] at hx
    exact (hbl x (List.mem_of_getElem? hx)).1
  · -- The byte ends the line before.
    rw [hb, List.append_assoc, List.append_assoc, List.getElem?_append_left (by omega)] at hx
    refine isspace_of_isEol (hbefore x ?_)
    rw [List.getLast?_eq_getElem?, heq]
    exact hx
  · -- The line would begin between blanks of the line that was cut.
    obtain ⟨k, hk⟩ : ∃ k, before.length = pre.length + 2 + (k + 1) := ⟨before.length - pre.length - 3, by omega⟩
    have hkx : k < ((firstLine rest).takeWhile isspace).length := by omega
    have hget : block[before.length - 1]? = ((firstLine rest).takeWhile isspace)[k]? := by
      have hidx : before.length - 1 = pre.length + (k + 2) := by omega
      rw [hblock, hidx, List.getElem?_append_right (by omega), Nat.add_sub_cancel_left,
        List.getElem?_cons_succ, List.getElem?_cons_succ]
      conv_lhs => rw [hsplit]
      rw [List.getElem?_append_left hkx]
    have hlast : block[before.length - 1]? = before.getLast? := by
      rw [hb, List.append_assoc, List.append_assoc, List.getElem?_append_left (by omega),
        List.getLast?_eq_getElem?]
    rw [hlast, List.getElem?_eq_getElem hkx] at hget
    have heol' := hbefore _ hget
    have hno := (hblanks _ (List.getElem_mem hkx)).2
    simp [hno] at heol'

theorem isFirstWord_of_isspace {pre rest : Bytes} {eol x : UInt8} (heol : isEol eol)
    (hword : (Http.Slice.eatWord (firstLine rest)).1 ≠ []) (hblock : block = pre ++ eol :: x :: rest)
    (hx : isspace x) :
    IsFirstWord block ⟨(pre.length + 2 + ((firstLine rest).takeWhile isspace).length : ℕ),
      (pre.length + 2 + ((firstLine rest).takeWhile isspace).length +
        (Http.Slice.eatWord (firstLine rest)).1.length : ℕ)⟩ := by
  obtain ⟨hsplit, hblanks, hns, hafter⟩ := firstLine_split rest
  have hcut : block = pre ++ eol :: x :: ((firstLine rest).takeWhile isspace ++
      ((Http.Slice.eatWord (firstLine rest)).1 ++
        ((Http.Slice.eatWord (firstLine rest)).2 ++ (Http.Slice.eatLine rest).2))) := by rw [hblock, ← hsplit]
  by_cases hxe : isEol x
  · refine ⟨pre ++ [eol, x], (firstLine rest).takeWhile isspace, (Http.Slice.eatWord (firstLine rest)).1, _,
      by rw [hcut]; simp, ?_, hblanks, hword, hns, hafter, ?_⟩
    · intro b hb
      obtain rfl : x = b := by simpa using hb
      exact hxe
    · simp only [List.length_append, List.length_cons, List.length_nil]
  · refine ⟨pre ++ [eol], x :: (firstLine rest).takeWhile isspace, (Http.Slice.eatWord (firstLine rest)).1, _,
      by rw [hcut]; simp, ?_, ?_, hword, hns, hafter, ?_⟩
    · intro b hb
      obtain rfl : eol = b := by simpa using hb
      exact heol
    · intro b hb
      rcases List.mem_cons.mp hb with rfl | hb
      · exact ⟨hx, Bool.eq_false_iff.mpr hxe⟩
      · exact hblanks b hb
    · simp only [List.length_append, List.length_cons, List.length_nil, Slice.mk.injEq]
      omega

/-! ### The skipped bytes -/

theorem InName.byte {p : ℤ} (h : InName block p) : ∃ b, block[p.toNat]? = some b ∧ isspace b = false := by
  obtain ⟨name, ⟨before, blanks, word, after, hb, -, -, -, hns, -, rfl⟩, hpb, hpe⟩ := h
  simp only [List.length_append, Nat.cast_add] at hpb hpe
  obtain ⟨k, rfl⟩ : ∃ k : ℕ, p = ((before ++ blanks).length + k : ℕ) :=
    ⟨(p - (before ++ blanks).length).toNat, by simp only [List.length_append]; omega⟩
  simp only [List.length_append, Nat.cast_add] at hpe
  have hk : k < word.length := by omega
  refine ⟨word[k], ?_, hns _ (List.getElem_mem hk)⟩
  rw [Int.toNat_natCast, hb, List.append_assoc, List.getElem?_append_right (Nat.le_add_right ..),
    Nat.add_sub_cancel_left, List.getElem?_append_left hk, List.getElem?_eq_getElem hk]

theorem inName_of_not_isspace {pre rest : Bytes} {eol x : UInt8} (heol : isEol eol)
    (hblock : block = pre ++ eol :: x :: rest) (hx : isspace x = false) : InName block (pre.length + 1) := by
  have hword : (x :: rest).takeWhile (fun b => !isspace b) = x :: rest.takeWhile (fun b => !isspace b) :=
    List.takeWhile_cons_of_pos (by simpa using hx)
  have hsplit : (x :: rest).takeWhile (fun b => !isspace b) ++ (x :: rest).dropWhile (fun b => !isspace b) =
      x :: rest := List.takeWhile_append_dropWhile
  refine ⟨_, ⟨pre ++ [eol], [], (x :: rest).takeWhile (fun b => !isspace b),
    (x :: rest).dropWhile (fun b => !isspace b), ?_, ?_, by simp, ?_,
    fun b hb => ?_, fun b hb => ?_, rfl⟩, ?_, ?_⟩
  · rw [List.append_nil, List.append_assoc, hsplit, hblock]
    simp
  · intro b hb
    obtain rfl : eol = b := by simpa using hb
    exact heol
  · rw [hword]
    exact List.cons_ne_nil _ _
  · simpa using List.mem_takeWhile_imp (p := fun b => !isspace b) hb
  · simpa using head?_dropWhile (p := fun b => !isspace b) hb
  · simp
  · simp only [hword, List.append_nil, List.length_append, List.length_cons, List.length_nil]
    omega

/-- What `eat(2)` throws away holds nothing of a name just when its second byte is white space. -/
theorem skipped_iff {pre : Bytes} (hpb : s.m_pb = pre.length) (hne : l ≠ []) (heol : ∀ b ∈ l.head?, isEol b) :
    (∀ p, (s.round l).eol.m_pb ≤ p → p < (s.round l).eol.m_pe → ¬ InName (pre ++ l) p) ↔
      ∀ b ∈ l[1]?, isspace b := by
  obtain ⟨eol, t, rfl⟩ := List.exists_cons_of_ne_nil hne
  have hend : isEol eol := heol eol rfl
  simp only [Slice.round, hpb, List.getElem?_cons_succ]
  constructor
  · intro h b hb
    cases t with
    | nil => exact absurd hb (by simp)
    | cons x rest =>
      obtain rfl : x = b := by simpa using hb
      by_contra hx
      refine h (pre.length + 1) (by omega) ?_ (inName_of_not_isspace hend rfl (Bool.eq_false_iff.mpr hx))
      simp only [List.length_cons]
      omega
  · intro h p hpb hpe hname
    obtain ⟨b, hb, hns⟩ := hname.byte
    obtain ⟨k, rfl⟩ : ∃ k : ℕ, p = (pre.length + k : ℕ) := ⟨(p - pre.length).toNat, by omega⟩
    have hk : k < 2 := by omega
    rw [Int.toNat_natCast, List.getElem?_append_right (Nat.le_add_right ..), Nat.add_sub_cancel_left] at hb
    -- The first skipped byte is the line end, the second one is `t[0]?`.
    obtain rfl | rfl : k = 0 ∨ k = 1 := by omega
    · obtain rfl : eol = b := by simpa using hb
      simp [isspace_of_isEol hend] at hns
    · simp [h b (by simpa using hb)] at hns

/-! ### All rounds -/

theorem round_key_eq {pre rest : Bytes} {eol x : UInt8} (hpb : s.m_pb = pre.length) :
    (s.round (eol :: x :: rest)).key =
      ⟨(pre.length + 2 + ((firstLine rest).takeWhile isspace).length : ℕ),
        (pre.length + 2 + ((firstLine rest).takeWhile isspace).length +
          (Http.Slice.eatWord (firstLine rest)).1.length : ℕ)⟩ := by
  have hmin : min 2 (eol :: x :: rest).length = 2 := by simp
  simp only [Slice.round, Slice.word, Slice.line, hmin, hpb, List.drop_succ_cons, List.drop_zero]
  rfl

theorem exists_cons_cons_of_key {kv : Bytes × Bytes} (h : headerLine (firstLine (l.drop 2)) = some kv) :
    ∃ eol x rest, l = eol :: x :: rest := by
  have hkey := key_ne_of_headerLine h
  cases l with
  | nil => exact absurd rfl hkey
  | cons eol l =>
    cases l with
    | nil => exact absurd rfl hkey
    | cons x rest => exact ⟨eol, x, rest, rfl⟩

theorem headerLoop_cases (hw : d.length < 2 ^ w) (h : s.toString d = some l) {fuel : ℕ} {c c' : HttpCodec}
    {ok : Bool} {t : Trace} (ht : headerLoop w d (fuel + 1) s c = some (ok, c', t)) :
    (l = [] ∧ c'.m_req = c.m_req ∧ t.skipped = [] ∧ t.stored = []) ∨
      (l ≠ [] ∧ headerLine (firstLine (l.drop 2)) = none ∧ c'.m_req = c.m_req ∧
        t.skipped = [(s.round l).eol] ∧ t.stored = []) ∨
      ∃ kv t₁, l ≠ [] ∧ headerLine (firstLine (l.drop 2)) = some kv ∧
        headerLoop w d fuel (s.round l).header₂ (c.withHeaders (c.m_req.m_headers.insert kv.1 kv.2)) =
          some (ok, c', t₁) ∧
        t.skipped = (s.round l).eol :: t₁.skipped ∧
        t.stored = (if (c.m_req.m_headers.lookup kv.1).isSome then []
          else [⟨(s.round l).key, (s.round l).value⟩]) ++ t₁.stored := by
  by_cases hnil : l = []
  · subst hnil
    rw [headerLoop_nil h] at ht
    obtain ⟨-, rfl, rfl⟩ : true = ok ∧ c = c' ∧ ⟨[], [], []⟩ = t := by simpa using ht
    exact .inl ⟨rfl, rfl, rfl, rfl⟩
  rw [headerLoop_succ h hw hnil] at ht
  cases hline : headerLine (firstLine (l.drop 2)) with
  | none =>
    simp only [hline, Option.elim_none, Option.some.injEq, Prod.mk.injEq] at ht
    obtain ⟨-, rfl, rfl⟩ := ht
    exact .inr (.inl ⟨hnil, rfl, rfl, rfl, rfl⟩)
  | some kv =>
    simp only [hline, Option.elim_some] at ht
    obtain ⟨⟨ok', c₁, t₁⟩, hloop, heq⟩ := Option.map_eq_some_iff.mp ht
    simp only [Prod.mk.injEq] at heq
    obtain ⟨rfl, rfl, rfl⟩ := heq
    exact .inr (.inr ⟨kv, t₁, hnil, rfl, hloop, rfl, rfl⟩)

theorem isFirstWord_round_key {pre : Bytes} (hpb : s.m_pb = pre.length) (heol : ∀ b ∈ l.head?, isEol b)
    {kv : Bytes × Bytes} (hline : headerLine (firstLine (l.drop 2)) = some kv)
    (hx : ∀ b ∈ l[1]?, isspace b) : IsFirstWord (pre ++ l) (s.round l).key := by
  obtain ⟨eol, x, rest, rfl⟩ := exists_cons_cons_of_key hline
  rw [round_key_eq hpb]
  exact isFirstWord_of_isspace (heol eol rfl) (key_ne_of_headerLine hline) rfl (hx x rfl)

theorem exists_next_round {pre : Bytes} (hpb : s.m_pb = pre.length) :
    ∃ pre' : Bytes, (s.round l).header₂.m_pb = pre'.length ∧
      pre' ++ (Http.Slice.eatLine (l.drop 2)).2 = pre ++ l := by
  refine ⟨pre ++ l.take 2 ++ firstLine (l.drop 2), ?_, ?_⟩
  · simp only [Slice.round, Slice.line, hpb, firstLine, List.length_append, List.length_take, Nat.cast_add]
  · have hrest : firstLine (l.drop 2) ++ (Http.Slice.eatLine (l.drop 2)).2 = l.drop 2 :=
      List.takeWhile_append_dropWhile
    rw [List.append_assoc, hrest, List.append_assoc, List.take_append_drop]

theorem cutAtLines_iff (hw : d.length < 2 ^ w) {fuel : ℕ} {pre : Bytes} (h : s.toString d = some l)
    (hpb : s.m_pb = pre.length) (heol : ∀ b ∈ l.head?, isEol b) (hfuel : l.length ≤ fuel)
    {c c' : HttpCodec} {ok : Bool} {t : Trace} (ht : headerLoop w d (fuel + 1) s c = some (ok, c', t)) :
    CutAtLines (pre ++ l) t ↔ SkipsBlanks fuel l := by
  induction fuel generalizing s l c t pre with
  | zero =>
    obtain rfl := List.eq_nil_of_length_eq_zero (Nat.le_zero.mp hfuel)
    rcases headerLoop_cases hw h ht with ⟨-, -, hskipped, hstored⟩ | ⟨hnil, -⟩ | ⟨kv, t₁, hnil, -⟩
    · exact ⟨fun _ => trivial, fun _ => ⟨by simp [hstored], by simp [hskipped]⟩⟩
    · exact absurd rfl hnil
    · exact absurd rfl hnil
  | succ fuel ih =>
    rcases headerLoop_cases hw h ht with ⟨rfl, -, hskipped, hstored⟩ |
        ⟨hnil, hline, -, hskipped, hstored⟩ | ⟨kv, t₁, hnil, hline, hloop, hskipped, hstored⟩
    · exact ⟨fun _ hne => absurd rfl hne, fun _ => ⟨by simp [hstored], by simp [hskipped]⟩⟩
    · have hthis := skipped_iff hpb hnil heol
      constructor
      · intro hcut _
        exact ⟨hthis.mp (hcut.skipped _ (by simp [hskipped])), by simp [hline]⟩
      · intro hblank
        exact ⟨by simp [hstored], by simpa [hskipped] using hthis.mpr (hblank hnil).1⟩
    have hthis := skipped_iff hpb hnil heol
    have hle := length_round_header hnil
    obtain ⟨pre', hpb', hpre⟩ := exists_next_round hpb
    have hnext := ih (round_header_toString h hw) hpb'
      (fun b hb => by simpa using head?_dropWhile (p := fun c => !isEol c) hb) (by omega) hloop
    rw [hpre] at hnext
    constructor
    · intro hcut _
      have hrest : CutAtLines (pre ++ l) t₁ :=
        ⟨fun r hr => hcut.stored r (by simp [hstored, hr]), fun eol he => hcut.skipped eol (by simp [hskipped, he])⟩
      exact ⟨hthis.mp (hcut.skipped _ (by simp [hskipped])), fun _ _ => hnext.mp hrest⟩
    · intro hblank
      obtain ⟨hx, hrest⟩ := hblank hnil
      have hcut := hnext.mpr (hrest kv hline)
      refine ⟨fun r hr => ?_, fun eol he => ?_⟩
      · rw [hstored, List.mem_append] at hr
        rcases hr with hr | hr
        · split_ifs at hr with hknown
          · exact absurd hr (by simp)
          · rw [List.mem_singleton.mp hr]
            exact isFirstWord_round_key hpb heol hline hx
        · exact hcut.stored r hr
      · rw [hskipped, List.mem_cons] at he
        rcases he with rfl | he
        · exact hthis.mpr hx
        · exact hcut.skipped eol he

theorem checkFields_headers (w : ℕ) (c : HttpCodec) (m_inBuf header : Bytes) :
    (checkFields w c m_inBuf header).2.m_req.m_headers =
      (HttpCodec.headerLoop header.length header c).2.m_req.m_headers := by
  rw [checkFields]
  rcases HttpCodec.headerLoop header.length header c with ⟨_ | _, c₁⟩
  · rfl
  · simp only
    have h₁ := c₁.parseStartLine_req
    generalize c₁.parseStartLine = r at h₁ ⊢
    rcases r with ⟨_ | _, c₂⟩
    · exact congrArg _ h₁
    · have h₂ := c₂.parseHeader_req
      simp only
      generalize c₂.parseHeader = r at h₂ ⊢
      rcases r with ⟨_ | _, c₃⟩
      · exact congrArg _ (h₂.trans h₁)
      · have h₃ : (c₃.finish w m_inBuf).2.m_req.m_headers = c₃.m_req.m_headers := by
          rw [HttpCodec.finish_eq]
          split_ifs <;> rfl
        exact h₃.trans (congrArg _ (h₂.trans h₁))

theorem exists_headerLoop {i : ℕ} (hw : d.length < 2 ^ w) (hi : Http.getHeader d = some i)
    (hv : HttpCodec.versionOf (d.take i) ≠ []) {c c' : HttpCodec} {ret : ℤ} {t : Trace}
    (ht : tryDecode w c d = some (ret, c', t)) :
    ∃ header ok c₁ t₁, header.toString d = some (Http.Slice.eatLine (d.take i)).2 ∧
      header.m_pb = ((firstLine (d.take i)).length : ℤ) ∧
      headerLoop w d ((Http.Slice.eatLine (d.take i)).2.length + 1) header
        ((c.scanned i).parsed (d.take i) []) = some (ok, c₁, t₁) ∧
      t.skipped = t₁.skipped ∧ t.stored = t₁.stored ∧ c'.m_req.m_headers = c₁.m_req.m_headers := by
  have h0 : 0 < i := by
    apply Nat.pos_of_ne_zero
    rintro rfl
    exact hv rfl
  have hheader := (eatLine_eq (toString_header hi)).2.2
  obtain ⟨cuts, -, heq⟩ := decodeHeader_startLine (toString_header hi) w (c.scanned i)
  obtain ⟨t₁, hloop, hfields, -⟩ := decodeFields_eq hw hheader ((c.scanned i).parsed (d.take i) [])
  rw [tryDecode_some hw hi h0, heq, if_neg hv, hfields] at ht
  simp only [Option.map_some, Option.some.injEq, Prod.mk.injEq] at ht
  obtain ⟨-, rfl, rfl⟩ := ht
  refine ⟨_, _, _, t₁, hheader, ?_, hloop, rfl, rfl, checkFields_headers ..⟩
  simp only [Slice.line, firstLine, Int.zero_add]

theorem headerLoop_stored (hw : d.length < 2 ^ w) {fuel : ℕ} (h : s.toString d = some l)
    (hfuel : l.length ≤ fuel) {c c' : HttpCodec} {ok : Bool} {t : Trace}
    (ht : headerLoop w d (fuel + 1) s c = some (ok, c', t)) :
    ∃ kvs, c'.m_req.m_headers = c.m_req.m_headers ++ kvs ∧
      List.Forall₂ (fun r kv => r.key.toString d = some (kv.1 ++ [0x3a]) ∧
        r.value.toString d = some kv.2) t.stored kvs := by
  induction fuel generalizing s l c t with
  | zero =>
    obtain rfl := List.eq_nil_of_length_eq_zero (Nat.le_zero.mp hfuel)
    rcases headerLoop_cases hw h ht with ⟨-, hreq, -, hstored⟩ | ⟨hnil, -⟩ | ⟨kv, t₁, hnil, -⟩
    · exact ⟨[], by rw [hreq, List.append_nil], hstored ▸ .nil⟩
    · exact absurd rfl hnil
    · exact absurd rfl hnil
  | succ fuel ih =>
    rcases headerLoop_cases hw h ht with ⟨-, hreq, -, hstored⟩ | ⟨-, -, hreq, -, hstored⟩ |
        ⟨kv, t₁, hnil, hline, hloop, -, hstored⟩
    · exact ⟨[], by rw [hreq, List.append_nil], hstored ▸ .nil⟩
    · exact ⟨[], by rw [hreq, List.append_nil], hstored ▸ .nil⟩
    have hle := length_round_header hnil
    obtain ⟨kvs, hheaders, hkvs⟩ := ih (round_header_toString h hw) (by omega) hloop
    have hins : (c.withHeaders (c.m_req.m_headers.insert kv.1 kv.2)).m_req.m_headers =
        c.m_req.m_headers.insert kv.1 kv.2 := rfl
    rw [hins, Headers.insert] at hheaders
    rw [hstored]
    split_ifs at hheaders ⊢ with hknown
    · exact ⟨kvs, hheaders, hkvs⟩
    · refine ⟨kv :: kvs, by rw [hheaders, List.append_assoc]; rfl, .cons ?_ hkvs⟩
      rw [headerLine_eq] at hline
      split_ifs at hline with hok
      obtain rfl := Option.some.inj hline
      refine ⟨?_, round_value_toString h hw⟩
      rw [round_key_toString h hw, List.dropLast_append_getLast?]
      exact hok.2.2

theorem tryDecode_stored {i : ℕ} (hw : d.length < 2 ^ w) (hi : Http.getHeader d = some i)
    (hv : HttpCodec.versionOf (d.take i) ≠ []) {c c' : HttpCodec} {ret : ℤ} {t : Trace}
    (ht : tryDecode w c d = some (ret, c', t)) :
    ∃ kvs, c'.m_req.m_headers = c.m_req.m_headers ++ kvs ∧
      List.Forall₂ (fun r kv => r.key.toString d = some (kv.1 ++ [0x3a]) ∧
        r.value.toString d = some kv.2) t.stored kvs := by
  obtain ⟨header, ok, c₁, t₁, hheader, -, hloop, -, hstored, hheaders⟩ := exists_headerLoop hw hi hv ht
  have hm : ((c.scanned i).parsed (d.take i) []).m_req.m_headers = c.m_req.m_headers := rfl
  have hkvs := headerLoop_stored hw hheader (le_refl _) hloop
  rw [hm] at hkvs
  rw [hstored, hheaders]
  exact hkvs

/-- Every key that a call stores is, with its colon, the first word of a line of the header block, and
no byte of a first word is thrown away, just when the second skipped byte is blank in every round. -/
theorem keys_at_line_starts_iff {w : ℕ} (hw : w = 32 ∨ w = 64) {d : Bytes} (hd : d.length < 2 ^ 32)
    {i : ℕ} (hi : Http.getHeader d = some i) (hv : HttpCodec.versionOf (d.take i) ≠ [])
    {c c' : HttpCodec} {ret : ℤ} {t : Trace} (ht : tryDecode w c d = some (ret, c', t)) :
    CutAtLines (d.take i) t ↔
      SkipsBlanks (Http.Slice.eatLine (d.take i)).2.length (Http.Slice.eatLine (d.take i)).2 := by
  have hlt : d.length < 2 ^ w := by rcases hw with rfl | rfl <;> omega
  obtain ⟨header, ok, c₁, t₁, hheader, hpb, hloop, hskipped, hstored, -⟩ := exists_headerLoop hlt hi hv ht
  have hline : firstLine (d.take i) ++ (Http.Slice.eatLine (d.take i)).2 = d.take i :=
    List.takeWhile_append_dropWhile
  have hiff := cutAtLines_iff hlt hheader hpb
    (fun b hb => by simpa using head?_dropWhile (p := fun c => !isEol c) hb) (le_refl _) hloop
  rw [hline] at hiff
  rw [← hiff]
  exact ⟨fun h => ⟨hstored ▸ h.stored, hskipped ▸ h.skipped⟩,
    fun h => ⟨hstored ▸ h.stored, hskipped ▸ h.skipped⟩⟩

def bareLf : Bytes := ascii "GET / HTTP/1.1\nXHost: a\r\n\r\n"

def pairedLf : Bytes := ascii "GET / HTTP/1.1\r\nHost: a\r\nB: c\r\n\r\n"

theorem keys_at_line_starts_pairedLf : ∃ ret c' t, tryDecode 64 .new pairedLf = some (ret, c', t) ∧
    CutAtLines (pairedLf.take 29) t := by
  obtain ⟨t, ht, -⟩ := tryDecode_eq (show pairedLf.length < 2 ^ 64 by decide) .new
  refine ⟨_, _, t, ht, ?_⟩
  apply (keys_at_line_starts_iff (.inr rfl) (by decide) rfl (by decide) ht).mpr
  have hstart : (Http.Slice.eatLine (pairedLf.take 29)).2 = 0x0d :: 0x0a :: ascii "Host: a\r\nB: c" := by decide
  have hfirst : (Http.Slice.eatLine (ascii "Host: a\r\nB: c")).2 = 0x0d :: 0x0a :: ascii "B: c" := by decide
  have hsecond : (Http.Slice.eatLine (ascii "B: c")).2 = [] := by decide
  -- The LF of the pair is what `eat(2)` takes second.
  have hlf : isspace 0x0a := by decide
  rw [hstart]
  refine .cons hlf ?_
  rw [hfirst]
  refine .cons hlf ?_
  rw [hsecond]
  exact .nil _

/-- A line that begins with `XHost` is stored as `Host`. -/
theorem keys_not_at_line_starts_bareLf : ∃ ret c' t, tryDecode 64 .new bareLf = some (ret, c', t) ∧
    c'.m_req.m_headers = [(ascii "Host", ascii "a")] ∧ ¬ CutAtLines (bareLf.take 23) t := by
  refine ⟨_, _, _, rfl, rfl, fun h => ?_⟩
  have hkey := h.stored _ List.mem_cons_self
  have hspace := @isspace_of_isFirstWord (bareLf.take 23) (ascii "GET / HTTP/1.1") (ascii "Host: a")
    0x0a 0x58 rfl hkey
  exact absurd hspace (by decide)

/-- The line `XHost: b` of this request counts as a second `Host`, which `insert` passes over. -/
example : ¬ SkipsBlanks 17 (ascii "\r\nHost: a\nXHost: b") := by
  intro h
  have hx := ((h (by decide)).2 _ rfl (by decide)).1 0x58 rfl
  exact absurd hx (by decide)

end NetDemo.Http.Pointers
