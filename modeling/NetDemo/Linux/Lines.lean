import NetDemo.Linux.Chunks

/-! How the parser goes over the lines of a text. -/

namespace NetDemo.Linux
open Foundation Http

/-- Whether a line ends the header: it begins with a NUL in the buffer. -/
def Ends (line : Bytes) : Prop := line.takeWhile (· ≠ 0) = []

instance : DecidablePred Ends := fun line => inferInstanceAs (Decidable (line.takeWhile _ = []))

/-- Whether `parse_requestline` accepts a line. -/
def accepts (line : Bytes) : Bool := (requestLine (line.takeWhile (· ≠ 0))).1

namespace Parser
variable {p q : Parser} {l d rest : Bytes} {b : UInt8}

/-- The bytes that were read, but not yet checked. -/
def ahead (p : Parser) : Bytes := (p.buffer.take p.readIndex).drop p.checkedIndex

/-- The byte in front of `checkedIndex` is no CR. -/
def Apart (p : Parser) : Prop := ∀ i, p.checkedIndex = i + 1 → p.buffer[i]? ≠ some 0x0d

theorem Apart.not_behindCr (h : Apart p) : ¬ BehindCr p := fun hlf => by
  obtain ⟨i, hi⟩ := Nat.exists_eq_add_of_lt hlf.2.1
  exact h (1 + i) hi (by rw [← hlf.2.2, hi]; rfl)

theorem ahead_cons (h : p.ahead = b :: rest) : p.checkedIndex < p.readIndex ∧
    p.buffer[p.checkedIndex]? = some b ∧ { p with checkedIndex := p.checkedIndex + 1 }.ahead = rest := by
  have hb := congrArg List.head? h
  have ht := congrArg List.tail h
  rw [ahead, List.head?_drop, List.getElem?_take] at hb
  rw [ahead, List.tail_drop] at ht
  split_ifs at hb with hlt
  · exact ⟨hlt, hb, ht⟩
  · cases hb

theorem length_ahead (hp : Sane p) : p.checkedIndex + p.ahead.length = p.readIndex := by
  obtain ⟨-, hchecked, hread⟩ := hp
  rw [ahead, List.length_drop, List.length_take]
  omega

theorem drop_buffer (hp : Sane p) :
    p.buffer.drop p.checkedIndex = p.ahead ++ p.buffer.drop p.readIndex := by
  obtain ⟨-, hchecked, hread⟩ := hp
  have happ : (p.buffer.take p.readIndex ++ p.buffer.drop p.readIndex).drop p.checkedIndex =
      (p.buffer.take p.readIndex).drop p.checkedIndex ++ p.buffer.drop p.readIndex :=
    List.drop_append_of_le_length (by rw [List.length_take]; omega)
  rwa [List.take_append_drop] at happ

theorem parseLine_pass (hl : 0x0d ∉ l) (hbehind : Apart p) (h : p.ahead = l ++ rest) :
    p.parseLine = { p with checkedIndex := p.checkedIndex + l.length }.parseLine ∧
      { p with checkedIndex := p.checkedIndex + l.length }.ahead = rest := by
  induction l generalizing p with
  | nil => exact ⟨rfl, h⟩
  | cons a l ih =>
    obtain ⟨hlt, ha, hnext⟩ := ahead_cons h
    have hcr : p.buffer[p.checkedIndex]? ≠ some 0x0d := by
      rw [ha]
      exact fun heq => hl (Option.some.inj heq ▸ List.mem_cons_self)
    have hrec := @ih { p with checkedIndex := p.checkedIndex + 1 }
      (fun hmem => hl (List.mem_cons_of_mem _ hmem)) (fun i hi => by
        obtain rfl : p.checkedIndex = i := Nat.succ.inj hi
        exact hcr) hnext
    rw [parseLine_skip hlt hcr hbehind.not_behindCr, List.length_cons, Nat.add_comm l.length, ← Nat.add_assoc]
    exact hrec

theorem parseLine_line (hl : 0x0d ∉ l) (hbehind : Apart p) (h : p.ahead = l ++ crlf ++ rest) :
    p.parseLine = (.lineOk, p.endLine (p.checkedIndex + l.length)) := by
  rw [List.append_assoc] at h
  obtain ⟨hline, hahead⟩ := parseLine_pass hl hbehind h
  obtain ⟨-, hcr, hnext⟩ := ahead_cons hahead
  obtain ⟨hlt, hlf, -⟩ := ahead_cons hnext
  rw [hline, parseLine_crlf hlt hcr hlf]
  rfl

theorem parseContent_stray (hl : 0x0d ∉ l) (hbehind : Apart p) (hb : b ≠ 0x0a)
    (h : p.ahead = l ++ 0x0d :: b :: rest) : p.parseContent.1 = .badRequest := by
  obtain ⟨hline, hahead⟩ := parseLine_pass hl hbehind h
  obtain ⟨-, hcr, hnext⟩ := ahead_cons hahead
  obtain ⟨hlt, hbyte, -⟩ := ahead_cons hnext
  have hlf : p.buffer[p.checkedIndex + l.length + 1]? ≠ some 0x0a := by
    rw [hbyte]
    exact fun heq => hb (Option.some.inj heq)
  rw [parseContent_bad (hline.trans (parseLine_bad hlt hcr hlf))]

theorem parseContent_waits (hp : Sane p) (hl : 0x0d ∉ l) (hbehind : Apart p)
    (h : p.ahead = l ∨ p.ahead = l ++ [0x0d]) : p.parseContent.1 = .noRequest := by
  obtain ⟨tail, htail, hahead⟩ : ∃ tail, (tail = [] ∨ tail = [0x0d]) ∧ p.ahead = l ++ tail := by
    rcases h with h | h
    · exact ⟨[], .inl rfl, by rw [h, List.append_nil]⟩
    · exact ⟨[0x0d], .inr rfl, h⟩
  obtain ⟨hline, hrest⟩ := parseLine_pass hl hbehind hahead
  have hlen := length_ahead hp
  rw [hahead, List.length_append] at hlen
  suffices hopen : p.parseLine = (.lineOpen, { p with checkedIndex := p.checkedIndex + l.length }) by
    rw [parseContent_open hopen]
  rw [hline, parseLine]
  rcases htail with rfl | rfl
  · exact if_neg (by simp only [List.length_nil] at hlen ⊢; omega)
  · obtain ⟨hlt, hcr, -⟩ := ahead_cons hrest
    rw [if_pos hlt, if_pos hcr]
    exact if_pos hlen

/-! ### A complete line -/

theorem ahead_endLine (i : ℕ) : (p.endLine i).ahead = { p with checkedIndex := i + 2 }.ahead := by
  simp only [ahead, endLine, List.take_set]
  rw [List.drop_set_of_lt (by omega), List.drop_set_of_lt (by omega)]

theorem drop_endLine (hp : Sane p) (h : p.ahead = l ++ crlf ++ rest) :
    (p.endLine (p.checkedIndex + l.length)).buffer.drop p.checkedIndex =
      l ++ 0 :: 0 :: (rest ++ p.buffer.drop p.readIndex) := by
  have hdrop := drop_buffer hp
  rw [h, List.append_assoc, List.append_assoc] at hdrop
  simp only [endLine]
  rw [List.drop_set, if_neg (by omega), List.drop_set, if_neg (by omega), hdrop,
    show p.checkedIndex + l.length - p.checkedIndex = l.length by omega,
    show p.checkedIndex + l.length + 1 - p.checkedIndex = l.length + 1 by omega, List.set_append_right _ _ le_rfl,
    List.set_append_right _ _ (Nat.le_succ _)]
  simp

theorem cstr_endLine (hp : Sane p) (h : p.ahead = l ++ crlf ++ rest) :
    cstr (p.endLine (p.checkedIndex + l.length)).buffer p.checkedIndex = l.takeWhile (· ≠ 0) :=
  cstr_of_drop (drop_endLine hp h)

theorem take_drop_putNuls (buffer : Bytes) (temp : ℕ) {nuls : List ℕ} {n i : ℕ} (h : ∀ k ∈ nuls, temp + k < i) :
    ((putNuls buffer temp nuls).take n).drop i = (buffer.take n).drop i := by
  induction nuls generalizing buffer with
  | nil => rfl
  | cons k nuls ih =>
    refine (ih (buffer.set (temp + k) 0) fun j hj => h j (List.mem_cons_of_mem _ hj)).trans ?_
    rw [List.take_set, List.drop_set_of_lt (h k List.mem_cons_self)]

theorem getElem?_putNuls {buffer : Bytes} {temp : ℕ} {nuls : List ℕ} {i : ℕ} (hb : b ≠ 0)
    (h : (putNuls buffer temp nuls)[i]? = some b) : buffer[i]? = some b := by
  induction nuls generalizing buffer with
  | nil => exact h
  | cons k nuls ih =>
    have hset : (buffer.set (temp + k) 0)[i]? = some b := ih h
    rw [List.getElem?_set] at hset
    split_ifs at hset with heq hlt
    · exact absurd (Option.some.inj hset).symm hb
    · exact hset

theorem parseText_buffer (q : Parser) : ∃ nuls, q.parseText.2.buffer = putNuls q.buffer q.startLine nuls ∧
    ∀ k ∈ nuls, k < (cstr q.buffer q.startLine).length := by
  unfold parseText
  cases q.checkstate with
  | requestline =>
    refine ⟨(requestLine (cstr q.buffer q.startLine)).2, ?_, fun k hk => requestLine_nuls k hk⟩
    simp only [parseRequestline_eq]
  | header => exact ⟨[], rfl, nofun⟩

/-- The parser is at the beginning of a line, with the text `d` ahead of it. -/
structure Fresh (p : Parser) (d : Bytes) : Prop where
  sane : Sane p
  start : p.startLine = p.checkedIndex
  apart : Apart p
  ahead : p.ahead = d

theorem Fresh.receive (hlen : d.length ≤ BUFFER_SIZE) : Fresh (new.receive d) d where
  sane := Sane.new.receive (by
    rw [show new.buffer.length = BUFFER_SIZE from List.length_replicate]
    exact (Nat.zero_add _).trans_le hlen)
  start := rfl
  apart _ hi := nomatch hi
  ahead := by
    show (([] ++ d ++ _ : Bytes).take (0 + d.length)).drop 0 = d
    simp

theorem Fresh.line (h : Fresh p (l ++ crlf ++ rest)) (hl : 0x0d ∉ l) : ∃ q, p.parseLine = (.lineOk, q) ∧
    Fresh q.parseText.2 rest ∧ q.parseText.2.readIndex = p.readIndex ∧
    (p.checkstate = .header → q.parseText.1 = (if Ends l then .getRequest else .noRequest) ∧
      q.parseText.2.checkstate = .header) ∧
    (p.checkstate = .requestline → q.parseText.1 =
        (if accepts l then .noRequest else .badRequest) ∧
      (accepts l → q.parseText.2.checkstate = .header)) := by
  have hline := parseLine_line hl h.apart h.ahead
  have hcstr := cstr_endLine h.sane h.ahead
  have hdrop := drop_endLine h.sane h.ahead
  generalize hq : p.endLine (p.checkedIndex + l.length) = q at hline hcstr hdrop
  obtain ⟨hsane, hread, -, hstart, hstate, hnul⟩ := parseLine_spec h.sane hline
  have hnul := hnul rfl
  obtain ⟨hstart', hchecked', hread', -⟩ := parseText_spec q
  rw [hstart, h.start] at hnul
  have hchecked : q.checkedIndex = p.checkedIndex + l.length + 2 := by rw [← hq]; rfl
  obtain ⟨nuls, hnuls, hlt⟩ := parseText_buffer q
  rw [hstart, h.start, hcstr] at hlt
  have hprefix := (List.takeWhile_prefix (l := l) (· ≠ 0)).length_le
  refine ⟨q, hline, ⟨hsane.parseText, by rw [hstart', hchecked'], fun i hi => ?_, ?_⟩, hread'.trans hread,
    fun hhead => ?_, fun hrequest => ?_⟩
  · -- the last byte of the line was its LF
    have hzero : q.buffer[i]? = some 0 := by
      have hget := congrArg (·[l.length + 1]?) hdrop
      rw [List.getElem?_drop, List.getElem?_append_right (Nat.le_succ _)] at hget
      rw [hchecked', hchecked] at hi
      rw [show i = p.checkedIndex + (l.length + 1) by omega, hget]
      simp
    rw [hnuls]
    intro hcr
    rw [getElem?_putNuls (by decide) hcr] at hzero
    cases hzero
  · -- The NULs that `parse_requestline` writes are in front of `checkedIndex`.
    have hrest : p.ahead.drop (l.length + 2) = rest := by
      rw [h.ahead]
      exact List.drop_left' List.length_append
    rw [Parser.ahead, List.drop_drop, ← Nat.add_assoc] at hrest
    rw [Parser.ahead, hnuls, hread', hchecked', take_drop_putNuls _ _ fun k hk => ?_]
    · rw [← hq]
      exact (ahead_endLine _).trans hrest
    · have := hlt k hk
      rw [hstart, h.start]
      omega
  · unfold parseText
    rw [hstate, hhead, hstart, h.start]
    have hends : q.buffer[p.checkedIndex]? = some 0 ↔ Ends l := by
      rw [hnul.getElem?_eq_zero, hcstr, Ends]
    simp only [parseHeaders, hends, true_and]
  · unfold parseText
    rw [hstate, hrequest, hstart, h.start]
    simp only [parseRequestline_eq, hcstr, accepts]
    exact ⟨rfl, fun hok => if_pos hok⟩

end Parser
end NetDemo.Linux
