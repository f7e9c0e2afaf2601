import NetDemo.Linux.Lines

/-! The texts that the parser accepts, the ones that it refuses, and where it sees the end of a
header. -/

namespace NetDemo.Linux
open Foundation Http

/-- The lines with their ends. -/
def lines (ls : List Bytes) : Bytes := (ls.map (· ++ crlf)).flatten

theorem lines_cons (l : Bytes) (ls : List Bytes) (t : Bytes) :
    lines (l :: ls) ++ t = l ++ crlf ++ (lines ls ++ t) := by
  simp [lines]

/-- A CR that is not in front of an LF. -/
def Stray (t : Bytes) : Prop := ∃ l b rest, 0x0d ∉ l ∧ b ≠ 0x0a ∧ t = l ++ 0x0d :: b :: rest

/-- A line that is not complete yet. -/
def Waits (t : Bytes) : Prop := ∃ l, 0x0d ∉ l ∧ (t = l ∨ t = l ++ [0x0d])

theorem split_cr (t : Bytes) : (∃ l rest, 0x0d ∉ l ∧ t = l ++ crlf ++ rest) ∨ Stray t ∨ Waits t := by
  induction t with
  | nil => exact .inr (.inr ⟨[], List.not_mem_nil, .inl rfl⟩)
  | cons a t ih =>
    by_cases ha : a = 0x0d
    · subst ha
      cases t with
      | nil => exact .inr (.inr ⟨[], List.not_mem_nil, .inr rfl⟩)
      | cons b rest =>
        by_cases hb : b = 0x0a
        · exact .inl ⟨[], rest, List.not_mem_nil, by rw [hb]; rfl⟩
        · exact .inr (.inl ⟨[], b, rest, List.not_mem_nil, hb, rfl⟩)
    · have hcons {l : Bytes} (hl : 0x0d ∉ l) : 0x0d ∉ a :: l := by
        rw [List.mem_cons, not_or]
        exact ⟨fun heq => ha heq.symm, hl⟩
      rcases ih with ⟨l, rest, hl, rfl⟩ | ⟨l, b, rest, hl, hb, rfl⟩ | ⟨l, hl, rfl | rfl⟩
      · exact .inl ⟨a :: l, rest, hcons hl, rfl⟩
      · exact .inr (.inl ⟨a :: l, b, rest, hcons hl, hb, rfl⟩)
      · exact .inr (.inr ⟨a :: t, hcons hl, .inl rfl⟩)
      · exact .inr (.inr ⟨a :: l, hcons hl, .inr rfl⟩)

/-- Complete lines that do not end the header. -/
def Ordinary (hs : List Bytes) : Prop := ∀ h ∈ hs, 0x0d ∉ h ∧ ¬ Ends h

theorem split_header (t : Bytes) : ∃ hs t', t = lines hs ++ t' ∧ Ordinary hs ∧
    ((∃ l rest, 0x0d ∉ l ∧ Ends l ∧ t' = l ++ crlf ++ rest) ∨ Stray t' ∨ Waits t') := by
  induction hn : t.length using Nat.strong_induction_on generalizing t with
  | _ n ih =>
    rcases split_cr t with ⟨l, rest, hl, rfl⟩ | hstray | hwaits
    · by_cases hends : Ends l
      · exact ⟨[], _, rfl, nofun, .inl ⟨l, rest, hl, hends, rfl⟩⟩
      · obtain ⟨hs, t', rfl, hhs, hend⟩ := ih rest.length (by simp [← hn]; omega) rest rfl
        refine ⟨l :: hs, t', (lines_cons ..).symm, fun h hh => ?_, hend⟩
        rcases List.mem_cons.mp hh with rfl | hh
        · exact ⟨hl, hends⟩
        · exact hhs h hh
    · exact ⟨[], t, rfl, nofun, .inr (.inl hstray)⟩
    · exact ⟨[], t, rfl, nofun, .inr (.inr hwaits)⟩

/-- What ends a header is a line without bytes, or one that begins with a NUL. -/
theorem ends_iff {l : Bytes} : Ends l ↔ l = [] ∨ l.head? = some 0 := by
  unfold Ends
  cases l with
  | nil => simp
  | cons a l => by_cases ha : a = 0 <;> simp [ha]

/-- The text begins with an accepted request line and lines that do not end the header, and `t` comes
behind them. -/
def Head (d t : Bytes) : Prop :=
  ∃ r hs, 0x0d ∉ r ∧ accepts r ∧ Ordinary hs ∧ d = r ++ crlf ++ (lines hs ++ t)

theorem split_text (d : Bytes) :
    (∃ l rest, Head d (l ++ crlf ++ rest) ∧ 0x0d ∉ l ∧ Ends l) ∨
    (Stray d ∨ (∃ r t, 0x0d ∉ r ∧ accepts r = false ∧ d = r ++ crlf ++ t) ∨ ∃ t, Head d t ∧ Stray t) ∨
    (Waits d ∨ ∃ t, Head d t ∧ Waits t) := by
  rcases split_cr d with ⟨r, t, hr, rfl⟩ | hstray | hwaits
  · cases hok : accepts r with
    | false => exact .inr (.inl (.inr (.inl ⟨r, t, hr, hok, rfl⟩)))
    | true =>
      obtain ⟨hs, t', rfl, hhs, hend⟩ := split_header t
      have hhead : Head (r ++ crlf ++ (lines hs ++ t')) t' := ⟨r, hs, hr, hok, hhs, rfl⟩
      rcases hend with ⟨l, rest, hl, hends, rfl⟩ | hstray | hwaits
      · exact .inl ⟨l, rest, hhead, hl, hends⟩
      · exact .inr (.inl (.inr (.inr ⟨t', hhead, hstray⟩)))
      · exact .inr (.inr (.inr ⟨t', hhead, hwaits⟩))
  · exact .inr (.inl (.inl hstray))
  · exact .inr (.inr (.inl hwaits))

namespace Parser
variable {p : Parser} {l t : Bytes} {hs : List Bytes}

theorem Fresh.stray (h : Fresh p t) (ht : Stray t) : p.parseContent.1 = .badRequest := by
  obtain ⟨l, b, rest, hl, hb, rfl⟩ := ht
  exact parseContent_stray hl h.apart hb h.ahead

theorem Fresh.waits (h : Fresh p t) (ht : Waits t) : p.parseContent.1 = .noRequest := by
  obtain ⟨l, hl, ht⟩ := ht
  exact parseContent_waits h.sane hl h.apart (h.ahead ▸ ht)

theorem Fresh.pass (h : Fresh p (lines hs ++ t)) (hstate : p.checkstate = .header) (hhs : Ordinary hs) :
    ∃ q, p.parseContent = q.parseContent ∧ Fresh q t ∧ q.checkstate = .header ∧ q.readIndex = p.readIndex := by
  induction hs generalizing p with
  | nil => exact ⟨p, rfl, h, hstate, rfl⟩
  | cons l hs ih =>
    rw [lines_cons] at h
    obtain ⟨hl, hends⟩ := hhs l List.mem_cons_self
    obtain ⟨q, hline, hfresh, hread, hheader, -⟩ := h.line hl
    obtain ⟨hcode, hstate'⟩ := hheader hstate
    rw [if_neg hends] at hcode
    obtain ⟨q', hq', hfresh', hstate'', hread'⟩ := ih hfresh hstate' fun h hh => hhs h (List.mem_cons_of_mem _ hh)
    refine ⟨q', ?_, hfresh', hstate'', hread'.trans hread⟩
    rw [parseContent_ok hline, if_pos hcode, hq']

theorem Fresh.last {rest : Bytes} (h : Fresh p (l ++ crlf ++ rest)) (hstate : p.checkstate = .header)
    (hl : 0x0d ∉ l) (hends : Ends l) :
    p.parseContent.1 = .getRequest ∧ p.parseContent.2.checkedIndex + rest.length = p.readIndex := by
  obtain ⟨q, hline, hfresh, hread, hheader, -⟩ := h.line hl
  obtain ⟨hcode, -⟩ := hheader hstate
  rw [if_pos hends] at hcode
  rw [parseContent_ok hline, if_neg (by rw [hcode]; decide), ← hread, ← length_ahead hfresh.sane, hfresh.ahead]
  exact ⟨hcode, rfl⟩

theorem Fresh.first (h : Fresh p (l ++ crlf ++ t)) (hstate : p.checkstate = .requestline) (hl : 0x0d ∉ l)
    (hok : accepts l) :
    ∃ q, p.parseContent = q.parseContent ∧ Fresh q t ∧ q.checkstate = .header ∧ q.readIndex = p.readIndex := by
  obtain ⟨q, hline, hfresh, hread, -, hrequest⟩ := h.line hl
  obtain ⟨hcode, hstate'⟩ := hrequest hstate
  rw [if_pos hok] at hcode
  exact ⟨q.parseText.2, by rw [parseContent_ok hline, if_pos hcode], hfresh, hstate' hok, hread⟩

theorem Fresh.first_bad (h : Fresh p (l ++ crlf ++ t)) (hstate : p.checkstate = .requestline) (hl : 0x0d ∉ l)
    (hok : accepts l = false) : p.parseContent.1 = .badRequest := by
  obtain ⟨q, hline, -, -, -, hrequest⟩ := h.line hl
  obtain ⟨hcode, -⟩ := hrequest hstate
  rw [if_neg (by rw [hok]; decide)] at hcode
  rw [parseContent_ok hline, if_neg (by rw [hcode]; decide), hcode]

theorem Fresh.head {d : Bytes} (h : Fresh p d) (hstate : p.checkstate = .requestline) (hhead : Head d t) :
    ∃ q, p.parseContent = q.parseContent ∧ Fresh q t ∧ q.checkstate = .header ∧ q.readIndex = p.readIndex := by
  obtain ⟨r, hs, hr, hok, hhs, rfl⟩ := hhead
  obtain ⟨q, hq, hfresh, hheader, hread⟩ := h.first hstate hr hok
  obtain ⟨q', hq', hfresh', hheader', hread'⟩ := hfresh.pass hheader hhs
  exact ⟨q', hq.trans hq', hfresh', hheader', hread'.trans hread⟩

theorem Fresh.get {d rest : Bytes} (h : Fresh p d) (hstate : p.checkstate = .requestline)
    (hhead : Head d (l ++ crlf ++ rest)) (hl : 0x0d ∉ l) (hends : Ends l) :
    p.parseContent.1 = .getRequest ∧ p.parseContent.2.checkedIndex + rest.length = p.readIndex := by
  obtain ⟨q, hq, hfresh, hheader, hread⟩ := h.head hstate hhead
  rw [hq, ← hread]
  exact hfresh.last hheader hl hends

theorem Fresh.bad {d : Bytes} (h : Fresh p d) (hstate : p.checkstate = .requestline)
    (hd : Stray d ∨ (∃ r t, 0x0d ∉ r ∧ accepts r = false ∧ d = r ++ crlf ++ t) ∨ ∃ t, Head d t ∧ Stray t) :
    p.parseContent.1 = .badRequest := by
  rcases hd with hstray | ⟨r, t, hr, hok, rfl⟩ | ⟨t, hhead, hstray⟩
  · exact h.stray hstray
  · exact h.first_bad hstate hr hok
  · obtain ⟨q, hq, hfresh, -⟩ := h.head hstate hhead
    rw [hq]
    exact hfresh.stray hstray

theorem Fresh.no {d : Bytes} (h : Fresh p d) (hstate : p.checkstate = .requestline)
    (hd : Waits d ∨ ∃ t, Head d t ∧ Waits t) : p.parseContent.1 = .noRequest := by
  rcases hd with hwaits | ⟨t, hhead, hwaits⟩
  · exact h.waits hwaits
  · obtain ⟨q, hq, hfresh, -⟩ := h.head hstate hhead
    rw [hq]
    exact hfresh.waits hwaits

end Parser

/-! ### Texts without a NUL -/

variable {l d : Bytes}

def Accepted (d : Bytes) : Prop :=
  ∃ (r : RequestLine) (hs : List Bytes) (rest : Bytes), 0x0d ∉ r.text ∧ (∀ h ∈ hs, h ≠ [] ∧ 0x0d ∉ h) ∧
    d = r.text ++ crlf ++ (lines hs ++ (crlf ++ rest))

/-- A CR comes without its LF before the blank line, or the first line is complete, but no request
line. -/
def Refused (d : Bytes) : Prop :=
  (∃ ls l b rest, (∀ l ∈ ls, 0x0d ∉ l) ∧ (∀ l ∈ ls.tail, l ≠ []) ∧ 0x0d ∉ l ∧ b ≠ 0x0a ∧
    d = lines ls ++ (l ++ 0x0d :: b :: rest)) ∨
  ∃ l rest, 0x0d ∉ l ∧ (∀ r : RequestLine, r.text ≠ l) ∧ d = l ++ crlf ++ rest

theorem takeWhile_of_noNul (hl : 0 ∉ l) : l.takeWhile (· ≠ 0) = l :=
  List.takeWhile_eq_self_iff.mpr fun b hb => decide_eq_true fun h0 : b = 0 => hl (h0 ▸ hb)

theorem accepts_iff (hl : 0 ∉ l) : accepts l = true ↔ ∃ r : RequestLine, r.text = l := by
  rw [accepts, takeWhile_of_noNul hl, requestLine_iff]

theorem ends_iff_of_noNul (hl : 0 ∉ l) : Ends l ↔ l = [] := by
  rw [Ends, takeWhile_of_noNul hl]

theorem mem_lines {b : UInt8} {ls : List Bytes} (hl : l ∈ ls) (hb : b ∈ l) : b ∈ lines ls :=
  List.mem_flatten.mpr ⟨l ++ crlf, List.mem_map_of_mem hl, List.mem_append_left _ hb⟩

theorem Accepted.head (h : Accepted d) (hnul : 0 ∉ d) : ∃ rest, Head d ([] ++ crlf ++ rest) := by
  obtain ⟨r, hs, rest, hr, hhs, rfl⟩ := h
  simp only [List.mem_append, not_or] at hnul
  refine ⟨rest, r.text, hs, hr, (accepts_iff hnul.1.1).mpr ⟨r, rfl⟩, fun x hx => ⟨(hhs x hx).2, ?_⟩, rfl⟩
  rw [ends_iff_of_noNul fun h0 => hnul.2.1 (mem_lines hx h0)]
  exact (hhs x hx).1

theorem Refused.cases (h : Refused d) (hnul : 0 ∉ d) :
    Stray d ∨ (∃ r t, 0x0d ∉ r ∧ accepts r = false ∧ d = r ++ crlf ++ t) ∨ ∃ t, Head d t ∧ Stray t := by
  rcases h with ⟨ls, l, b, rest, hls, htail, hl, hb, rfl⟩ | ⟨l, rest, hl, hno, rfl⟩
  · cases ls with
    | nil => exact .inl ⟨l, b, rest, hl, hb, rfl⟩
    | cons r hs =>
      rw [lines_cons] at hnul ⊢
      simp only [List.mem_append, not_or] at hnul
      cases hok : accepts r with
      | false => exact .inr (.inl ⟨r, _, hls r List.mem_cons_self, hok, rfl⟩)
      | true =>
        refine .inr (.inr ⟨_, ⟨r, hs, hls r List.mem_cons_self, hok, fun x hx => ⟨?_, ?_⟩, rfl⟩,
          l, b, rest, hl, hb, rfl⟩)
        · exact hls x (List.mem_cons_of_mem _ hx)
        · rw [ends_iff_of_noNul fun h0 => hnul.2.1 (mem_lines hx h0)]
          exact htail x hx
  · simp only [List.mem_append, not_or] at hnul
    refine .inr (.inl ⟨l, rest, hl, ?_, rfl⟩)
    rw [← Bool.not_eq_true, accepts_iff hnul.1.1]
    exact fun ⟨r, hr⟩ => hno r hr

theorem waits_of_not (hnul : 0 ∉ d) (ha : ¬ Accepted d) (hr : ¬ Refused d) :
    Waits d ∨ ∃ t, Head d t ∧ Waits t := by
  -- Without a NUL the header ends with an empty line only.
  rcases split_text d with ⟨l, rest, ⟨r, hs, hcr, hok, hhs, rfl⟩, hl, hends⟩ | hbad | hwaits
  · refine absurd ?_ ha
    simp only [List.mem_append, not_or] at hnul
    obtain ⟨r, rfl⟩ := (accepts_iff hnul.1.1).mp hok
    rw [ends_iff_of_noNul hnul.2.2.1.1] at hends
    subst hends
    refine ⟨r, hs, rest, hcr, fun x hx => ⟨fun hnil => (hhs x hx).2 ?_, (hhs x hx).1⟩, rfl⟩
    rw [hnil]
    rfl
  · refine absurd ?_ hr
    rcases hbad with ⟨l, b, rest, hl, hb, rfl⟩ | ⟨l, t, hl, hok, rfl⟩ |
      ⟨t, ⟨r, hs, hcr, hok, hhs, rfl⟩, l, b, rest, hl, hb, rfl⟩
    · exact .inl ⟨[], l, b, rest, nofun, nofun, hl, hb, rfl⟩
    · simp only [List.mem_append, not_or] at hnul
      refine .inr ⟨l, t, hl, fun r hr => ?_, rfl⟩
      rw [(accepts_iff hnul.1.1).mpr ⟨r, hr⟩] at hok
      cases hok
    · refine .inl ⟨r :: hs, l, b, rest, fun x hx => ?_, fun x hx hnil => (hhs x hx).2 ?_, hl, hb, ?_⟩
      · rcases List.mem_cons.mp hx with rfl | hx
        · exact hcr
        · exact (hhs x hx).1
      · rw [hnil]
        rfl
      · rw [lines_cons]
  · exact hwaits

/-- The texts without a NUL that the parser accepts and refuses. -/
theorem parseContent_language (hnul : 0 ∉ d) (hlen : d.length ≤ BUFFER_SIZE) :
    ((Parser.new.receive d).parseContent.1 = .getRequest ↔ Accepted d) ∧
    ((Parser.new.receive d).parseContent.1 = .badRequest ↔ Refused d) ∧
    ((Parser.new.receive d).parseContent.1 = .noRequest ↔ ¬ Accepted d ∧ ¬ Refused d) := by
  have hfresh := Parser.Fresh.receive hlen
  have hget (h : Accepted d) : (Parser.new.receive d).parseContent.1 = .getRequest := by
    obtain ⟨rest, hhead⟩ := h.head hnul
    exact (hfresh.get rfl hhead List.not_mem_nil rfl).1
  have hbad (h : Refused d) : (Parser.new.receive d).parseContent.1 = .badRequest :=
    hfresh.bad rfl (h.cases hnul)
  have hno (ha : ¬ Accepted d) (hr : ¬ Refused d) : (Parser.new.receive d).parseContent.1 = .noRequest :=
    hfresh.no rfl (waits_of_not hnul ha hr)
  by_cases ha : Accepted d
  · have hr : ¬ Refused d := fun hr => by
      rw [hget ha] at hbad
      exact absurd (hbad hr) (by decide)
    simp [hget ha, ha, hr]
  · by_cases hr : Refused d
    · simp [hbad hr, ha, hr]
    · simp [hno ha hr, ha, hr]

theorem parseContent_language_open :
    let d := ascii "GET / HTTP/1.1\r\n"
    ((Parser.new.receive d).parseContent.1 = .getRequest ↔ Accepted d) ∧
    ((Parser.new.receive d).parseContent.1 = .badRequest ↔ Refused d) ∧
    ((Parser.new.receive d).parseContent.1 = .noRequest ↔ ¬ Accepted d ∧ ¬ Refused d) :=
  parseContent_language (by decide) (by decide)

end NetDemo.Linux
