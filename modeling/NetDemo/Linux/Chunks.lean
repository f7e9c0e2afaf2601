import NetDemo.Linux.RequestLine

/-! What arrives later does not change what the parser did before: a parser that waits for more goes
on as if all had come at once. -/

namespace NetDemo.Linux
open Foundation Http
namespace Parser
variable {p q : Parser} {e : Bytes}

structure Sane (p : Parser) : Prop where
  start : p.startLine ≤ p.checkedIndex
  checked : p.checkedIndex ≤ p.readIndex
  read : p.readIndex ≤ p.buffer.length

theorem Sane.new : Sane .new := ⟨le_rfl, le_rfl, Nat.zero_le _⟩

/-! ### What is read already -/

theorem take_receive (h : p.readIndex ≤ p.buffer.length) (e : Bytes) :
    (p.receive e).buffer.take p.readIndex = p.buffer.take p.readIndex := by
  rw [receive, List.append_assoc, List.take_left']
  exact List.length_take_of_le h

theorem getElem?_receive (h : p.readIndex ≤ p.buffer.length) (e : Bytes) {i : ℕ} (hi : i < p.readIndex) :
    (p.receive e).buffer[i]? = p.buffer[i]? := by
  rw [← List.getElem?_take_of_lt hi, take_receive h, List.getElem?_take_of_lt hi]

theorem length_receive (h : p.readIndex + e.length ≤ p.buffer.length) :
    (p.receive e).buffer.length = p.buffer.length := by
  simp only [receive, List.length_append, List.length_take, List.length_drop]
  omega

theorem Sane.receive (h : Sane p) (hfit : p.readIndex + e.length ≤ p.buffer.length) : Sane (p.receive e) where
  start := h.start
  checked := Nat.le_add_right_of_le h.checked
  read := by
    rw [length_receive hfit]
    exact hfit

theorem set_receive (h : p.readIndex ≤ p.buffer.length) {i : ℕ} (hi : i < p.readIndex) :
    ({ p with buffer := p.buffer.set i 0 }.receive e).buffer = (p.receive e).buffer.set i 0 := by
  have hlen : (p.buffer.take p.readIndex).length = p.readIndex := List.length_take_of_le h
  simp only [Parser.receive, List.append_assoc]
  rw [List.set_append_left _ _ (by omega), List.take_set, List.drop_set_of_lt (by omega)]

theorem putNuls_receive (h : p.readIndex ≤ p.buffer.length) {temp : ℕ} {nuls : List ℕ}
    (hnuls : ∀ k ∈ nuls, temp + k < p.readIndex) :
    ({ p with buffer := putNuls p.buffer temp nuls }.receive e).buffer =
      putNuls (p.receive e).buffer temp nuls := by
  induction nuls generalizing p with
  | nil => rfl
  | cons k nuls ih =>
    have hset := @set_receive p e h (temp + k) (hnuls k List.mem_cons_self)
    have hrec := @ih { p with buffer := p.buffer.set (temp + k) 0 } (by simpa using h)
      fun k hk => hnuls k (List.mem_cons_of_mem _ hk)
    rw [hset] at hrec
    exact hrec

theorem receive_receive (h : p.readIndex ≤ p.buffer.length) (d e : Bytes) :
    (p.receive d).receive e = p.receive (d ++ e) := by
  have hlen : (p.buffer.take p.readIndex ++ d).length = p.readIndex + d.length := by
    rw [List.length_append, List.length_take_of_le h]
  simp only [receive, List.length_append, mk.injEq, and_true, Nat.add_assoc]
  rw [List.take_left' hlen, List.drop_append, List.drop_eq_nil_of_le (by omega), hlen, List.nil_append,
    List.drop_drop, List.append_assoc, List.append_assoc, List.append_assoc, List.append_assoc,
    Nat.add_assoc, show d.length + (p.readIndex + (d.length + e.length) - (p.readIndex + d.length)) =
      d.length + e.length by omega]

/-! ### One line -/

theorem parseLine_spec (hp : Sane p) {status : LineStatus} (h : p.parseLine = (status, q)) :
    Sane q ∧ q.readIndex = p.readIndex ∧ q.buffer.length = p.buffer.length ∧ q.startLine = p.startLine ∧
      q.checkstate = p.checkstate ∧ (status = .lineOk → Terminated q.buffer q.startLine q.readIndex) := by
  obtain ⟨hstart, hchecked, hread⟩ := hp
  fun_induction parseLine p with
  | case2 p hlt hcr hend hlf =>
    obtain ⟨rfl, rfl⟩ := Prod.mk.inj h
    refine ⟨⟨?_, ?_, ?_⟩, rfl, by simp, rfl, rfl, fun _ => Terminated.of_getElem? hstart hlt ?_⟩
    · exact Nat.le_add_right_of_le hstart
    · simp only
      omega
    · simpa using hread
    · rw [List.getElem?_set_ne (by omega), List.getElem?_set_self (by omega)]
  | case4 p hlt hcr hlf =>
    obtain ⟨rfl, rfl⟩ := Prod.mk.inj h
    refine ⟨⟨?_, ?_, ?_⟩, rfl, by simp, rfl, rfl, fun _ => Terminated.of_getElem? hstart hlt ?_⟩
    · exact Nat.le_add_right_of_le hstart
    · exact hlt
    · simpa using hread
    · rw [List.getElem?_set_self (by simpa using Nat.lt_of_lt_of_le hlt hread)]
  | case5 p hlt hcr hlf ih => exact ih h (Nat.le_add_right_of_le hstart) hlt hread
  | case1 p | case3 p | case6 p =>
    obtain ⟨rfl, rfl⟩ := Prod.mk.inj h
    exact ⟨⟨hstart, hchecked, hread⟩, rfl, rfl, rfl, rfl, fun hok => by cases hok⟩

/-- The line that ends with the CRLF at `i` is complete. -/
def endLine (p : Parser) (i : ℕ) : Parser :=
  { p with buffer := (p.buffer.set i 0).set (i + 1) 0, checkedIndex := i + 2 }

/-- The LF at `checkedIndex` has its CR in front of it. -/
def BehindCr (p : Parser) : Prop :=
  p.buffer[p.checkedIndex]? = some 0x0a ∧ 1 < p.checkedIndex ∧ p.buffer[p.checkedIndex - 1]? = some 0x0d

theorem parseLine_skip (hlt : p.checkedIndex < p.readIndex) (hcr : p.buffer[p.checkedIndex]? ≠ some 0x0d)
    (hlf : ¬ BehindCr p) : p.parseLine = { p with checkedIndex := p.checkedIndex + 1 }.parseLine := by
  rw [parseLine, if_pos hlt, if_neg hcr]
  exact if_neg hlf

theorem parseLine_crlf (hlt : p.checkedIndex + 1 < p.readIndex) (hcr : p.buffer[p.checkedIndex]? = some 0x0d)
    (hlf : p.buffer[p.checkedIndex + 1]? = some 0x0a) : p.parseLine = (.lineOk, p.endLine p.checkedIndex) := by
  rw [parseLine, if_pos (Nat.lt_of_succ_lt hlt), if_pos hcr, if_neg (Nat.ne_of_lt hlt), if_pos hlf]
  rfl

theorem parseLine_bad (hlt : p.checkedIndex + 1 < p.readIndex) (hcr : p.buffer[p.checkedIndex]? = some 0x0d)
    (hlf : p.buffer[p.checkedIndex + 1]? ≠ some 0x0a) : p.parseLine = (.lineBad, p) := by
  rw [parseLine, if_pos (Nat.lt_of_succ_lt hlt), if_pos hcr, if_neg (Nat.ne_of_lt hlt), if_neg hlf]

theorem parseLine_behindCr (hlt : p.checkedIndex < p.readIndex) (hlf : BehindCr p) :
    p.parseLine = (.lineOk, p.endLine (p.checkedIndex - 1)) := by
  have hcr : p.buffer[p.checkedIndex]? ≠ some 0x0d := by rw [hlf.1]; decide
  obtain ⟨c, hc⟩ := Nat.exists_eq_add_of_lt hlf.2.1
  rw [parseLine, if_pos hlt, if_neg hcr]
  apply (if_pos hlf).trans
  rw [endLine, hc]
  rfl

theorem endLine_receive (hread : p.readIndex ≤ p.buffer.length) {i : ℕ} (hi : i + 1 < p.readIndex) (e : Bytes) :
    (p.endLine i).receive e = (p.receive e).endLine i := by
  have hset := @set_receive { p with buffer := p.buffer.set i 0 } e (by simpa using hread) (i + 1) hi
  rw [set_receive hread (Nat.lt_of_succ_lt hi)] at hset
  simp only [endLine, receive, mk.injEq, and_true]
  exact hset

theorem behindCr_receive (hread : p.readIndex ≤ p.buffer.length) (hlt : p.checkedIndex < p.readIndex) (e : Bytes) :
    BehindCr (p.receive e) ↔ BehindCr p := by
  have hlf := getElem?_receive hread e hlt
  have hcr := getElem?_receive hread e (i := p.checkedIndex - 1) (by omega)
  unfold BehindCr
  rw [← hlf, ← hcr]
  rfl

/-- A line that is open goes on with what arrives next. -/
theorem parseLine_receive_open (hread : p.readIndex ≤ p.buffer.length) (h : p.parseLine = (.lineOpen, q))
    (e : Bytes) : (p.receive e).parseLine = (q.receive e).parseLine := by
  fun_induction parseLine p with
  | case2 p | case3 p | case4 p => cases h
  | case5 p hlt hcr hlf ih =>
    rw [← ih hread h]
    change ¬ BehindCr p at hlf
    rw [← behindCr_receive hread hlt e] at hlf
    rw [← getElem?_receive hread e hlt] at hcr
    exact parseLine_skip (Nat.lt_add_right _ hlt) hcr hlf
  | case1 p | case6 p =>
    obtain ⟨-, rfl⟩ := Prod.mk.inj h
    rfl

/-- What arrives behind a line that is complete, or bad, does not matter. -/
theorem parseLine_receive (hread : p.readIndex ≤ p.buffer.length) {status : LineStatus}
    (h : p.parseLine = (status, q)) (hstatus : status ≠ .lineOpen) (e : Bytes) :
    (p.receive e).parseLine = (status, q.receive e) := by
  fun_induction parseLine p with
  | case1 p | case6 p => exact absurd (Prod.mk.inj h).1.symm hstatus
  | case5 p hlt hcr hlf ih =>
    rw [← ih hread h]
    change ¬ BehindCr p at hlf
    rw [← behindCr_receive hread hlt e] at hlf
    rw [← getElem?_receive hread e hlt] at hcr
    exact parseLine_skip (Nat.lt_add_right _ hlt) hcr hlf
  | case2 p hlt hcr hend hlf =>
    obtain ⟨rfl, rfl⟩ := Prod.mk.inj h
    have hnext : p.checkedIndex + 1 < p.readIndex := by omega
    rw [← getElem?_receive hread e hlt] at hcr
    rw [← getElem?_receive hread e hnext] at hlf
    rw [parseLine_crlf (Nat.lt_add_right _ hnext) hcr hlf]
    exact congrArg (_, ·) (endLine_receive hread hnext e).symm
  | case3 p hlt hcr hend hlf =>
    obtain ⟨rfl, rfl⟩ := Prod.mk.inj h
    have hnext : p.checkedIndex + 1 < p.readIndex := by omega
    rw [← getElem?_receive hread e hlt] at hcr
    rw [← getElem?_receive hread e hnext] at hlf
    exact parseLine_bad (Nat.lt_add_right _ hnext) hcr hlf
  | case4 p hlt hcr hlf =>
    -- The CR was the last byte of an earlier chunk.
    have hq := parseLine_behindCr hlt hlf
    rw [parseLine, if_pos hlt, if_neg hcr, if_pos hlf, h] at hq
    obtain ⟨rfl, rfl⟩ := Prod.mk.inj hq
    have hpos := hlf.2.1
    change BehindCr p at hlf
    rw [← behindCr_receive hread hlt e] at hlf
    have hi : p.checkedIndex - 1 + 1 < p.readIndex := by omega
    rw [parseLine_behindCr (Nat.lt_add_right _ hlt) hlf]
    exact congrArg (_, ·) (endLine_receive hread hi e).symm

/-! ### All lines -/

/-- What `parseContent` does with a complete line. -/
def parseText (q : Parser) : HttpCode × Parser :=
  match q.checkstate with
  | .requestline =>
    let (retcode, buffer, checkstate) := parseRequestline q.buffer q.startLine q.checkstate
    (retcode, { q with buffer := buffer, startLine := q.checkedIndex, checkstate := checkstate })
  | .header => (parseHeaders q.buffer q.startLine, { q with startLine := q.checkedIndex })

theorem length_putNuls (buffer : Bytes) (temp : ℕ) (nuls : List ℕ) :
    (putNuls buffer temp nuls).length = buffer.length := by
  induction nuls generalizing buffer with
  | nil => rfl
  | cons k nuls ih => exact (ih _).trans (List.length_set ..)

theorem parseText_spec (q : Parser) : q.parseText.2.startLine = q.checkedIndex ∧
    q.parseText.2.checkedIndex = q.checkedIndex ∧ q.parseText.2.readIndex = q.readIndex ∧
      q.parseText.2.buffer.length = q.buffer.length := by
  unfold parseText
  cases q.checkstate with
  | requestline =>
    simp only [parseRequestline_eq, length_putNuls, and_self]
  | header => exact ⟨rfl, rfl, rfl, rfl⟩

theorem Sane.parseText (hq : Sane q) : Sane q.parseText.2 := by
  obtain ⟨hstart, hchecked, hread, hlen⟩ := parseText_spec q
  constructor
  · rw [hstart, hchecked]
  · rw [hchecked, hread]
    exact hq.checked
  · rw [hread, hlen]
    exact hq.read

theorem parseText_receive (hread : q.readIndex ≤ q.buffer.length)
    (hnul : Terminated q.buffer q.startLine q.readIndex) (e : Bytes) :
    (q.receive e).parseText = (q.parseText.1, q.parseText.2.receive e) := by
  have htake := take_receive hread e
  have hline : cstr (q.receive e).buffer q.startLine = cstr q.buffer q.startLine := cstr_congr hnul htake
  unfold parseText
  rw [show (q.receive e).checkstate = q.checkstate from rfl, show (q.receive e).startLine = q.startLine from rfl]
  cases q.checkstate with
  | requestline =>
    have hput := @putNuls_receive q e hread q.startLine (requestLine (cstr q.buffer q.startLine)).2 fun k hk => by
      have hlt := hnul.length_cstr
      have := requestLine_nuls k hk
      omega
    simp only [receive] at hput
    simp only [parseRequestline_eq, hline]
    simp only [receive, hput]
  | header =>
    have hzero : (q.receive e).buffer[q.startLine]? = q.buffer[q.startLine]? :=
      getElem?_receive hread e (by have := hnul.length_cstr; omega)
    simp only [parseHeaders, hzero]
    rfl

theorem parseContent_open (h : p.parseLine = (.lineOpen, q)) : p.parseContent = (.noRequest, q) := by
  rw [parseContent]
  split <;> simp_all

theorem parseContent_bad (h : p.parseLine = (.lineBad, q)) : p.parseContent = (.badRequest, q) := by
  rw [parseContent]
  split <;> simp_all

theorem parseContent_ok (h : p.parseLine = (.lineOk, q)) : p.parseContent =
    if q.parseText.1 = .noRequest then q.parseText.2.parseContent else q.parseText := by
  rw [parseContent]
  split
  · simp_all
  · simp_all
  next q' heq =>
  obtain ⟨-, rfl⟩ := Prod.mk.inj (h.symm.trans heq)
  unfold parseText
  cases q.checkstate with
  | requestline =>
    simp only [parseRequestline_eq]
    cases (requestLine (cstr q.buffer q.startLine)).1 <;> simp
  | header =>
    simp only [parseHeaders]
    split_ifs <;> simp_all

theorem parseContent_congr {p' : Parser} (h : p.parseLine = p'.parseLine) : p.parseContent = p'.parseContent := by
  obtain ⟨status, q, hline⟩ : ∃ status q, p.parseLine = (status, q) := ⟨_, _, rfl⟩
  rw [hline] at h
  cases status with
  | lineOpen => rw [parseContent_open hline, parseContent_open h.symm]
  | lineBad => rw [parseContent_bad hline, parseContent_bad h.symm]
  | lineOk => rw [parseContent_ok hline, parseContent_ok h.symm]

theorem parseContent_induction {P : Parser → Prop}
    (hstep : ∀ p, Sane p → (∀ q, p.parseLine = (.lineOk, q) → q.parseText.1 = .noRequest → P q.parseText.2) → P p)
    (hp : Sane p) : P p := by
  induction hn : p.readIndex - p.checkedIndex using Nat.strong_induction_on generalizing p with
  | _ n ih =>
    refine hstep p hp fun q hq _ => ?_
    obtain ⟨-, hchecked, hread, -⟩ := parseText_spec q
    have hlt := parseLine_ok hq
    exact ih _ (by omega) (parseLine_spec hp hq).1.parseText rfl

/-- A parser that waits for more goes on as if all had come at once, and its answer is final. -/
theorem parseContent_receive (hp : Sane p) (e : Bytes) :
    (p.parseContent.1 = .noRequest → (p.receive e).parseContent = (p.parseContent.2.receive e).parseContent) ∧
      (p.parseContent.1 ≠ .noRequest →
        (p.receive e).parseContent = (p.parseContent.1, p.parseContent.2.receive e)) := by
  refine parseContent_induction (P := fun p => (p.parseContent.1 = .noRequest →
    (p.receive e).parseContent = (p.parseContent.2.receive e).parseContent) ∧ (p.parseContent.1 ≠ .noRequest →
      (p.receive e).parseContent = (p.parseContent.1, p.parseContent.2.receive e))) (fun p hp ih => ?_) hp
  obtain ⟨status, q, hline⟩ : ∃ status q, p.parseLine = (status, q) := ⟨_, _, rfl⟩
  obtain ⟨hq, -, -, -, -, hnul⟩ := parseLine_spec hp hline
  cases status with
  | lineOpen =>
    rw [parseContent_open hline]
    exact ⟨fun _ => parseContent_congr (parseLine_receive_open hp.read hline e), fun hno => absurd rfl hno⟩
  | lineBad =>
    rw [parseContent_bad hline, parseContent_bad (parseLine_receive hp.read hline (by decide) e)]
    exact ⟨nofun, fun _ => rfl⟩
  | lineOk =>
    have htext := parseText_receive hq.read (hnul rfl) e
    rw [parseContent_ok hline, parseContent_ok (parseLine_receive hp.read hline (by decide) e), htext]
    by_cases hcode : q.parseText.1 = .noRequest
    · rw [if_pos hcode, if_pos hcode]
      exact ih q hline hcode
    · rw [if_neg hcode, if_neg hcode]
      exact ⟨fun h => absurd h hcode, fun _ => rfl⟩

theorem parseContent_spec (hp : Sane p) : Sane p.parseContent.2 ∧ p.parseContent.2.readIndex = p.readIndex ∧
    p.parseContent.2.buffer.length = p.buffer.length := by
  refine parseContent_induction (P := fun p => Sane p.parseContent.2 ∧
    p.parseContent.2.readIndex = p.readIndex ∧ p.parseContent.2.buffer.length = p.buffer.length)
    (fun p hp ih => ?_) hp
  obtain ⟨status, q, hline⟩ : ∃ status q, p.parseLine = (status, q) := ⟨_, _, rfl⟩
  obtain ⟨hq, hread, hlen, -⟩ := parseLine_spec hp hline
  cases status with
  | lineOpen =>
    rw [parseContent_open hline]
    exact ⟨hq, hread, hlen⟩
  | lineBad =>
    rw [parseContent_bad hline]
    exact ⟨hq, hread, hlen⟩
  | lineOk =>
    obtain ⟨-, -, hread', hlen'⟩ := parseText_spec q
    rw [parseContent_ok hline]
    split_ifs with hcode
    · obtain ⟨hsane, hr, hl⟩ := ih q hline hcode
      exact ⟨hsane, hr.trans (hread'.trans hread), hl.trans (hlen'.trans hlen)⟩
    · exact ⟨hq.parseText, hread'.trans hread, hlen'.trans hlen⟩

/-! ### The loop of `main` -/

theorem receive_nil (p : Parser) : p.receive [] = p := by
  simp [receive]

theorem serve_eq (p : Parser) (data : Bytes) (more : List Bytes) : p.serve (data :: more) =
    if (p.receive data).parseContent.1 = .noRequest then (p.receive data).parseContent.2.serve more
    else (p.receive data).parseContent := rfl

theorem serve_cons (hp : Sane p) (data : Bytes) (more : List Bytes)
    (hfit : p.readIndex + (data :: more).flatten.length ≤ p.buffer.length) :
    ∃ left, (p.receive (data :: more).flatten).parseContent =
      ((p.serve (data :: more)).1, (p.serve (data :: more)).2.receive left) := by
  induction more generalizing p data with
  | nil =>
    refine ⟨[], ?_⟩
    rw [receive_nil, serve_eq, List.flatten_singleton]
    split_ifs with hcode
    · exact Prod.ext hcode rfl
    · rfl
  | cons next more ih =>
    rw [List.flatten_cons, List.length_append] at hfit
    rw [List.flatten_cons, ← receive_receive hp.read, serve_eq]
    have hsane : Sane (p.receive data) := hp.receive (by omega)
    obtain ⟨hgoes, hstays⟩ := parseContent_receive hsane (next :: more).flatten
    obtain ⟨hq, hread, hlen⟩ := parseContent_spec hsane
    split_ifs with hcode
    · rw [hgoes hcode]
      apply ih hq next
      rw [hread, hlen, length_receive (by omega)]
      show p.readIndex + data.length + _ ≤ _
      omega
    · exact ⟨(next :: more).flatten, hstays hcode⟩

theorem serve_new (chunks : List Bytes) (hlen : chunks.flatten.length ≤ BUFFER_SIZE) :
    ∃ left, (Parser.new.receive chunks.flatten).parseContent =
      ((Parser.new.serve chunks).1, (Parser.new.serve chunks).2.receive left) := by
  cases chunks with
  | nil =>
    have hopen : Parser.new.parseLine = (.lineOpen, .new) := by
      rw [parseLine]
      exact if_neg (Nat.lt_irrefl 0)
    refine ⟨[], ?_⟩
    rw [List.flatten_nil, receive_nil, parseContent_open hopen, receive_nil]
    rfl
  | cons data more =>
    apply serve_cons Sane.new data more
    rw [show Parser.new.buffer.length = BUFFER_SIZE from List.length_replicate]
    exact (Nat.zero_add _).trans_le hlen

/-- However the bytes are cut, the loop answers what one call on all of them answers. -/
theorem serve_eq_parseContent (chunks : List Bytes) (hlen : chunks.flatten.length ≤ BUFFER_SIZE) :
    (Parser.new.serve chunks).1 = (Parser.new.receive chunks.flatten).parseContent.1 := by
  obtain ⟨left, h⟩ := serve_new chunks hlen
  rw [h]

/-- A cut between CR and LF, and one inside of the blank line. -/
theorem serve_eq_parseContent_split :
    (Parser.new.serve [ascii "GET / HTTP/1.1\r", ascii "\n\r", ascii "\n"]).1 =
      (Parser.new.receive (ascii "GET / HTTP/1.1\r\n\r\n")).parseContent.1 :=
  serve_eq_parseContent [ascii "GET / HTTP/1.1\r", ascii "\n\r", ascii "\n"] (by decide)

end Parser
end NetDemo.Linux
