import NetDemo.Linux.Lines
import NetDemo.Foundation.Traced

/-! Where the parser reads and writes its buffer, and how far the functions of `string.h` get in it. -/

namespace NetDemo.Linux
open Foundation Http Traced

/-- A function of `string.h`, or of `printf`, that goes over the string at `start`. -/
structure Scan where
  mem : Bytes
  start : ℕ

/-- The scan starts behind `lo` and meets a NUL in front of `n`. -/
def Scan.Within (lo n : ℕ) (scan : Scan) : Prop := lo ≤ scan.start ∧ Terminated scan.mem scan.start n

def scanRequestline (buffer : Bytes) (temp : ℕ) (checkstate : CheckState) :
    Traced Scan (HttpCode × Bytes × CheckState) := do
  match ← looks ⟨buffer, temp⟩ (strpbrk buffer temp blanks) with
  | none => pure (.badRequest, buffer, checkstate)
  | some url =>
    let buffer := buffer.set url 0
    let url := url + 1
    if ← looks ⟨buffer, temp⟩ (strcasecmp (cstr buffer temp) (ascii "GET")) then
      let url := url + (← looks ⟨buffer, url⟩ (strspn (cstr buffer url) blanks))
      match ← looks ⟨buffer, url⟩ (strpbrk buffer url blanks) with
      | none => pure (.badRequest, buffer, checkstate)
      | some version =>
        let buffer := buffer.set version 0
        let version := version + 1
        let version := version + (← looks ⟨buffer, version⟩ (strspn (cstr buffer version) blanks))
        if !(← looks ⟨buffer, version⟩ (strcasecmp (cstr buffer version) (ascii "HTTP/1.1"))) then
          pure (.badRequest, buffer, checkstate)
        else
          let url ← if ← looks ⟨buffer, url⟩ (strncasecmp (cstr buffer url) (ascii "http://") 7) then
              looks ⟨buffer, url + 7⟩ (strchr buffer (url + 7) 0x2f)
            else pure (some url)
          match url with
          | none => pure (.badRequest, buffer, checkstate)
          | some url =>
            if (← looks ⟨buffer, url⟩ buffer[url]?) ≠ some 0x2f then pure (.badRequest, buffer, checkstate)
            else
              looks ⟨buffer, url⟩ ()
              pure (.noRequest, buffer, .header)
    else pure (.badRequest, buffer, checkstate)

def scanHeaders (buffer : Bytes) (temp : ℕ) : Traced Scan HttpCode := do
  if (← looks ⟨buffer, temp⟩ buffer[temp]?) = some 0 then pure .getRequest
  else if ← looks ⟨buffer, temp⟩ (strncasecmp (cstr buffer temp) (ascii "Host:") 5) then
    let temp := temp + 5
    let temp := temp + (← looks ⟨buffer, temp⟩ (strspn (cstr buffer temp) blanks))
    looks ⟨buffer, temp⟩ ()
    pure .noRequest
  else pure .noRequest

namespace Parser

def scanLine (p : Parser) : Traced ℕ (LineStatus × Parser) :=
  if h : p.checkedIndex < p.readIndex then do
    let temp ← looks p.checkedIndex p.buffer[p.checkedIndex]?
    if temp = some 0x0d then
      if p.checkedIndex + 1 = p.readIndex then pure (.lineOpen, p)
      else if (← looks (p.checkedIndex + 1) p.buffer[p.checkedIndex + 1]?) = some 0x0a then
        let buffer ← looks p.checkedIndex (p.buffer.set p.checkedIndex 0)
        let buffer ← looks (p.checkedIndex + 1) (buffer.set (p.checkedIndex + 1) 0)
        pure (.lineOk, { p with buffer := buffer, checkedIndex := p.checkedIndex + 2 })
      else pure (.lineBad, p)
    else if temp = some 0x0a ∧ 1 < p.checkedIndex then
      if (← looks (p.checkedIndex - 1) p.buffer[p.checkedIndex - 1]?) = some 0x0d then
        let buffer ← looks (p.checkedIndex - 1) (p.buffer.set (p.checkedIndex - 1) 0)
        let buffer ← looks p.checkedIndex (buffer.set p.checkedIndex 0)
        pure (.lineOk, { p with buffer := buffer, checkedIndex := p.checkedIndex + 1 })
      else scanLine { p with checkedIndex := p.checkedIndex + 1 }
    else scanLine { p with checkedIndex := p.checkedIndex + 1 }
  else pure (.lineOpen, p)
termination_by p.readIndex - p.checkedIndex

end Parser

theorem val_scanRequestline (buffer : Bytes) (temp : ℕ) (checkstate : CheckState) :
    (scanRequestline buffer temp checkstate).val = parseRequestline buffer temp checkstate := by
  unfold scanRequestline parseRequestline
  simp only [val_bind]
  cases strpbrk buffer temp blanks with
  | none => rfl
  | some url =>
    simp only [val_bind, val_pure, val_ite]
    congr 1
    generalize buffer.set url 0 = buffer
    generalize url + 1 + strspn (cstr buffer (url + 1)) blanks = url
    cases strpbrk buffer url blanks with
    | none => rfl
    | some version =>
      simp only [val_bind, val_pure, val_ite]
      congr 1
      generalize buffer.set version 0 = buffer
      by_cases hscheme : strncasecmp (cstr buffer url) (ascii "http://") 7 = true
      · rw [if_pos hscheme, if_pos hscheme]
        cases strchr buffer (url + 7) 0x2f with
        | none => rfl
        | some url => simp only [val_bind, val_pure, val_ite, Option.all_some, decide_eq_true_eq]
      · rw [if_neg hscheme, if_neg hscheme]
        simp only [Option.all_some, decide_eq_true_eq]

theorem val_scanHeaders (buffer : Bytes) (temp : ℕ) :
    (scanHeaders buffer temp).val = parseHeaders buffer temp := by
  unfold scanHeaders parseHeaders
  simp only [val_bind, val_ite, val_pure, ite_self]

/-! ### The scans of a line -/

section
variable {mem : Bytes} {lo s n cr : ℕ} {α : Type}

theorem within_of_le (hlo : lo ≤ s) (hs : s ≤ cr) (hnul : mem[cr]? = some 0) :
    Scan.Within lo (cr + 1) ⟨mem, s⟩ := ⟨hlo, .of_getElem? hs (Nat.lt_succ_self cr) hnul⟩

theorem strpbrk_bounds {accept : Bytes} {u : ℕ} (hs : s ≤ cr) (hnul : mem[cr]? = some 0)
    (h : strpbrk mem s accept = some u) : s ≤ u ∧ u < cr := by
  have hlen := (Terminated.of_getElem? hs (Nat.lt_succ_self cr) hnul).length_cstr
  unfold strpbrk at h
  split_ifs at h with hlt
  obtain rfl := Option.some.inj h
  exact ⟨Nat.le_add_right _ _, by omega⟩

theorem strspn_bounds (accept : Bytes) (hs : s ≤ cr) (hnul : mem[cr]? = some 0) :
    s + strspn (cstr mem s) accept ≤ cr := by
  have hlen := (Terminated.of_getElem? hs (Nat.lt_succ_self cr) hnul).length_cstr
  have hle := strspn_le (cstr mem s) accept
  omega

theorem strncasecmp_bounds {str : Bytes} {n : ℕ} (hs : s ≤ cr) (hnul : mem[cr]? = some 0)
    (hlen : n ≤ str.length) (h : strncasecmp (cstr mem s) str n) : s + n ≤ cr := by
  have hcstr := (Terminated.of_getElem? hs (Nat.lt_succ_self cr) hnul).length_cstr
  have heq := congrArg List.length (of_decide_eq_true h)
  rw [List.length_map, List.length_map, List.length_take, List.length_take] at heq
  omega

theorem getElem?_set_zero {i : ℕ} (hnul : mem[cr]? = some 0) : (mem.set i 0)[cr]? = some 0 := by
  obtain ⟨hlt, -⟩ := List.getElem?_eq_some_iff.1 hnul
  by_cases hi : i = cr
  · rw [hi, List.getElem?_set_self hlt]
  · rw [List.getElem?_set_ne hi, hnul]

theorem scanRequestline_within {buffer : Bytes} {temp : ℕ} (htemp : temp ≤ cr) (hnul : buffer[cr]? = some 0)
    (checkstate : CheckState) :
    Logs (Scan.Within temp (cr + 1)) (scanRequestline buffer temp checkstate) := by
  unfold scanRequestline
  refine .looks (within_of_le (Nat.le_refl _) htemp hnul) ?_
  cases hurl : strpbrk buffer temp blanks with
  | none => exact .pure _
  | some url =>
    obtain ⟨hlo, hhi⟩ := strpbrk_bounds htemp hnul hurl
    have hnul := getElem?_set_zero (i := url) hnul
    dsimp only
    generalize buffer.set url 0 = buffer at hnul
    refine .looks (within_of_le (Nat.le_refl _) htemp hnul) ?_
    split_ifs
    swap
    · exact .pure _
    refine .looks (within_of_le (by omega) (by omega) hnul) ?_
    have hskip := strspn_bounds blanks (show url + 1 ≤ cr by omega) hnul
    have hlo : temp ≤ url + 1 + strspn (cstr buffer (url + 1)) blanks := by omega
    generalize url + 1 + strspn (cstr buffer (url + 1)) blanks = url at hskip hlo
    refine .looks (within_of_le hlo hskip hnul) ?_
    cases hversion : strpbrk buffer url blanks with
    | none => exact .pure _
    | some version =>
      obtain ⟨hlo', hhi'⟩ := strpbrk_bounds hskip hnul hversion
      have hnul := getElem?_set_zero (i := version) hnul
      dsimp only
      generalize buffer.set version 0 = buffer at hnul
      refine .looks (within_of_le (by omega) (by omega) hnul) ?_
      have hskip' := strspn_bounds blanks (show version + 1 ≤ cr by omega) hnul
      refine .looks (within_of_le (by omega) hskip' hnul) ?_
      split_ifs
      · exact .pure _
      have hpath {url : ℕ} (hlo : temp ≤ url) (hurl : url ≤ cr) : Logs (Scan.Within temp (cr + 1)) (do
          if (← looks ⟨buffer, url⟩ buffer[url]?) ≠ some 0x2f then pure (.badRequest, buffer, checkstate)
          else
            looks ⟨buffer, url⟩ ()
            pure (HttpCode.noRequest, buffer, CheckState.header)) := by
        refine .looks (within_of_le hlo hurl hnul) ?_
        split_ifs
        · exact .pure _
        · exact .looks (within_of_le hlo hurl hnul) (.pure _)
      refine .looks (within_of_le hlo hskip hnul) ?_
      split_ifs with hscheme
      · have hseven := strncasecmp_bounds hskip hnul (by decide) hscheme
        refine .looks (within_of_le (by omega) hseven hnul) ?_
        cases hslash : strchr buffer (url + 7) 0x2f with
        | none => exact .pure _
        | some slash =>
          obtain ⟨hlo'', hhi''⟩ := strpbrk_bounds hseven hnul hslash
          exact hpath (by omega) (by omega)
      · exact hpath hlo hskip

theorem scanHeaders_within {buffer : Bytes} {temp : ℕ} (htemp : temp ≤ cr) (hnul : buffer[cr]? = some 0) :
    Logs (Scan.Within temp (cr + 1)) (scanHeaders buffer temp) := by
  unfold scanHeaders
  refine .looks (within_of_le (Nat.le_refl _) htemp hnul) ?_
  split_ifs
  · exact .pure _
  refine .looks (within_of_le (Nat.le_refl _) htemp hnul) ?_
  split_ifs with hhost
  · have hfive := strncasecmp_bounds htemp hnul (by decide) hhost
    have hskip := strspn_bounds blanks hfive hnul
    refine .looks (within_of_le (by omega) hfive hnul) ?_
    exact .looks (within_of_le (by omega) hskip hnul) (.pure _)
  · exact .pure _

end

namespace Parser
variable {p q : Parser}

theorem val_scanLine (p : Parser) : p.scanLine.val = p.parseLine := by
  fun_induction parseLine p with
  | case1 p hlt hcr hend =>
    rw [scanLine, dif_pos hlt]
    simp only [val_bind, val_pure, if_pos hcr, if_pos hend]
  | case2 p hlt hcr hend hlf =>
    rw [scanLine, dif_pos hlt]
    simp only [val_bind, val_pure, if_pos hcr, if_neg hend, if_pos hlf]
  | case3 p hlt hcr hend hlf =>
    rw [scanLine, dif_pos hlt]
    simp only [val_bind, val_pure, if_pos hcr, if_neg hend, if_neg hlf]
  | case4 p hlt hcr hlf =>
    rw [scanLine, dif_pos hlt]
    simp only [val_bind, val_pure, if_neg hcr, if_pos (And.intro hlf.1 hlf.2.1), if_pos hlf.2.2]
  | case5 p hlt hcr hlf ih =>
    rw [scanLine, dif_pos hlt, ← ih]
    by_cases hfar : p.buffer[p.checkedIndex]? = some 0x0a ∧ 1 < p.checkedIndex
    · have hbehind : p.buffer[p.checkedIndex - 1]? ≠ some 0x0d := fun heq => hlf ⟨hfar.1, hfar.2, heq⟩
      simp only [val_bind, if_neg hcr, if_pos hfar, if_neg hbehind]
    · simp only [val_bind, if_neg hcr, if_neg hfar]
  | case6 p hge =>
    rw [scanLine, dif_neg hge]
    rfl

theorem scanLine_inside (p : Parser) : Logs (· < p.readIndex) p.scanLine := by
  induction hn : p.readIndex - p.checkedIndex using Nat.strong_induction_on generalizing p with
  | _ n ih =>
    rw [scanLine]
    by_cases hlt : p.checkedIndex < p.readIndex
    swap
    · rw [dif_neg hlt]
      exact .pure _
    rw [dif_pos hlt]
    have hrest : Logs (· < p.readIndex) { p with checkedIndex := p.checkedIndex + 1 }.scanLine :=
      ih _ (by rw [← hn]; exact Nat.sub_lt_sub_left hlt (Nat.lt_succ_self _)) _ rfl
    have hbehind : p.checkedIndex - 1 < p.readIndex := Nat.lt_of_le_of_lt (Nat.sub_le _ _) hlt
    refine .looks hlt ?_
    by_cases hcr : p.buffer[p.checkedIndex]? = some 0x0d
    · rw [if_pos hcr]
      split_ifs with hend
      · exact .pure _
      have hnext : p.checkedIndex + 1 < p.readIndex := Nat.lt_of_le_of_ne hlt hend
      refine .looks hnext ?_
      split_ifs
      · exact .looks hlt (.looks hnext (.pure _))
      · exact .pure _
    · rw [if_neg hcr]
      split_ifs
      · refine .looks hbehind ?_
        split_ifs
        · exact .looks hbehind (.looks hlt (.pure _))
        · exact hrest
      · exact hrest

/-- From the beginning of a line, or from where an open line was left, `parse_line` gets to the first CR,
and a line that is complete ends there. -/
theorem parseLine_apart (hp : Sane p) (hapart : Apart p) {status : LineStatus} (h : p.parseLine = (status, q)) :
    Apart q ∧ (status = .lineOk → p.checkedIndex + 2 ≤ q.checkedIndex ∧
      p.buffer[q.checkedIndex - 2]? = some 0x0d ∧ q.buffer[q.checkedIndex - 2]? = some 0) := by
  obtain ⟨hstart, hchecked, hread⟩ := hp
  fun_induction parseLine p with
  | case2 p hlt hcr hend hlf =>
    obtain ⟨rfl, rfl⟩ := Prod.mk.inj h
    have hin : p.checkedIndex < p.buffer.length := Nat.lt_of_lt_of_le hlt hread
    refine ⟨fun i hi hcr' => ?_, fun _ => ⟨Nat.le_refl _, hcr, ?_⟩⟩
    · obtain rfl : p.checkedIndex + 1 = i := Nat.succ.inj hi
      rw [List.getElem?_set_self (by rw [List.length_set]; omega)] at hcr'
      cases hcr'
    · rw [Nat.add_sub_cancel, List.getElem?_set_ne (by omega), List.getElem?_set_self hin]
  | case4 p hlt hcr hlf => exact absurd hlf hapart.not_behindCr
  | case5 p hlt hcr hlf ih =>
    have hnext : Apart { p with checkedIndex := p.checkedIndex + 1 } := by
      intro i hi
      obtain rfl : p.checkedIndex = i := Nat.succ.inj hi
      exact hcr
    obtain ⟨hq, hline⟩ := ih hnext h (Nat.le_add_right_of_le hstart) hlt hread
    refine ⟨hq, fun hok => ⟨?_, (hline hok).2⟩⟩
    exact Nat.le_trans (Nat.add_le_add_right (Nat.le_succ _) 2) (hline hok).1
  | case1 p | case3 p | case6 p =>
    obtain ⟨rfl, rfl⟩ := Prod.mk.inj h
    refine ⟨hapart, fun hok => ?_⟩
    cases hok

/-! ### The rounds of `parse_content` -/

def scanText (q : Parser) : Traced Scan (HttpCode × Parser) :=
  match q.checkstate with
  | .requestline => do
    let (retcode, buffer, checkstate) ← scanRequestline q.buffer q.startLine q.checkstate
    pure (retcode, { q with buffer := buffer, startLine := q.checkedIndex, checkstate := checkstate })
  | .header => do
    let retcode ← scanHeaders q.buffer q.startLine
    pure (retcode, { q with startLine := q.checkedIndex })

theorem val_scanText (q : Parser) : q.scanText.val = q.parseText := by
  unfold scanText parseText
  cases q.checkstate with
  | requestline => simp only [val_bind, val_pure, val_scanRequestline]
  | header => simp only [val_bind, val_pure, val_scanHeaders]

/-- A round of the loop: the parser before it, what `parse_line` makes of it and accesses, and what the
functions for the line scan and leave. -/
structure Round where
  before : Parser
  status : LineStatus
  line : Parser
  accesses : List ℕ
  scans : List Scan
  next : Parser

/-- `parse_content` with its rounds. -/
def scanContent (p : Parser) : Traced Round (HttpCode × Parser) :=
  match _h : p.scanLine.val with
  | (.lineOpen, q) => looks ⟨p, .lineOpen, q, p.scanLine.log, [], q⟩ (.noRequest, q)
  | (.lineBad, q) => looks ⟨p, .lineBad, q, p.scanLine.log, [], q⟩ (.badRequest, q)
  | (.lineOk, q) => do
    looks ⟨p, .lineOk, q, p.scanLine.log, q.scanText.log, q.scanText.val.2⟩ ()
    if q.scanText.val.1 = .noRequest then q.scanText.val.2.scanContent else pure q.scanText.val
termination_by p.readIndex - p.checkedIndex
decreasing_by
  have hline := parseLine_ok ((val_scanLine p).symm.trans _h)
  obtain ⟨-, hchecked, hread, -⟩ := parseText_spec q
  rw [← val_scanText] at hchecked hread
  omega

/-- The loop of `main` with the parsers that it calls `parse_content` for. -/
def scanServe (p : Parser) : List Bytes → Traced Parser (HttpCode × Parser)
  | [] => pure (.noRequest, p)
  | data :: more => do
    let (result, q) ← looks (p.receive data) (p.receive data).parseContent
    if result = .noRequest then q.scanServe more else pure (result, q)

theorem val_scanServe (p : Parser) (chunks : List Bytes) : (p.scanServe chunks).val = p.serve chunks := by
  induction chunks generalizing p with
  | nil => rfl
  | cons data more ih =>
    rw [serve_eq, scanServe]
    simp only [val_bind, val_ite, val_pure, ih]

theorem scanContent_open (h : p.parseLine = (.lineOpen, q)) :
    p.scanContent = looks ⟨p, .lineOpen, q, p.scanLine.log, [], q⟩ (.noRequest, q) := by
  rw [← val_scanLine] at h
  rw [scanContent]
  split <;> simp_all

theorem scanContent_bad (h : p.parseLine = (.lineBad, q)) :
    p.scanContent = looks ⟨p, .lineBad, q, p.scanLine.log, [], q⟩ (.badRequest, q) := by
  rw [← val_scanLine] at h
  rw [scanContent]
  split <;> simp_all

theorem scanContent_ok (h : p.parseLine = (.lineOk, q)) : p.scanContent =
    (looks ⟨p, .lineOk, q, p.scanLine.log, q.scanText.log, q.parseText.2⟩ () >>= fun _ =>
      if q.parseText.1 = .noRequest then q.parseText.2.scanContent else pure q.parseText) := by
  rw [← val_scanLine] at h
  rw [scanContent, ← val_scanText]
  split
  · simp_all
  · simp_all
  next q' heq =>
    obtain ⟨-, rfl⟩ := Prod.mk.inj (h.symm.trans heq)
    rfl

theorem val_scanContent (hp : Sane p) : p.scanContent.val = p.parseContent := by
  refine parseContent_induction (P := fun p => p.scanContent.val = p.parseContent) (fun p hp ih => ?_) hp
  obtain ⟨status, q, hline⟩ : ∃ status q, p.parseLine = (status, q) := ⟨_, _, rfl⟩
  cases status with
  | lineOpen => rw [scanContent_open hline, parseContent_open hline]
  | lineBad => rw [scanContent_bad hline, parseContent_bad hline]
  | lineOk =>
    rw [scanContent_ok hline, parseContent_ok hline, val_bind, val_ite, val_pure]
    split_ifs with hcode
    · exact ih q hline hcode
    · rfl

/-- The indices are in order, and inside of the buffer. -/
structure Ordered (p : Parser) : Prop where
  start : p.startLine ≤ p.checkedIndex
  checked : p.checkedIndex ≤ p.readIndex
  read : p.readIndex ≤ BUFFER_SIZE
  length : p.buffer.length = BUFFER_SIZE

/-- What a round keeps to. The CR of a complete line is two bytes in front of the new `checkedIndex`. -/
structure Round.Bounded (r : Round) : Prop where
  inside : ∀ i ∈ r.accesses, i < r.before.readIndex
  advance : r.status = .lineOk → r.before.checkedIndex + 2 ≤ r.line.checkedIndex
  startLine : r.status = .lineOk → r.next.startLine = r.line.checkedIndex
  cr : r.status = .lineOk → r.before.buffer[r.line.checkedIndex - 2]? = some 0x0d
  scans : ∀ scan ∈ r.scans, scan.Within r.before.startLine (r.line.checkedIndex - 1)

theorem Apart.parseText (h : Apart q) : Apart q.parseText.2 := by
  obtain ⟨nuls, hnuls, -⟩ := parseText_buffer q
  intro i hi hcr
  rw [hnuls] at hcr
  rw [(parseText_spec q).2.1] at hi
  exact h i hi (getElem?_putNuls (by decide) hcr)

theorem Apart.receive (h : Apart p) (hp : Sane p) (data : Bytes) : Apart (p.receive data) := by
  intro i hi hcr
  have hread : i < p.readIndex := by
    have hchecked := hp.checked
    change p.checkedIndex = i + 1 at hi
    omega
  rw [getElem?_receive hp.read data hread] at hcr
  exact h i hi hcr

theorem scanText_within {cr : ℕ} (hstart : q.startLine ≤ cr) (hnul : q.buffer[cr]? = some 0) :
    Logs (Scan.Within q.startLine (cr + 1)) q.scanText := by
  unfold scanText
  cases q.checkstate with
  | requestline => exact (scanRequestline_within hstart hnul _).bind (.pure _)
  | header => exact (scanHeaders_within hstart hnul).bind (.pure _)

theorem bounded_of_ok (hp : Sane p) (hapart : Apart p) (h : p.parseLine = (.lineOk, q)) :
    Round.Bounded ⟨p, .lineOk, q, p.scanLine.log, q.scanText.log, q.parseText.2⟩ := by
  obtain ⟨-, -, -, hstart, -⟩ := parseLine_spec hp h
  obtain ⟨-, hline⟩ := parseLine_apart hp hapart h
  obtain ⟨hadvance, hcr, hnul⟩ := hline rfl
  refine ⟨p.scanLine_inside, fun _ => hadvance, fun _ => (parseText_spec q).1, fun _ => hcr, ?_⟩
  have hbefore := hp.start
  have hscans := scanText_within (show q.startLine ≤ q.checkedIndex - 2 by omega) hnul
  rw [hstart, show q.checkedIndex - 2 + 1 = q.checkedIndex - 1 by omega] at hscans
  exact hscans

theorem bounded_of_ne {status : LineStatus} (hstatus : status ≠ .lineOk) :
    Round.Bounded ⟨p, status, q, p.scanLine.log, [], q⟩ :=
  ⟨p.scanLine_inside, fun hok => absurd hok hstatus, fun hok => absurd hok hstatus,
    fun hok => absurd hok hstatus, nofun⟩

theorem scanContent_bounded (hp : Sane p) :
    Apart p → Logs Round.Bounded p.scanContent ∧ Apart p.parseContent.2 := by
  refine parseContent_induction (P := fun p => Apart p → Logs Round.Bounded p.scanContent ∧
    Apart p.parseContent.2) (fun p hp ih hapart => ?_) hp
  obtain ⟨status, q, hline⟩ : ∃ status q, p.parseLine = (status, q) := ⟨_, _, rfl⟩
  obtain ⟨hq, -⟩ := parseLine_apart hp hapart hline
  cases status with
  | lineOpen =>
    rw [scanContent_open hline, parseContent_open hline]
    exact ⟨logs_looks (bounded_of_ne (by decide)), hq⟩
  | lineBad =>
    rw [scanContent_bad hline, parseContent_bad hline]
    exact ⟨logs_looks (bounded_of_ne (by decide)), hq⟩
  | lineOk =>
    have hround := bounded_of_ok hp hapart hline
    rw [scanContent_ok hline, parseContent_ok hline]
    split_ifs with hcode
    · obtain ⟨hrest, hend⟩ := ih q hline hcode hq.parseText
      exact ⟨.looks hround hrest, hend⟩
    · exact ⟨.looks hround (.pure _), hq.parseText⟩

/-- What holds of a parser whenever `parse_content` is called, and what the call keeps to. -/
def Bounded (p : Parser) : Prop :=
  Ordered p ∧ Ordered p.parseContent.2 ∧ p.scanContent.val = p.parseContent ∧
    Logs Round.Bounded p.scanContent

theorem Ordered.of_sane (hp : Sane p) (hlen : p.buffer.length = BUFFER_SIZE) : Ordered p :=
  ⟨hp.start, hp.checked, hp.read.trans_eq hlen, hlen⟩

theorem scanServe_bounded (hp : Sane p) (hapart : Apart p) (hlen : p.buffer.length = BUFFER_SIZE)
    {chunks : List Bytes} (hfit : p.readIndex + chunks.flatten.length ≤ BUFFER_SIZE) :
    Logs Bounded (p.scanServe chunks) := by
  induction chunks generalizing p with
  | nil => exact .pure _
  | cons data more ih =>
    rw [List.flatten_cons, List.length_append] at hfit
    have hroom : p.readIndex + data.length ≤ p.buffer.length := by omega
    have hsane : Sane (p.receive data) := hp.receive hroom
    have hlen' : (p.receive data).buffer.length = BUFFER_SIZE := (length_receive hroom).trans hlen
    obtain ⟨hq, hread, hqlen⟩ := parseContent_spec hsane
    obtain ⟨hrounds, hqapart⟩ := scanContent_bounded hsane (hapart.receive hp data)
    refine .looks ⟨.of_sane hsane hlen', .of_sane hq (hqlen.trans hlen'), val_scanContent hsane, hrounds⟩ ?_
    dsimp only
    split_ifs
    · refine ih hq hqapart (hqlen.trans hlen') ?_
      rw [hread]
      show p.readIndex + data.length + _ ≤ _
      omega
    · exact .pure _

/-- The traced loop answers what the loop answers, and every call of `parse_content` keeps the indices in
order, accesses what was read, and scans inside of its lines, for any bytes in any chunks. -/
theorem serve_bounded (chunks : List Bytes) (hlen : chunks.flatten.length ≤ BUFFER_SIZE) :
    (Parser.new.scanServe chunks).val = Parser.new.serve chunks ∧
      Logs Bounded (Parser.new.scanServe chunks) := by
  refine ⟨val_scanServe .new chunks, ?_⟩
  refine scanServe_bounded Sane.new (fun i hi => nomatch hi) List.length_replicate ?_
  exact (Nat.zero_add _).trans_le hlen

/-- A request that comes in two chunks, cut between CR and LF. -/
theorem serve_bounded_split :
    ([ascii "GET / HTTP/1.1\r", ascii "\nHost: a\r\n\r\n"] : List Bytes).flatten.length ≤ BUFFER_SIZE ∧
      Logs Bounded (Parser.new.scanServe [ascii "GET / HTTP/1.1\r", ascii "\nHost: a\r\n\r\n"]) :=
  ⟨by decide, (serve_bounded _ (by decide)).2⟩

end Parser
end NetDemo.Linux
