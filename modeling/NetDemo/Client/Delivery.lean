import NetDemo.Client.Loop
import NetDemo.Client.Output

/-! The requests of one connection, cut into completions anywhere: when every one of them gets its
answer. -/

namespace NetDemo.Client
open Foundation Memory Http

/-! ### What is left in the block -/

theorem stale_shift (v : Cells UInt8) :
    (v.shift v.len le_rfl).stale = v.stale ++ v.mem.drop (v.cap - v.len) := by
  simp [Cells.shift, Cells.stale]

/-- Behind the live cells there is no end of a header block, and the upper half of the block is
zero. -/
structure Clean (v : Cells UInt8) : Prop where
  cr : v.stale.count 0x0d ≤ 1
  half : ∀ j, 2 * (v.len + j) = v.cap → v.stale[j]? ≠ some 0x0d
  upper : ∀ j b, v.cap < 2 * (v.len + j) → v.stale[j]? = some b → b = 0

namespace Clean
variable {v : Cells UInt8}

theorem of_zero (h : ∀ b ∈ v.stale, b = 0) : Clean v where
  cr := by
    rw [List.count_eq_zero_of_not_mem fun hb => absurd (h _ hb) (by decide)]
    exact Nat.zero_le 1
  half j _ hj := absurd (h _ (List.mem_of_getElem? hj)) (by decide)
  upper j b _ hj := h b (List.mem_of_getElem? hj)

theorem empty : Clean Cells.empty := of_zero (by simp [Cells.empty, Cells.stale])

theorem write (h : Clean v) (d : Bytes) : Clean (v.write d) := by
  have hcap := v.cap_write d
  have hlen := v.len_write d
  by_cases hfits : v.len + d.length < v.cap
  · have hstale : (v.write d).stale = v.stale.drop d.length := by
      rw [Cells.write, Cells.stale_ofParts, Cells.room, if_pos hfits]
    rw [if_pos hfits] at hcap
    refine ⟨?_, fun j hj => ?_, fun j b hj => ?_⟩
    · rw [hstale]
      exact (List.drop_sublist ..).count_le _ |>.trans h.cr
    · rw [hstale, List.getElem?_drop]
      exact h.half _ (by omega)
    · rw [hstale, List.getElem?_drop]
      exact h.upper _ b (by omega)
  · refine of_zero fun b hb => ?_
    rw [Cells.write, Cells.stale_ofParts, Cells.room, if_neg hfits, List.drop_replicate] at hb
    exact List.eq_of_mem_replicate hb

theorem shift (h : Clean v) {l : Bytes} (hend : v.live = l ++ crlf) (hlen : 2 * v.len ≤ v.cap + 2) :
    Clean (v.shift v.len le_rfl) := by
  have hle := v.len_le_cap
  have heven : 2 ∣ v.cap := Dvd.dvd.trans (by decide) v.aligned
  have hl : l.length + 2 = v.len := by rw [← v.length_live, hend]; simp
  have hstale := stale_shift v
  have hcap := v.cap_shift (n := v.len) le_rfl
  have hzero : (v.shift v.len le_rfl).len = 0 := Nat.sub_self _
  have hlow {j : ℕ} (hj : j < v.cap - v.len) : (v.shift v.len le_rfl).stale[j]? = v.stale[j]? := by
    rw [hstale, List.getElem?_append_left (by rw [v.length_stale]; exact hj)]
  have hhigh {j : ℕ} (hj : v.cap - v.len ≤ j) : (v.shift v.len le_rfl).stale[j]? = v.mem[j]? := by
    rw [hstale, List.getElem?_append_right (by rw [v.length_stale]; exact hj), v.length_stale,
      List.getElem?_drop, Nat.add_sub_cancel' hj]
  have hmem {j : ℕ} (hj : v.len ≤ j) : v.mem[j]? = v.stale[j - v.len]? := by
    rw [Cells.stale, List.getElem?_drop, Nat.add_sub_cancel' hj]
  refine ⟨?_, fun j hj => ?_, fun j b hj hb => ?_⟩
  · rw [hstale, List.count_append]
    -- The end of the block stands there a second time: zeros, or the CR LF of the request as well.
    by_cases hhalf : 2 * v.len ≤ v.cap
    · have hdrop : v.mem.drop (v.cap - v.len) = v.stale.drop (v.cap - v.len - v.len) := by
        rw [Cells.stale, List.drop_drop]
        congr 1
        omega
      have hnone : (v.mem.drop (v.cap - v.len)).count 0x0d = 0 := by
        refine List.count_eq_zero_of_not_mem fun hcr => ?_
        obtain ⟨j, hj⟩ := List.mem_iff_getElem?.mp hcr
        rw [hdrop, List.getElem?_drop] at hj
        rcases Nat.lt_or_ge v.cap (2 * (v.len + (v.cap - v.len - v.len + j))) with hlt | hge
        · exact absurd (h.upper _ _ hlt hj) (by decide)
        · exact h.half _ (by omega) hj
      rw [hnone]
      exact h.cr
    · have hdrop : v.mem.drop (v.cap - v.len) = crlf ++ v.stale := by
        rw [← v.live_append_stale, hend, List.append_assoc,
          List.drop_left' (by omega)]
      have hnone : v.stale.count 0x0d = 0 := by
        refine List.count_eq_zero_of_not_mem fun hcr => ?_
        obtain ⟨j, hj⟩ := List.mem_iff_getElem?.mp hcr
        exact absurd (h.upper j _ (by omega) hj) (by decide)
      rw [hdrop, List.count_append, hnone]
      decide
  · rw [hzero, hcap] at hj
    by_cases hlt : j < v.cap - v.len
    · rw [hlow hlt]
      exact fun hcr => absurd (h.upper j _ (by omega) hcr) (by decide)
    · rw [hhigh (by omega)]
      by_cases hle' : v.len ≤ j
      · rw [hmem hle']
        exact h.half _ (by omega)
      · have hlast : v.mem[j]? = some 0x0a := by
          rw [← v.live_append_stale, hend, List.append_assoc,
            List.getElem?_append_right (by omega), show j - l.length = 1 by omega]
          rfl
        rw [hlast]
        decide
  · rw [hzero, hcap] at hj
    by_cases hlt : j < v.cap - v.len
    · rw [hlow hlt] at hb
      exact h.upper j b (by omega) hb
    · rw [hhigh (by omega), hmem (by omega)] at hb
      exact h.upper _ b (by omega) hb

/-- The codec finds nothing in what the block holds after the removal. -/
theorem getHeader_window (h : Clean v) {l : Bytes} (hend : v.live = l ++ crlf)
    (hlen : 2 * v.len ≤ v.cap + 2) : getHeader (View.window v) = none := by
  have hcr := (h.shift hend hlen).cr
  rw [stale_shift] at hcr
  exact getHeader_of_count_le (((List.take_sublist ..).count_le _).trans hcr)

end Clean
end NetDemo.Client

namespace NetDemo.Http.Request
open Foundation

def decoded (r : Request) : HttpRequest where
  m_version := r.version.text
  m_headers := Headers.insertAll [] (kvs r.fields)
  m_nHeaderLength := r.header.length + 4
  m_method := r.method.text
  m_url := r.url
  m_body := (r.header.length + 4,
    atoi (getHeaderField (Headers.insertAll [] (kvs r.fields)) (ascii "content-length")))

theorem text_of_bodyless {r : Request} (hb : r.body = []) : r.text = r.header ++ crlfcrlf := by
  rw [text, hb, List.append_nil]

theorem length_text_pos (r : Request) : 0 < r.text.length := by
  rw [length_text]
  omega

theorem getHeader_text (r : Request) (e : Bytes) : getHeader (r.text ++ e) = some r.header.length := by
  rw [text, List.append_assoc, getHeader_header]

theorem getHeader_of_lt {r : Request} (hb : r.body = []) {d : Bytes} (hd : d <+: r.text)
    (hlen : d.length < r.text.length) : getHeader d = none := by
  cases h : getHeader d with
  | none => rfl
  | some i =>
    obtain ⟨e, he⟩ := hd
    have hi := getHeader_append h e
    have hle := getHeader_le h
    have htext := r.getHeader_text []
    rw [List.append_nil, ← he, hi] at htext
    obtain rfl := Option.some.inj htext
    rw [length_text, hb, List.length_nil] at hlen
    omega

theorem tryDecode_text {r : Request} (w : ℕ) (hget : r.method = .get) (hp : r.Plain) :
    (HttpCodec.tryDecode w .new r.text).2.m_req = r.decoded := by
  have hi := r.getHeader_text []
  have htake := r.take_header []
  rw [List.append_nil] at hi htake
  have ha := r.accepts w [] hget hp
  rw [List.append_nil] at ha
  rw [HttpCodec.tryDecode_of_accepts hi r.header_pos (by rw [htake]; exact ha), htake]
  obtain ⟨h₁, h₂, -⟩ := r.words_startLine
  simp only [HttpCodec.answered, HttpCodec.writeResponse, HttpCodec.parsed, HttpCodec.scanned, decoded,
    firstLine_header, versionOf_header, h₁, h₂]
  rfl

end NetDemo.Http.Request

namespace NetDemo.Client
open Foundation Memory Http

/-! ### One completion -/

namespace View

theorem tryDecode_none {w : ℕ} {d : Bytes} (h : getHeader d = none) (c : HttpCodec) :
    c.tryDecode w d = (0, c) := by
  rw [HttpCodec.tryDecode, h]

theorem notifyPackageReceived_partial {w fuel : ℕ} {x : View UInt8} (h : getHeader x.inBuf.live = none) :
    x.notifyPackageReceived w (fuel + 1) = some x := by
  have hzero : (HttpCodec.new.tryDecode w (x.inBuf.mem.take x.inBuf.len)).1 = 0 := by
    rw [show x.inBuf.mem.take x.inBuf.len = x.inBuf.live from rfl, tryDecode_none h]
  rw [notifyPackageReceived, requestLoop_last (by rw [round_ret]; exact hzero.le), round_zero hzero]

theorem notifyPackageReceived_answers {w fuel : ℕ} {x : View UInt8} (hsmall : x.inBuf.len < 2 ^ 32)
    (h : HttpCodec.Answers w [] x.inBuf.live) (hwin : getHeader (window x.inBuf) = none) :
    x.notifyPackageReceived w (fuel + 2) = some (x.reply (HttpCodec.new.tryDecode w x.inBuf.live).2
      (HttpCodec.new.tryDecode w x.inBuf.live).1) := by
  have hpos : 0 < (HttpCodec.new.tryDecode w x.inBuf.live).1 :=
    (HttpCodec.tryDecode_pos_iff (by rwa [Cells.length_live])).mpr h
  have hround : 0 < (x.round w x.inBuf.len HttpCodec.new).1 := hpos
  have hin : (x.round w x.inBuf.len HttpCodec.new).2.2.inBuf.mem.take x.inBuf.len = window x.inBuf := by
    rw [inBuf_round hround, Cells.remove_len]
    rfl
  have hzero : ((x.round w x.inBuf.len HttpCodec.new).2.1.tryDecode w
      ((x.round w x.inBuf.len HttpCodec.new).2.2.inBuf.mem.take x.inBuf.len)).1 = 0 := by
    rw [hin, tryDecode_none hwin]
  rw [notifyPackageReceived, requestLoop_more hround,
    requestLoop_last (by rw [round_ret]; exact hzero.le), round_zero hzero, round_pos hpos]
  rfl

end View

/-! ### What the server does with its client -/

/-- Decoded requests, calls of `send` and the end of the connection. -/
def Note.asVisible {α : Type} : Note α → Option (Note α)
  | .decoded req => some (.decoded req)
  | .send pData => some (.send pData)
  | .closed => some .closed
  | _ => none

def Link.visible {α : Type} (l : Link α) : List (Note α) := l.log.filterMap Note.asVisible

/-- The socket is open, and no `WSASend` and no `WSARecv` will fail. -/
structure Link.Open {α : Type} (l : Link α) : Prop where
  socket : l.m_socket = true
  net : ∀ k, l.net k = true

section
variable {α : Type}

theorem Link.postRecvOrClose_open {l : Link α} (h : l.Open) :
    l.postRecvOrClose = { l.answer.2 with recvs := l.recvs + 1 } := by
  rcases l.postRecv_cases with ⟨-, -, hp⟩ | ⟨-, hno, -⟩ | ⟨hno, -⟩
  · rw [postRecvOrClose, hp]
    rfl
  · rw [h.net] at hno
    cases hno
  · rw [h.socket] at hno
    cases hno

/-- `l'` came from `l` without a failure and with these notes on the way. -/
structure Link.Went (l l' : Link α) (notes : List (Note α)) : Prop where
  isOpen : l'.Open
  recvs : l'.recvs = l.recvs
  visible : l'.visible = l.visible ++ notes

theorem Link.Went.trans {l l' l'' : Link α} {notes notes' : List (Note α)} (h : l.Went l' notes)
    (h' : l'.Went l'' notes') : l.Went l'' (notes ++ notes') :=
  ⟨h'.isOpen, h'.recvs.trans h.recvs, by rw [h'.visible, h.visible, List.append_assoc]⟩

theorem Link.went_note {l : Link α} (h : l.Open) (n : Note α) : l.Went (l.note n) n.asVisible.toList :=
  ⟨⟨h.socket, h.net⟩, rfl, l.filterMap_note _ n⟩

theorem Link.went_release {l : Link α} (h : l.Open) : l.Went l.releaseClientContext [] := by
  rw [releaseClientContext_eq]
  exact ⟨⟨h.socket, h.net⟩, rfl, (List.append_nil _).symm⟩

theorem Link.went_answer {l : Link α} (h : l.Open) : l.Went l.answer.2 [] :=
  ⟨⟨h.socket, fun k => h.net (k + 1)⟩, rfl, (List.append_nil _).symm⟩

theorem Link.went_enterIoLoop {l : Link α} (h : l.Open) : l.Went l.enterIoLoop [] :=
  ⟨⟨h.socket, h.net⟩, rfl, (List.append_nil _).symm⟩

namespace View

theorem went_postSend {x : View α} (h : x.link.Open) : x.link.Went x.postSend.2.link [] := by
  have hanswer := Link.went_answer h
  rw [postSend_open h.socket h.net]
  exact hanswer.trans (Link.went_note hanswer.isOpen (.posted x.out))

theorem postSend_result {x : View α} (h : x.link.Open) : x.postSend.1 = .successful := by
  rw [postSend_open h.socket h.net]

theorem went_sent {x : View α} (h : x.link.Open) (pData : List α) :
    x.link.Went (x.sent pData).2.link [.send pData] := by
  have hnote := Link.went_note h (.send pData)
  by_cases hout : x.out = []
  · rw [sent_idle hout, firstSend]
    have henter := Link.went_enterIoLoop hnote.isOpen
    have hx : ({ (x.modify fun l => l.note (.send pData)).modify Link.enterIoLoop with
        out := pData } : View α).link.Open := henter.isOpen
    simp only [postSend_result hx, reduceCtorEq, if_false]
    exact hnote.trans (henter.trans (went_postSend hx))
  · rw [sent_busy hout]
    exact hnote.trans (Link.went_note hnote.isOpen (.queued pData))

theorem went_postRest {x : View α} (h : x.link.Open) : x.link.Went x.postRest.link [] := by
  unfold postRest
  split_ifs
  · simp only [postSend_result h, reduceCtorEq, if_false]
    exact went_postSend h
  · exact ⟨h, rfl, (List.append_nil _).symm⟩

theorem inBuf_postRest (x : View α) : x.postRest.inBuf = x.inBuf := by
  simp only [postRest]
  split_ifs <;> simp only [modify_inBuf, postSend_inBuf]

theorem went_handleSend {x : View α} (h : x.link.Open) {n : ℕ} (hok : x.queue = [] ∨ n < x.out.length) :
    ∃ x', x.handleSend n = some x' ∧ x'.inBuf = x.inBuf ∧ x.link.Went x'.link [] := by
  by_cases hd : x.out.drop n = []
  · have hq : x.queue = [] := hok.resolve_right fun hlt => by
      rw [List.drop_eq_nil_iff] at hd
      omega
    rw [handleSend_done hd, nextOutBuf]
    simp only [hq, Option.map_some]
    rw [postRest_nil (by rw [modify_out])]
    exact ⟨_, rfl, rfl, Link.went_release h⟩
  · exact ⟨_, handleSend_rest hd, inBuf_postRest _, went_postRest (x := { x with out := x.out.drop n }) h⟩

theorem went_sendCompleted {x : View α} (h : x.link.Open) {n : ℕ} (hok : x.queue = [] ∨ n < x.out.length) :
    ∃ x', x.sendCompleted n = some x' ∧ x'.inBuf = x.inBuf ∧ x.link.Went x'.link [] := by
  have hstay : x.link.Went x.link [] := ⟨h, rfl, (List.append_nil _).symm⟩
  rw [sendCompleted]
  split
  · exact ⟨x, rfl, rfl, hstay⟩
  next bytes rest _ =>
  split_ifs
  swap
  · exact ⟨x, rfl, rfl, hstay⟩
  have hnote := Link.went_note h (.reported (bytes.take n))
  obtain ⟨x', e, hin, hwent⟩ := went_handleSend (x := { x with
    sends := rest, link := x.link.note (.reported (bytes.take n)) }) hnote.isOpen hok
  exact ⟨x', e, hin, hnote.trans hwent⟩

end View
end

namespace View

theorem went_reply {x : View UInt8} (h : x.link.Open) (codec : HttpCodec) {ret : ℤ} (hret : 0 < ret) :
    x.link.Went (x.reply codec ret).link [.decoded codec.m_req, .send codec.responseMessage] := by
  have hnote := Link.went_note h (.decoded codec.m_req)
  simp only [reply, if_pos hret]
  exact hnote.trans (went_sent (x := x.modify fun l => l.note (.decoded codec.m_req)) hnote.isOpen _)

theorem notifyPackageReceived_once {w : ℕ} (fuel : ℕ) {x : View UInt8} (hopen : x.link.Open)
    (hclean : Clean x.inBuf) {l : Bytes} (hend : x.inBuf.live = l ++ crlf)
    (hhalf : 2 * x.inBuf.len ≤ x.inBuf.cap + 2) (h : HttpCodec.Answers w [] x.inBuf.live) :
    ∃ x', x.notifyPackageReceived w (fuel + 2) = some x' ∧
      x'.inBuf = x.inBuf.shift x.inBuf.len le_rfl ∧
      x.link.Went x'.link [.decoded (HttpCodec.new.tryDecode w x.inBuf.live).2.m_req,
        .send HttpCodec.okResponse] := by
  have hlen := h.1
  have hpos : 0 < (HttpCodec.new.tryDecode w x.inBuf.live).1 :=
    (HttpCodec.tryDecode_pos_iff (by omega)).mpr h
  rw [x.inBuf.length_live] at hlen
  have hwent := went_reply hopen (HttpCodec.new.tryDecode w x.inBuf.live).2 hpos
  rw [HttpCodec.responseMessage, HttpCodec.tryDecode_pos hpos] at hwent
  exact ⟨_, notifyPackageReceived_answers (by omega) h (hclean.getHeader_window hend hhalf),
    by rw [inBuf_reply, Cells.remove_len], hwent⟩

end View

/-! ### Whole runs -/

def texts (rs : List Request) : Bytes := rs.flatMap Request.text

/-- The requests that end within the first `n` bytes. -/
def completed : List Request → ℕ → List Request
  | [], _ => []
  | r :: rs, n => if r.text.length ≤ n then r :: completed rs (n - r.text.length) else []

theorem completed_append (done rest : List Request) (n : ℕ) :
    completed (done ++ rest) ((texts done).length + n) = done ++ completed rest n := by
  induction done with
  | nil => simp [texts]
  | cons r done ih =>
    have htexts : (texts (r :: done)).length = r.text.length + (texts done).length := by simp [texts]
    rw [List.cons_append, completed, htexts, if_pos (by omega),
      show r.text.length + (texts done).length + n - r.text.length = (texts done).length + n by omega, ih]
    rfl

theorem completed_of_lt {rest : List Request} {n : ℕ} (h : ∀ r ∈ rest.head?, n < r.text.length) :
    completed rest n = [] := by
  cases rest with
  | nil => rfl
  | cons r rest => exact if_neg (Nat.not_le.mpr (h r rfl))

def exchange (r : Request) : List (Note UInt8) := [.decoded r.decoded, .send HttpCodec.okResponse]

/-- All these requests were decoded and answered in order, and nothing else happened. -/
structure Answered (s : ClientContext UInt8) (rs : List Request) : Prop where
  visible : s.link.visible = rs.flatMap exchange
  nonempty : ∀ pData ∈ s.link.sent, pData ≠ []
  isOpen : .closed ∉ s.link.log

def ClientContext.Event.bytes : ClientContext.Event → Bytes
  | .recv m_recvBuf => m_recvBuf
  | _ => []

def received (es : List ClientContext.Event) : Bytes := es.flatMap ClientContext.Event.bytes

/-- A receive with bytes in it or a send, both without an error. -/
def ClientContext.Event.Proper : ClientContext.Event → Prop
  | .recv m_recvBuf => m_recvBuf ≠ [] ∧ m_recvBuf.length ≤ ClientContext.IO_BUF_SIZE
  | .send _ => True
  | _ => False

/-- The bytes `d`, with their end just written to a block of `cap` bytes: a header block in them has
nothing behind it, and it takes about half of the block at most. -/
structure Fits (cap : ℕ) (d : Bytes) : Prop where
  short : d.length ≤ 2 ^ 32 - 1024
  last : ∀ i, getHeader d = some i → i + 4 = d.length
  half : ∀ i, getHeader d = some i → 2 * d.length ≤ (if d.length < cap then cap else alignUp d.length) + 2

/-- The completion does not meet one of the defects of `m_inBuf` and `m_outBufQueue`. -/
def Unharmed (s : ClientContext UInt8) : ClientContext.Event → Prop
  | .recv m_recvBuf => ∀ bytes, bufferBytes s.heap s.m_inBuf = some bytes →
      Fits s.m_inBuf.m_nSize (bytes ++ m_recvBuf)
  | .send dwBytesTransferred =>
      s.m_outBufQueue = [] ∨ dwBytesTransferred < s.m_outBuf.getBufferLen
  | _ => True

/-- The client sent the bytes `got` of the requests `rs` so far, and `k` receives are in flight. -/
structure Serving (rs : List Request) (got : Bytes) (k : ℕ) (x : View UInt8) : Prop where
  isOpen : x.link.Open
  recvs : x.link.recvs = k
  clean : Clean x.inBuf
  split : ∃ done rest, rs = done ++ rest ∧ got = texts done ++ x.inBuf.live ∧
    x.link.visible = done.flatMap exchange ∧ ∀ r ∈ rest.head?, x.inBuf.len < r.text.length

namespace Serving
variable {rs : List Request} {got : Bytes} {k : ℕ} {x : View UInt8}

theorem accepted (rs : List Request) : Serving rs [] 1 (View.accepted fun _ => true) where
  isOpen := ⟨rfl, fun _ => rfl⟩
  recvs := rfl
  clean := Clean.empty
  split := ⟨[], rs, rfl, rfl, rfl, fun r _ => r.length_text_pos⟩

theorem taken (h : Serving rs got 1 x) :
    Serving rs got 0 { x with link.recvs := x.link.recvs - 1 } where
  isOpen := ⟨h.isOpen.socket, h.isOpen.net⟩
  recvs := congrArg (· - 1) h.recvs
  clean := h.clean
  split := h.split

theorem postRecv (h : Serving rs got 0 x) : Serving rs got 1 (x.modify Link.postRecvOrClose) := by
  rw [View.modify, Link.postRecvOrClose_open h.isOpen]
  exact ⟨⟨h.isOpen.socket, fun k => h.isOpen.net (k + 1)⟩, congrArg (· + 1) h.recvs, h.clean, h.split⟩

theorem completion (h : Serving rs got k x) {n : ℕ} (hok : x.queue = [] ∨ n < x.out.length) :
    ∃ x', x.sendCompleted n = some x' ∧ Serving rs got k x' := by
  obtain ⟨x', e, hin, hwent⟩ := View.went_sendCompleted h.isOpen hok
  refine ⟨x', e, hwent.isOpen, hwent.recvs.trans h.recvs, by rw [hin]; exact h.clean, ?_⟩
  rw [hin, hwent.visible, List.append_nil]
  exact h.split

theorem answer {done rest : List Request} {r : Request} (w fuel : ℕ) (hopen : x.link.Open)
    (hclean : Clean x.inBuf) (hlive : x.inBuf.live = r.text) (hvisible : x.link.visible = done.flatMap exchange)
    (hget : r.method = .get) (hbody : r.body = []) (hp : r.Plain)
    (hhalf : 2 * x.inBuf.len ≤ x.inBuf.cap + 2) (hshort : x.inBuf.len < 2 ^ 31) :
    ∃ x', x.notifyPackageReceived w (fuel + 2) = some x' ∧
      Serving (done ++ r :: rest) (texts done ++ x.inBuf.live) x.link.recvs x' := by
  have hlen : r.text.length < 2 ^ 31 := by rwa [← hlive, Cells.length_live]
  have hend : x.inBuf.live = (r.header ++ crlf) ++ crlf := by
    rw [hlive, Request.text_of_bodyless hbody, List.append_assoc]
    rfl
  have hanswers := r.answers w [] hget hp (by rwa [List.append_nil])
  rw [List.append_nil] at hanswers
  rw [← hlive] at hanswers
  obtain ⟨x', e, hin, hwent⟩ := View.notifyPackageReceived_once fuel hopen hclean hend hhalf hanswers
  refine ⟨x', e, hwent.isOpen, hwent.recvs, by rw [hin]; exact hclean.shift hend hhalf,
    done ++ [r], rest, by simp, ?_, ?_, ?_⟩
  · rw [hin, Cells.live_shift, hlive, List.drop_of_length_le (by rw [← hlive, Cells.length_live])]
    simp [texts]
  · rw [hwent.visible, hvisible, hlive, r.tryDecode_text w hget hp, List.flatMap_append]
    simp [exchange]
  · rw [hin]
    exact fun r' _ => Nat.lt_of_le_of_lt (Nat.sub_self _).le r'.length_text_pos

theorem pending {done rest : List Request} {d : Bytes} (hd : d ≠ [])
    (hpre : texts done ++ x.inBuf.live ++ d <+: texts (done ++ rest)) :
    ∃ r rest', rest = r :: rest' ∧ x.inBuf.live ++ d <+: r.text ++ texts rest' := by
  have happ : texts (done ++ rest) = texts done ++ texts rest := List.flatMap_append
  rw [happ, List.append_assoc, List.prefix_append_right_inj] at hpre
  cases rest with
  | nil =>
    have hnil := List.prefix_nil.mp hpre
    exact absurd (List.append_eq_nil_iff.mp hnil).2 hd
  | cons r rest' => exact ⟨r, rest', rfl, hpre⟩

theorem handleRecv (h : Serving rs got 0 x) (hrs : ∀ r ∈ rs, r.method = .get ∧ r.body = [] ∧ r.Plain)
    {d : Bytes} (hd : d ≠ []) (hcap : x.inBuf.cap ≤ 2 ^ 32 - 1024)
    (hfit : Fits x.inBuf.cap (x.inBuf.live ++ d)) (hpre : got ++ d <+: texts rs) (w fuel : ℕ) :
    ∃ x', x.handleRecv w (fuel + 2) d = some x' ∧ Serving rs (got ++ d) 1 x' := by
  obtain ⟨done, rest, rfl, rfl, hvisible, -⟩ := h.split
  obtain ⟨r, rest, rfl, hpend⟩ := pending hd hpre
  obtain ⟨hget, hbody, hp⟩ := hrs r (by simp)
  have hlen : (x.inBuf.live ++ d).length = x.inBuf.len + d.length := by simp
  have hshort := hfit.short
  have hlive := Cells.live_write x.inBuf d
  rw [View.handleRecv, if_pos (by omega), List.append_assoc, ← hlive]
  suffices hloop : ∃ x', ({ x with inBuf := x.inBuf.write d } : View UInt8).notifyPackageReceived w
      (fuel + 2) = some x' ∧
        Serving (done ++ r :: rest) (texts done ++ (x.inBuf.write d).live) 0 x' by
    obtain ⟨x', e, h'⟩ := hloop
    exact ⟨_, by rw [e, Option.map_some], h'.postRecv⟩
  by_cases hlt : (x.inBuf.live ++ d).length < r.text.length
  · -- The request is not complete yet.
    have hprefix : x.inBuf.live ++ d <+: r.text :=
      List.prefix_of_prefix_length_le hpend (List.prefix_append ..) hlt.le
    refine ⟨_, View.notifyPackageReceived_partial ?_, h.isOpen, h.recvs, h.clean.write d, done, r :: rest,
      rfl, rfl, hvisible, ?_⟩
    · rw [hlive]
      exact Request.getHeader_of_lt hbody hprefix hlt
    · rintro r' hr'
      obtain rfl : r = r' := by simpa using hr'
      rw [Cells.len_write]
      omega
  · -- It is complete, and by `hfit` nothing came behind it.
    obtain ⟨e, he⟩ : r.text <+: x.inBuf.live ++ d :=
      List.prefix_of_prefix_length_le (List.prefix_append ..) hpend (by omega)
    have hi := r.getHeader_text e
    rw [he] at hi
    have hlast := hfit.last _ hi
    have hhalf := hfit.half _ hi
    have htext := r.length_text
    rw [hbody, List.length_nil] at htext
    have hnil : e.length = 0 := by
      have := congrArg List.length he
      rw [List.length_append] at this
      omega
    rw [List.eq_nil_of_length_eq_zero hnil, List.append_nil] at he
    have hwcap := x.inBuf.cap_write d
    have hwlen := x.inBuf.len_write d
    have halign := alignUp_lt (x.inBuf.len + d.length)
    rw [hlen] at hhalf
    rw [← h.recvs]
    refine answer (x := { x with inBuf := x.inBuf.write d }) w fuel h.isOpen (h.clean.write d)
      (hlive.trans he.symm) hvisible hget hbody hp ?_ ?_
    · rw [hwcap, hwlen]
      exact hhalf
    · change (x.inBuf.write d).len < 2 ^ 31
      split_ifs at hhalf <;> omega

theorem step (h : Serving rs got 1 x) {s : ClientContext UInt8} (hx : Holds none s x)
    (hrs : ∀ r ∈ rs, r.method = .get ∧ r.body = [] ∧ r.Plain) {e : ClientContext.Event} (he : e.Proper)
    (hok : Unharmed s e) (hpre : got ++ e.bytes <+: texts rs) (w fuel : ℕ) :
    ∃ s' x', s.step w (fuel + 2) e = some s' ∧ Holds none s' x' ∧ Serving rs (got ++ e.bytes) 1 x' := by
  have hrel := hx.step w (fuel + 2) e
  suffices hview : ∃ x', x.step w (fuel + 2) e = some x' ∧ Serving rs (got ++ e.bytes) 1 x' by
    obtain ⟨x', e', h'⟩ := hview
    rw [e'] at hrel
    obtain ⟨s', hs', hx'⟩ := rel_some_right hrel
    exact ⟨s', x', hs', hx', h'⟩
  cases e with
  | recv d =>
    have hload : bufferBytes s.heap s.m_inBuf = some x.inBuf.live := by
      rw [bufferBytes, hx.inLen]
      exact hx.load_window x.inBuf.len_le_cap
    have hfit := hok _ hload
    rw [hx.inBuf.size] at hfit
    have hpos : 0 < x.link.recvs := by
      rw [h.recvs]
      exact Nat.one_pos
    rw [View.step]
    simp only [if_pos (show 0 < x.link.recvs ∧ d ≠ [] ∧ d.length ≤ _ from ⟨hpos, he⟩)]
    exact h.taken.handleRecv hrs he.1 hx.inBuf.cap_le hfit hpre w fuel
  | send n =>
    obtain ⟨x', e', h'⟩ := h.completion (n := n) (by
      have hqueue := hx.queue
      rcases hok with hq | hlt
      · rw [hq] at hqueue
        exact .inl (List.forall₂_nil_left_iff.mp hqueue)
      · exact .inr (by rwa [hx.outLen] at hlt))
    have hbytes : (ClientContext.Event.send n).bytes = [] := rfl
    exact ⟨x', e', by rwa [hbytes, List.append_nil]⟩
  | recvClose => exact he.elim
  | sendClose => exact he.elim

theorem run (h : Serving rs got 1 x) {s : ClientContext UInt8} (hx : Holds none s x)
    (hrs : ∀ r ∈ rs, r.method = .get ∧ r.body = [] ∧ r.Plain) {w fuel : ℕ}
    {es : List ClientContext.Event} (hproper : ∀ e ∈ es, e.Proper)
    (hmeets : Meets (ClientContext.step w (fuel + 2)) Unharmed s es)
    (hpre : got ++ received es <+: texts rs) :
    ∃ s' x', run (ClientContext.step w (fuel + 2)) s es = some s' ∧ Holds none s' x' ∧
      Serving rs (got ++ received es) 1 x' := by
  induction es generalizing s x got with
  | nil => exact ⟨s, x, rfl, hx, by simpa [received] using h⟩
  | cons e es ih =>
    have hbytes : received (e :: es) = e.bytes ++ received es := rfl
    rw [hbytes, ← List.append_assoc] at hpre ⊢
    obtain ⟨s', x', hs', hx', h'⟩ := h.step hx hrs (hproper e List.mem_cons_self) hmeets.1
      ((List.prefix_append ..).trans hpre) w fuel
    obtain ⟨s'', x'', hs'', hx'', h''⟩ :=
      ih h' hx' (fun e he => hproper e (List.mem_cons_of_mem _ he)) (hmeets.2 s' hs') hpre
    exact ⟨s'', x'', by rw [run_cons, hs', Option.bind_some, hs''], hx'', h''⟩

theorem answered (h : Serving rs got k x) {s : ClientContext UInt8} (hx : Holds none s x) :
    Answered s (completed rs got.length) := by
  obtain ⟨done, rest, rfl, rfl, hvisible, hlt⟩ := h.split
  rw [List.length_append, Cells.length_live, completed_append, completed_of_lt hlt, List.append_nil]
  rw [← hx.link] at hvisible
  have hmem : ∀ n ∈ s.link.visible, ∃ r, n ∈ exchange r := fun n hn => by
    rw [hvisible, List.mem_flatMap] at hn
    obtain ⟨r, -, hr⟩ := hn
    exact ⟨r, hr⟩
  refine ⟨hvisible, fun pData hsent => ?_, fun hclosed => ?_⟩
  · obtain ⟨n, hn, hsend⟩ := List.mem_filterMap.mp hsent
    obtain ⟨r, hr⟩ := hmem (.send pData) (List.mem_filterMap.mpr ⟨n, hn, by
      cases n <;> simp_all [Note.asSent, Note.asVisible]⟩)
    obtain rfl : pData = HttpCodec.okResponse := by simpa [exchange] using hr
    exact HttpCodec.okResponse_ne
  · obtain ⟨r, hr⟩ := hmem .closed (List.mem_filterMap.mpr ⟨_, hclosed, rfl⟩)
    simp [exchange] at hr

end Serving

/-- On a connection without failures every request is decoded and answered once, in order, as long as
no completion meets one of the defects. Every beginning of such a run is such a run. -/
theorem answered_of_unharmed {w fuel : ℕ} (hfuel : 2 ≤ fuel) {rs : List Request}
    (hrs : ∀ r ∈ rs, r.method = .get ∧ r.body = [] ∧ r.Plain) {es : List ClientContext.Event}
    (hproper : ∀ e ∈ es, e.Proper) (hpre : received es <+: texts rs)
    (hmeets : Meets (ClientContext.step w fuel) Unharmed (.accepted fun _ => true) es) :
    ∃ s, run (ClientContext.step w fuel) (.accepted fun _ => true) es = some s ∧
      Answered s (completed rs (received es).length) := by
  obtain ⟨fuel, rfl⟩ := Nat.exists_eq_add_of_le' hfuel
  obtain ⟨s, x, hs, hx, h⟩ := (Serving.accepted rs).run (Holds.accepted _) hrs hproper hmeets
    (by rwa [List.nil_append])
  rw [List.nil_append] at h
  exact ⟨s, hs, h.answered hx⟩

theorem answered_of_unharmed_index : ∃ s,
    run (ClientContext.step 32 2) (.accepted fun _ => true) [.recv (Request.index 0).text] = some s ∧
      Answered s (completed [Request.index 0] (received [.recv (Request.index 0).text]).length) := by
  have hlen := Request.length_index 0
  refine @answered_of_unharmed 32 2 le_rfl [Request.index 0] ?_ _ ?_ ?_ ⟨?_, fun _ _ => trivial⟩
  · intro r hr
    rw [List.mem_singleton.mp hr]
    exact ⟨rfl, rfl, Request.index_plain 0⟩
  · intro e he
    rw [List.mem_singleton.mp he]
    exact ⟨List.ne_nil_of_length_pos (by omega), by rw [hlen]; decide⟩
  · simp [received, texts, ClientContext.Event.bytes]
  · rintro bytes hbytes
    obtain rfl : [] = bytes := Option.some.inj hbytes
    refine ⟨by rw [List.nil_append, hlen]; decide, ?_, fun _ _ => ?_⟩
    · rw [List.nil_append]
      decide
    · rw [List.nil_append, hlen]
      decide

/-- Two requests in one completion get one answer. -/
theorem not_answered_two_index : ¬ ∃ s,
    run (ClientContext.step 32 2) (.accepted fun _ => true)
      [.recv ((Request.index 0).text ++ (Request.index 0).text)] = some s ∧
    Answered s (completed [Request.index 0, Request.index 0]
      (received [.recv ((Request.index 0).text ++ (Request.index 0).text)]).length) := by
  rintro ⟨s, hs, h⟩
  have hrun : (run (ClientContext.step 32 2) (.accepted fun _ => true)
      [.recv ((Request.index 0).text ++ (Request.index 0).text)]).map
        (fun s => s.link.visible.length) = some 2 := by
    decide +kernel
  have hall : ((completed [Request.index 0, Request.index 0]
      (received [.recv ((Request.index 0).text ++ (Request.index 0).text)]).length).flatMap
        exchange).length = 4 := by
    decide +kernel
  rw [hs, Option.map_some, h.visible, hall] at hrun
  exact absurd hrun (by decide)

end NetDemo.Client
