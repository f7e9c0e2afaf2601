import NetDemo.Client.Likeness
import NetDemo.Http.Extend

/-! Requests that tell one context from another: what a first request brings to light of the bytes, the
messages and the block that an earlier connection left. -/

namespace NetDemo.Http

theorem exists_getHeader (t : Bytes) : ∃ i, getHeader (t ++ crlfcrlf) = some i := by
  induction t with
  | nil => exact ⟨0, rfl⟩
  | cons a t ih =>
    obtain ⟨i, hi⟩ := ih
    rw [List.cons_append, getHeader_cons, hi]
    split_ifs
    · exact ⟨0, rfl⟩
    · exact ⟨i + 1, rfl⟩

theorem drop_getHeader {d : Bytes} {i : ℕ} (h : getHeader d = some i) : crlfcrlf <+: d.drop i := by
  obtain ⟨e, he⟩ := getHeader_split h
  have hsplit : d.take i ++ d.drop i = d.take i ++ (crlfcrlf ++ e) := by
    rw [List.take_append_drop, ← List.append_assoc, ← he]
  exact ⟨e, (List.append_cancel_left hsplit).symm⟩

namespace HttpCodec

theorem awaited_le {w : ℕ} {c : HttpCodec}
    (h : atoi (getHeaderField c.m_req.m_headers (ascii "content-length")) = 0) :
    awaited w c ≤ c.m_req.m_nHeaderLength := by
  have hcast : ((c.m_req.m_nHeaderLength : ℕ) : ℤ) % 2 ^ w = (c.m_req.m_nHeaderLength % 2 ^ w : ℕ) := by
    push_cast
    rfl
  rw [awaited, h, Int.add_zero, hcast]
  exact Int.ofNat_le.mpr (Nat.mod_le ..)

theorem tryDecode_ne_zero {w : ℕ} {c : HttpCodec} {d : Bytes} {i : ℕ} (hi : getHeader d = some i) (h0 : 0 < i)
    (hlen : d.length < 2 ^ 32) {v : Bytes} (hv : c.m_req.m_headers.lookup (ascii "content-length") = some v)
    (hzero : atoi v = 0) : (tryDecode w c d).1 ≠ 0 := by
  have hle := getHeader_le hi
  rcases tryDecode_verdict w c d with ⟨hnone, -⟩ | ⟨j, -, -, -, hneg, -⟩ | ⟨j, kvs, hj, -, -, hfin⟩
  · have := hnone i hi
    omega
  · rw [hneg]
    decide
  · obtain rfl := Option.some.inj (hi.symm.trans hj)
    have hfield : getHeaderField ((c.scanned i).parsed (d.take i) kvs).m_req.m_headers
        (ascii "content-length") = v := by
      show ((c.m_req.m_headers.insertAll kvs).lookup _).getD [] = v
      rw [Headers.lookup_insertAll, hv]
      rfl
    have hawaited : awaited w ((c.scanned i).parsed (d.take i) kvs) ≤ (i + 4 : ℕ) :=
      awaited_le (by rw [hfield, hzero])
    rw [hfin, Ne, finish_eq_zero_iff (by omega) hlen]
    omega

/-- When bytes for which the codec waits and a request behind them are read as that request, there
were no such bytes. -/
theorem eq_nil_of_waiting {w : ℕ} {l g : Bytes} {i : ℕ} (hlen : l.length < 2 ^ 32)
    (hwait : (tryDecode w .new l).1 = 0) (hpos : 0 < (tryDecode w .new (l ++ 0x47 :: g)).1)
    (hg : getHeader g = some i)
    (hhead : (tryDecode w .new (l ++ 0x47 :: g)).2.m_req.m_nHeaderLength = i + 5)
    (hbody : (tryDecode w .new (l ++ 0x47 :: g)).2.m_req.m_body = (((i + 5 : ℕ) : ℤ), 0)) : l = [] := by
  cases hl : getHeader l with
  | none =>
    have hboth : getHeader (l ++ 0x47 :: g) = some (i + (l.length + 1)) := by
      rw [getHeader_append_cons hl (by decide), hg]
      rfl
    rw [tryDecode_headerLength hboth] at hhead
    exact List.eq_nil_of_length_eq_zero (by omega)
  | some j =>
    have hle := getHeader_le hl
    have hboth := getHeader_append hl (0x47 :: g)
    have hj : 0 < j := by
      by_contra h0
      obtain rfl : j = 0 := by omega
      rw [tryDecode_leading hl] at hpos
      omega
    rw [tryDecode_headerLength hboth] at hhead
    obtain rfl : j = i + 1 := by omega
    have htake : (l ++ 0x47 :: g).take (i + 1) = l.take (i + 1) := List.take_append_of_le_length (by omega)
    rcases decodeHeader_cases w (new.scanned (i + 1)) (l.take (i + 1)) with ⟨c', hno⟩ | ⟨kvs, -, -, -, hfin⟩
    · rw [tryDecode_some hl hj, hno] at hwait
      cases hwait
    · rw [tryDecode_some hl hj, hfin, finish_eq_zero_iff (by omega) hlen] at hwait
      rw [tryDecode_some hboth hj, htake, hfin] at hpos hbody
      -- The body that is awaited is the empty one of the request.
      have hcontent : atoi (getHeaderField ((new.scanned (i + 1)).parsed (l.take (i + 1)) kvs).m_req.m_headers
          (ascii "content-length")) = 0 := by
        rw [finish_eq] at hpos hbody
        split_ifs at hpos hbody
        · exact absurd hpos (lt_irrefl _)
        · exact congrArg Prod.snd hbody
        · exact absurd (show (0 : ℤ) < -1 from hpos) (by decide)
      have hawaited : awaited w ((new.scanned (i + 1)).parsed (l.take (i + 1)) kvs) ≤ (i + 1 + 4 : ℕ) :=
        awaited_le hcontent
      omega

end HttpCodec

def Request.lengthField : Field where
  name := ascii "content-length"
  gap := [0x20]
  value := ascii "0"
  trail := []
  name_ne := by decide
  name_word := by decide +kernel
  gap_blank := hostField.gap_blank
  value_ne := by decide
  value_word := by decide +kernel
  trail_blank := hostField.trail_blank

namespace Request

/-- `GET /` with an empty body of which the length is given. -/
def counted : Request where
  method := .get
  url := [0x2f]
  version := .v1_1
  fields := [hostField, lengthField]
  body := []
  url_head := rfl
  url_word := by decide +kernel
  host := by decide
  length_digits := by decide +kernel
  length_eq := by decide +kernel
  post_length h := by cases h
  body_length h := absurd rfl h

theorem counted_plain : counted.Plain where
  gaps := by decide
  host := by decide +kernel

end Request

end NetDemo.Http

namespace NetDemo.Client
open Foundation Memory Http

namespace View
variable {α : Type}

theorem sent_ready {x : View α} (hopen : x.link.Open) (hout : x.out = []) (pData : List α) :
    (x.sent pData).2.link.log = x.link.log ++ [.send pData, .posted pData] ∧
      (x.sent pData).2.link.Open ∧ (x.sent pData).2.out = pData ∧
      (x.sent pData).2.sends = x.sends ++ [pData] ∧ (x.sent pData).2.queue = x.queue := by
  have hx : ({ (x.modify fun l => l.note (.send pData)).modify Link.enterIoLoop with
      out := pData } : View α).link.Open := ⟨hopen.socket, hopen.net⟩
  have hpost := postSend_open hx.socket hx.net
  have hfirst : (x.sent pData).2 = _ := congrArg Prod.snd ((sent_idle hout pData).trans
    (by rw [firstSend, hpost]))
  rw [hfirst]
  exact ⟨List.append_assoc .., ⟨hopen.socket, fun k => hopen.net (k + 1)⟩, rfl, rfl, rfl⟩

theorem log_sent_busy {x : View α} (hout : x.out ≠ []) (pData : List α) :
    (x.sent pData).2.link.log = x.link.log ++ [.send pData, .queued pData] := by
  rw [sent_busy hout]
  exact List.append_assoc ..

end View

namespace View
variable {w : ℕ} {x y x' : View UInt8} {d : Bytes}

/-- The first note of an answer: the request, or the response to a refusal. -/
def firstNote (codec : HttpCodec) (ret : ℤ) : Note UInt8 :=
  if 0 < ret then .decoded codec.m_req else .send codec.responseMessage

theorem log_reply (x : View UInt8) (codec : HttpCodec) (ret : ℤ) :
    x.link.log ++ [firstNote codec ret] <+: (x.reply codec ret).link.log := by
  simp only [reply, firstNote]
  split_ifs
  · exact (kept_sent (x.modify fun l => l.note (.decoded codec.m_req)) codec.responseMessage).link.log
  · exact (x.kept_sent_note codec.responseMessage).link.log

/-- The context once a receive put these bytes into `m_inBuf`. -/
def received (x : View UInt8) (d : Bytes) : View UInt8 :=
  { x with link.recvs := x.link.recvs - 1, inBuf := x.inBuf.write d }

theorem live_received (x : View UInt8) (d : Bytes) : (x.received d).inBuf.live = x.inBuf.live ++ d :=
  Cells.live_write ..

theorem step_recv (hrecvs : 0 < x.link.recvs) (hd : d ≠ []) (hlen : d.length ≤ ClientContext.IO_BUF_SIZE)
    (fuel : ℕ) : x.step w fuel (.recv d) = if x.inBuf.len + d.length ≤ 2 ^ 32 - 1024 then
      ((x.received d).notifyPackageReceived w fuel).map fun x => x.modify Link.postRecvOrClose
    else none := by
  rw [View.step, if_pos ⟨hrecvs, hd, hlen⟩]
  rfl

theorem log_postRecvOrClose (l : Link UInt8) : l.log <+: l.postRecvOrClose.log := by
  simp only [Link.postRecvOrClose]
  have hlog := l.postRecv_log
  split_ifs
  · rw [← hlog]
    exact (Link.Kept.handleClose _).log
  · exact hlog ▸ List.prefix_refl _

theorem log_step_recv (hrecvs : 0 < x.link.recvs) (hd : d ≠ []) (hlen : d.length ≤ ClientContext.IO_BUF_SIZE)
    (h : x.step w 2 (.recv d) = some x') (hne : (HttpCodec.new.tryDecode w (x.inBuf.live ++ d)).1 ≠ 0) :
    ((x.received d).answer w).link.log <+: x'.link.log := by
  rw [step_recv hrecvs hd hlen] at h
  split_ifs at h
  obtain ⟨x₁, h₁, rfl⟩ := Option.map_eq_some_iff.mp h
  refine List.IsPrefix.trans ?_ (log_postRecvOrClose x₁.link)
  rw [← live_received] at hne
  rcases lt_trichotomy (HttpCodec.new.tryDecode w (x.received d).inBuf.live).1 0 with hneg | hzero | hpos
  · rw [notifyPackageReceived_refuses 1 hneg] at h₁
    obtain rfl := Option.some.inj h₁
    exact (Link.Kept.handleClose _).log
  · exact absurd hzero hne
  rcases lt_trichotomy ((x.received d).second w).1 0 with hneg₂ | hzero₂ | hpos₂
  · rw [notifyPackageReceived_then_refuses 0 hpos hneg₂] at h₁
    obtain rfl := Option.some.inj h₁
    exact (kept_refuse _ _ _).log
  · rw [notifyPackageReceived_then_waits 0 hpos hzero₂] at h₁
    obtain rfl := Option.some.inj h₁
    exact List.prefix_refl _
  · rw [notifyPackageReceived_stuck hpos hpos₂] at h₁
    cases h₁

theorem answer_ready (hopen : x.link.Open) (hout : x.out = [])
    (hpos : 0 < (HttpCodec.new.tryDecode w x.inBuf.live).1) :
    (x.answer w).link.log = x.link.log ++ [.decoded (HttpCodec.new.tryDecode w x.inBuf.live).2.m_req,
        .send HttpCodec.okResponse, .posted HttpCodec.okResponse] ∧
      (x.answer w).out = HttpCodec.okResponse ∧ (x.answer w).sends = x.sends ++ [HttpCodec.okResponse] ∧
      (x.answer w).queue = x.queue := by
  have hm : (HttpCodec.new.tryDecode w x.inBuf.live).2.responseMessage = HttpCodec.okResponse :=
    HttpCodec.tryDecode_pos hpos
  have hready := sent_ready
    (x := x.modify fun l => l.note (.decoded (HttpCodec.new.tryDecode w x.inBuf.live).2.m_req))
    ⟨hopen.socket, hopen.net⟩ hout HttpCodec.okResponse
  simp only [answer, reply, if_pos hpos, hm]
  exact ⟨hready.1.trans (List.append_assoc ..), hready.2.2⟩

theorem log_answer_busy (hout : x.out ≠ []) (hpos : 0 < (HttpCodec.new.tryDecode w x.inBuf.live).1) :
    (x.answer w).link.log = x.link.log ++ [.decoded (HttpCodec.new.tryDecode w x.inBuf.live).2.m_req,
      .send HttpCodec.okResponse, .queued HttpCodec.okResponse] := by
  have hm : (HttpCodec.new.tryDecode w x.inBuf.live).2.responseMessage = HttpCodec.okResponse :=
    HttpCodec.tryDecode_pos hpos
  have hbusy := log_sent_busy
    (x := x.modify fun l => l.note (.decoded (HttpCodec.new.tryDecode w x.inBuf.live).2.m_req)) hout
    HttpCodec.okResponse
  simp only [answer, reply, if_pos hpos, hm]
  exact hbusy.trans (List.append_assoc ..)

/-! ### One request on an open connection -/

/-- Nothing stands in `m_inBuf`, and a receive is in flight. -/
structure Fresh (x : View UInt8) : Prop where
  isOpen : x.link.Open
  recvs : 0 < x.link.recvs
  inBuf : x.inBuf.len = 0

theorem Fresh.live (h : x.Fresh) : x.inBuf.live = [] :=
  List.eq_nil_of_length_eq_zero (x.inBuf.length_live.trans h.inBuf)

/-- The bytes are a request that one receive brings. -/
structure Asks (w : ℕ) (d : Bytes) : Prop where
  pos : 0 < (HttpCodec.new.tryDecode w d).1
  short : d.length ≤ ClientContext.IO_BUF_SIZE

theorem Asks.ne_nil (h : Asks w d) : d ≠ [] := by
  rintro rfl
  exact absurd h.pos (lt_irrefl _)

def seen (w fuel : ℕ) (x : View UInt8) (es : List ClientContext.Event) : Option (List (Note UInt8)) :=
  (run (View.step w fuel) x es).map fun x => x.link.log

theorem seen_cons {fuel : ℕ} {e : ClientContext.Event} (h : x.step w fuel e = some x')
    (es : List ClientContext.Event) : x.seen w fuel (e :: es) = x'.seen w fuel es := by
  rw [seen, run_cons, h, Option.bind_some, seen]

theorem seen_one (fuel : ℕ) (x : View UInt8) (e : ClientContext.Event) :
    x.seen w fuel [e] = (x.step w fuel e).map fun x => x.link.log := by
  rw [seen, run_cons]
  cases x.step w fuel e <;> rfl

namespace Fresh

theorem step_recv (hx : x.Fresh) (hd : Asks w d) : x.step w 2 (.recv d) =
    ((x.received d).notifyPackageReceived w 2).map fun x => x.modify Link.postRecvOrClose := by
  have hshort := hd.short
  simp only [ClientContext.IO_BUF_SIZE] at hshort
  rw [View.step_recv hx.recvs hd.ne_nil hd.short, if_pos (by rw [hx.inBuf]; omega)]

theorem pos (hx : x.Fresh) (hd : Asks w d) :
    0 < (HttpCodec.new.tryDecode w (x.received d).inBuf.live).1 := by
  rw [live_received, hx.live, List.nil_append]
  exact hd.pos

theorem step_waits (hx : x.Fresh) (hd : Asks w d) (h : ((x.received d).second w).1 = 0) :
    x.step w 2 (.recv d) = some (((x.received d).answer w).modify Link.postRecvOrClose) := by
  rw [hx.step_recv hd, notifyPackageReceived_then_waits 0 (hx.pos hd) h, Option.map_some]

theorem isOpen_answer (hx : x.Fresh) (hd : Asks w d) : ((x.received d).answer w).link.Open :=
  (went_reply (x := x.received d) ⟨hx.isOpen.socket, hx.isOpen.net⟩ _ (hx.pos hd)).isOpen

theorem answered (hx : x.Fresh) (hd : Asks w d) :
    (((x.received d).answer w).modify Link.postRecvOrClose).Fresh ∧
      (((x.received d).answer w).modify Link.postRecvOrClose).link.log = ((x.received d).answer w).link.log := by
  have hopen := hx.isOpen_answer hd
  have hrecv := Link.postRecvOrClose_open hopen
  refine ⟨⟨?_, ?_, ?_⟩, ?_⟩
  · rw [modify_link, hrecv]
    exact ⟨hopen.socket, fun k => hopen.net (k + 1)⟩
  · rw [modify_link, hrecv]
    exact Nat.succ_pos _
  · rw [modify_inBuf, inBuf_answer, Cells.remove_len]
    exact Nat.sub_self _
  · rw [modify_link, hrecv]
    rfl

theorem seen_recv (hx : x.Fresh) (hd : Asks w d) :
    (x.seen w 2 [.recv d] = none ↔ 0 < ((x.received d).second w).1) ∧
      (x.seen w 2 [.recv d] = some ((x.received d).answer w).link.log ↔ ((x.received d).second w).1 = 0) := by
  have hpos := hx.pos hd
  rw [seen_one]
  rcases lt_trichotomy ((x.received d).second w).1 0 with hneg₂ | hzero₂ | hpos₂
  · rw [hx.step_recv hd, notifyPackageReceived_then_refuses 0 hpos hneg₂, Option.map_some, Option.map_some]
    have hlog := ((log_reply _ _ _).trans (Link.Kept.handleClose _).log).trans (log_postRecvOrClose
      (((x.received d).answer w).refuse ((x.received d).second w).2 ((x.received d).second w).1).link)
    generalize ((x.received d).answer w).refuse _ _ = x₁ at hlog ⊢
    refine ⟨iff_of_false (by simp) (by omega), iff_of_false (fun he => ?_) (by omega)⟩
    have hsame : x₁.link.postRecvOrClose.log = ((x.received d).answer w).link.log := Option.some.inj he
    have hlen := hlog.length_le
    rw [hsame, List.length_append, List.length_singleton] at hlen
    omega
  · rw [hx.step_waits hd hzero₂, Option.map_some, (hx.answered hd).2]
    exact ⟨iff_of_false (by simp) (by omega), iff_of_true rfl hzero₂⟩
  · rw [hx.step_recv hd, notifyPackageReceived_stuck hpos hpos₂]
    exact ⟨iff_of_true rfl hpos₂, iff_of_false (by simp) (by omega)⟩

theorem sign_eq_sign {a b : ℤ} (hpos : 0 < a ↔ 0 < b) (hzero : a = 0 ↔ b = 0) : a.sign = b.sign := by
  rcases lt_trichotomy a 0 with ha | ha | ha
  · rw [Int.sign_eq_neg_one_of_neg ha, Int.sign_eq_neg_one_of_neg (by omega)]
  · rw [ha, hzero.mp ha]
  · rw [Int.sign_eq_one_of_pos ha, Int.sign_eq_one_of_pos (hpos.mp ha)]

theorem front_answer (hx : x.Fresh) (hy : y.Fresh) (hfront : x.Front y) (w : ℕ) (d : Bytes) :
    ((x.received d).answer w).Front ((y.received d).answer w) := by
  have hreceived : (x.received d).Front (y.received d) :=
    ⟨hfront.link.takeRecv, hfront.out, hfront.queue, hfront.sends⟩
  rw [answer, answer, live_received, live_received, hx.live, hy.live]
  exact hreceived.reply _ _

theorem sign_second (hx : x.Fresh) (hy : y.Fresh) (hfront : x.Front y) (hd : Asks w d)
    (hseen : x.seen w 2 [.recv d] = y.seen w 2 [.recv d]) :
    ((x.received d).second w).1.sign = ((y.received d).second w).1.sign := by
  have hlog := (hx.front_answer hy hfront w d).link.log
  obtain ⟨hnone, hsome⟩ := hx.seen_recv hd
  obtain ⟨hnone', hsome'⟩ := hy.seen_recv hd
  rw [hseen] at hnone hsome
  rw [hlog] at hsome
  exact sign_eq_sign (hnone.symm.trans hnone') (hsome.symm.trans hsome')

end Fresh

theorem over_received {m : Bytes} (hover : Over m [] x.inBuf) (hlt : d.length < m.length) :
    Over m d (x.received d).inBuf := hover.write (by rwa [List.length_nil, Nat.zero_add])

theorem exists_seen_ne {m n : Bytes} (h : Tells w m n) (hfront : x.Front y) (hx : x.Fresh) (hy : y.Fresh)
    (hm : 1024 ≤ m.length) (hn : 1024 ≤ n.length) (hover : Over m [] x.inBuf) (hover' : Over n [] y.inBuf) :
    ∃ ds : List Bytes, x.seen w 2 (ds.map .recv) ≠ y.seen w 2 (ds.map .recv) := by
  induction h generalizing x y with
  | @now m n d hpos hshort hne =>
    have hd : Asks w d := ⟨hpos, by simp only [ClientContext.IO_BUF_SIZE]; omega⟩
    refine ⟨[d], fun hseen => hne ?_⟩
    have hsign := hx.sign_second hy hfront hd hseen
    rwa [second_over (over_received hover (by omega)) (by omega),
      second_over (over_received hover' (by omega)) (by omega)] at hsign
  | @later m n d hpos hshort hzero hzero' _ ih =>
    have hd : Asks w d := ⟨hpos, by simp only [ClientContext.IO_BUF_SIZE]; omega⟩
    have hdx := over_received (d := d) hover (by omega)
    have hdy := over_received (d := d) hover' (by omega)
    have hstep := hx.step_waits hd ((second_over hdx (by omega)).trans hzero)
    have hstep' := hy.step_waits hd ((second_over hdy (by omega)).trans hzero')
    have hanswer := hx.front_answer hy hfront w d
    have hleft : Over (spent m d) [] ((x.received d).answer w).inBuf := by
      rw [inBuf_answer]
      exact hdx.remove (by omega)
    have hright : Over (spent n d) [] ((y.received d).answer w).inBuf := by
      rw [inBuf_answer]
      exact hdy.remove (by omega)
    obtain ⟨ds, hds⟩ := ih (hanswer.modify hanswer.link.postRecvOrClose) (hx.answered hd).1 (hy.answered hd).1
      (by rw [length_spent (by omega)]; exact hm) (by rw [length_spent (by omega)]; exact hn) hleft hright
    refine ⟨d :: ds, ?_⟩
    rwa [List.map_cons, seen_cons hstep, seen_cons hstep']

/-! ### A block of more than 1024 bytes -/

/-- A request of `n` bytes that ends like a header block. -/
def probe (n : ℕ) : Bytes :=
  Request.counted.text ++ (List.replicate (n - Request.counted.text.length - 4) 0x61 ++ crlfcrlf)

theorem length_probe {n : ℕ} (hn : 50 ≤ n) : (probe n).length = n := by
  have hlen : Request.counted.text.length = 46 := by decide +kernel
  simp only [probe, List.length_append, List.length_replicate, hlen, List.length_cons, List.length_nil]
  omega

theorem asks_probe (w : ℕ) {n : ℕ} (hn : 50 ≤ n) (hn' : n ≤ 1024) : Asks w (probe n) := by
  have hlen := length_probe hn
  refine ⟨(HttpCodec.tryDecode_pos_iff (by omega)).mpr ?_, by rw [hlen, ClientContext.IO_BUF_SIZE]; omega⟩
  exact Request.counted.answers w _ rfl Request.counted_plain (by rw [← probe]; omega)

theorem lookup_probe (w n : ℕ) : (HttpCodec.new.tryDecode w (probe n)).2.m_req.m_headers.lookup
    (ascii "content-length") = some (ascii "0") := by
  have hi := Request.getHeader_text Request.counted
    (List.replicate (n - Request.counted.text.length - 4) 0x61 ++ crlfcrlf)
  have ha := Request.counted.accepts w
    (List.replicate (n - Request.counted.text.length - 4) 0x61 ++ crlfcrlf) rfl Request.counted_plain
  rw [probe, HttpCodec.tryDecode_of_accepts hi Request.counted.header_pos (by rwa [Request.take_header])]
  show (Headers.insertAll [] (Request.kvs _)).lookup _ = _
  decide +kernel

theorem take_spent_zeros {t : Bytes} {k : ℕ} (hk : 0 < k) (hlen : t.length + 4 + k = 1024) (hle : k ≤ t.length) :
    ∃ i, getHeader ((spent (List.replicate 1024 0) (t ++ crlfcrlf)).take (t ++ crlfcrlf).length) = some i ∧
      0 < i := by
  have hd : (t ++ crlfcrlf).length = t.length + 4 := List.length_append
  have hzeros : (List.replicate 1024 (0 : UInt8)).drop (t.length + 4) = List.replicate k 0 := by
    rw [List.drop_replicate]
    congr 1
    omega
  have hspent : spent (List.replicate 1024 0) (t ++ crlfcrlf) =
      (List.replicate k 0 ++ t.drop k ++ crlfcrlf) ++ List.replicate k 0 := by
    have hcut : 1024 - (t.length + 4) = k := by omega
    rw [spent, hd, List.length_replicate, hzeros, hcut, List.append_assoc t,
      List.drop_append_of_le_length hle, List.append_assoc, List.append_assoc]
  have htake : (spent (List.replicate 1024 0) (t ++ crlfcrlf)).take (t ++ crlfcrlf).length =
      List.replicate k 0 ++ t.drop k ++ crlfcrlf := by
    rw [hspent, hd]
    apply List.take_left'
    simp only [List.length_append, List.length_replicate, List.length_drop, List.length_cons, List.length_nil]
    omega
  obtain ⟨i, hi⟩ := exists_getHeader (List.replicate k 0 ++ t.drop k)
  refine ⟨i, by rw [htake, hi], Nat.pos_of_ne_zero fun h0 => ?_⟩
  obtain ⟨e, he⟩ := getHeader_split hi
  obtain ⟨k, rfl⟩ : ∃ j, k = j + 1 := ⟨k - 1, by omega⟩
  rw [h0, List.replicate_succ] at he
  exact absurd (List.cons.inj he).1 (by decide)

theorem second_probe {n : ℕ} (hn : 514 ≤ n) (hn' : n ≤ 1024) (hempty : y.inBuf = Cells.empty) :
    ((y.received (probe n)).second w).1 ≠ 0 := by
  have hlen := length_probe (n := n) (by omega)
  have hlive : (y.received (probe n)).inBuf.live = probe n := by
    rw [live_received, hempty, Cells.live_empty, List.nil_append]
  have hwin : (window (y.received (probe n)).inBuf).length = n := by
    rw [length_window, ← Cells.length_live, hlive, hlen]
  obtain ⟨i, hi, h0⟩ : ∃ i, getHeader (window (y.received (probe n)).inBuf) = some i ∧ 0 < i := by
    rcases Nat.lt_or_ge n 1024 with hlt | hge
    · have hover : Over (List.replicate 1024 0) (probe n) (y.received (probe n)).inBuf := by
        have hne : probe n ≠ [] := (asks_probe w (by omega) hn').ne_nil
        rw [received, hempty, ← write_blank hne]
        exact over_received (x := { y with inBuf := blank }) over_blank (by rw [List.length_replicate]; omega)
      rw [hover.window (by rw [List.length_replicate]; omega)]
      rw [probe, ← List.append_assoc] at hlen ⊢
      rw [List.length_append] at hlen
      simp only [List.length_cons, List.length_nil] at hlen
      exact take_spent_zeros (k := 1024 - n) (by omega) (by omega) (by omega)
    · have hfull : (y.received (probe n)).inBuf.len = (y.received (probe n)).inBuf.cap := by
        rw [received, hempty, Cells.len_write, Cells.cap_write, hlen, Cells.len_empty, Cells.cap_empty,
          if_neg (Nat.not_lt_zero _), alignUp_of_dvd (by omega)]
      rw [window_full hfull, hlive]
      exact ⟨_, Request.getHeader_text .., Request.counted.header_pos⟩
  rw [second, hlive]
  exact HttpCodec.tryDecode_ne_zero hi h0 (by omega) (lookup_probe w n) (by decide)

theorem getHeader_of_ne_zero {c : HttpCodec} (h : (c.tryDecode w d).1 ≠ 0) :
    ∃ i, getHeader d = some i ∧ 0 < i := by
  cases hi : getHeader d with
  | none =>
    rw [tryDecode_none hi] at h
    exact absurd rfl h
  | some i =>
    refine ⟨i, rfl, Nat.pos_of_ne_zero fun h0 => h ?_⟩
    rw [h0] at hi
    simp only [HttpCodec.tryDecode, hi, if_true]

/-- A larger block shows a request of 1024 bytes at most what stands behind it. This would have to
end like a header block, wherever it begins. -/
theorem length_lt_of_seen {m : Bytes} (hx : x.Fresh) (hy : y.Fresh) (hfront : x.Front y)
    (hover : Over m [] x.inBuf) (hempty : y.inBuf = Cells.empty)
    (hseen : ∀ d, Asks w d → x.seen w 2 [.recv d] = y.seen w 2 [.recv d]) : m.length < 2048 := by
  by_contra hlarge
  have hends {n : ℕ} (hn : 514 ≤ n) (hn' : n ≤ 1024) :
      ∃ i, getHeader ((m.drop n).take n) = some i ∧ 0 < i := by
    have hlen := length_probe (n := n) (by omega)
    have hd := asks_probe w (n := n) (by omega) hn'
    have hsign := hx.sign_second hy hfront hd (hseen _ hd)
    have hne := second_probe (w := w) hn hn' hempty
    rw [Ne, ← Int.sign_eq_zero_iff_zero, ← hsign, Int.sign_eq_zero_iff_zero,
      second_over (over_received hover (by omega)) (by omega), secondAnswer, take_spent (by omega), hlen] at hne
    exact getHeader_of_ne_zero hne
  obtain ⟨i, hi, h0⟩ := hends le_rfl (by omega)
  have hle := getHeader_le hi
  rw [List.length_take] at hle
  obtain ⟨j, hj, hpos⟩ := hends (n := 514 + i) (by omega) (by omega)
  -- The end of a header block that was found first stands where the next probe looks.
  have hstart : crlfcrlf <+: (m.drop (514 + i)).take (514 + i) := by
    have hfound := drop_getHeader hi
    rw [List.drop_take, List.drop_drop, List.prefix_take_iff] at hfound
    exact List.prefix_take_iff.mpr ⟨hfound.1, by simp only [List.length_cons, List.length_nil]; omega⟩
  obtain ⟨e, he⟩ := hstart
  have hzero : getHeader (crlfcrlf ++ e) = some 0 := getHeader_append rfl e
  rw [← he, hzero] at hj
  have := Option.some.inj hj
  omega

end View

end NetDemo.Client
