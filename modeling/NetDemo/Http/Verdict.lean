import NetDemo.Http.Decode

/-! Which header blocks pass all checks of `HttpCodec::tryDecode`, what a refusal leaves in the codec,
and which requests are answered. -/

namespace NetDemo.Http
open Foundation

namespace HttpCodec

/-- The header block passes the loop, with the fields `kvs`, and the checks behind it. -/
structure Passes (c : HttpCodec) (header : Bytes) (kvs : Headers) : Prop where
  fields : headerFields (Slice.eatLine header).2.length (Slice.eatLine header).2 = some kvs
  startLine : StartLineOk (c.parsed header kvs)
  checked : HeaderOk (c.parsed header kvs)

/-- What every `return -1` before the body leaves of the codec `c`. -/
structure Refusal (c c' : HttpCodec) : Prop where
  status : ∃ st, c'.m_status = some st ∧ st ≠ .ok
  outBuf : c'.m_outBuf = c.m_outBuf
  body : c'.m_req.m_body = c.m_req.m_body
  headerLength : c'.m_req.m_nHeaderLength = c.m_req.m_nHeaderLength

theorem Passes.unique {c : HttpCodec} {header : Bytes} {kvs kvs' : Headers} (h : c.Passes header kvs)
    (h' : c.Passes header kvs') : kvs = kvs' := Option.some.inj (h.fields.symm.trans h'.fields)

theorem Passes.version_ne {c : HttpCodec} {header : Bytes} {kvs : Headers} (h : c.Passes header kvs) :
    versionOf header ≠ [] := by
  intro hnil
  have hver : versionOf header ∈ [ascii "HTTP/1.0", ascii "HTTP/1.1"] := h.startLine.version
  rw [hnil] at hver
  exact absurd hver (by decide)

theorem Passes.length_pos {c : HttpCodec} {header : Bytes} {kvs : Headers} (h : c.Passes header kvs) :
    0 < header.length := by
  apply List.length_pos_iff.mpr
  rintro rfl
  exact h.version_ne rfl

theorem decodeHeader_of_passes {c : HttpCodec} {header : Bytes} {kvs : Headers}
    (h : c.Passes header kvs) (w : ℕ) (m_inBuf : Bytes) :
    decodeHeader w c m_inBuf header = finish w (c.parsed header kvs) m_inBuf := by
  rw [decodeHeader_some w c m_inBuf h.version_ne h.fields, parseStartLine_of_ok h.startLine]
  simp only [parseHeader_of_ok h.checked]

/-! ### Refusals -/

theorem refusal_of_status {c c' : HttpCodec} {st : StatusType} (hst : st ≠ .ok)
    (h : c' = { c with m_status := some st }) : Refusal c c' := by
  rw [h]
  exact ⟨⟨st, rfl, hst⟩, rfl, rfl, rfl⟩

theorem Refusal.of_parsed {c c' : HttpCodec} {header : Bytes} {kvs : Headers}
    (h : Refusal (c.parsed header kvs) c') : Refusal c c' :=
  ⟨h.status, h.outBuf, h.body, h.headerLength⟩

theorem headerLoop_refusal {fuel : ℕ} {header : Bytes} (h : headerFields fuel header = none)
    (c : HttpCodec) : Refusal c (headerLoop fuel header c).2 := by
  induction fuel generalizing header c with
  | zero => cases h
  | succ fuel ih =>
    by_cases hnil : header = []
    · simp [headerFields, hnil] at h
    · rw [headerLoop_succ fuel hnil]
      simp only [headerFields, if_neg hnil] at h
      cases hl : headerLine (firstLine (header.drop 2)) with
      | none => exact refusal_of_status (by decide) rfl
      | some kv =>
        simp only [hl, Option.map_eq_none_iff] at h
        have hrest := ih h (c.withHeaders (c.m_req.m_headers.insert kv.1 kv.2))
        exact ⟨hrest.status, hrest.outBuf, hrest.body, hrest.headerLength⟩

theorem parseStartLine_refusal {c : HttpCodec} (h : ¬ c.StartLineOk) :
    c.parseStartLine.1 = false ∧ Refusal c c.parseStartLine.2 := by
  refine ⟨Bool.eq_false_iff.mpr fun hok => h (ok_of_parseStartLine hok), ?_⟩
  -- Each way out but the last one sets a status.
  have hlast : c.parseStartLine ≠ (true, c) := fun hok =>
    h (ok_of_parseStartLine (congrArg Prod.fst hok))
  unfold parseStartLine at hlast ⊢
  split_ifs at hlast ⊢ with hv hm
  · exact refusal_of_status (by decide) rfl
  · exact refusal_of_status (by decide) rfl
  · cases hurl : c.m_req.m_url with
    | nil => exact refusal_of_status (by decide) rfl
    | cons b t =>
      simp only [hurl] at hlast ⊢
      split_ifs at hlast ⊢ with hb
      · exact refusal_of_status (by decide) rfl
      · exact absurd rfl hlast

theorem parseHeader_refusal {c : HttpCodec} (h : ¬ c.HeaderOk) :
    c.parseHeader.1 = false ∧ Refusal c c.parseHeader.2 := by
  refine ⟨Bool.eq_false_iff.mpr fun hok => h (ok_of_parseHeader hok), ?_⟩
  have hlast : c.parseHeader ≠ (true, c) := fun hok =>
    h (ok_of_parseHeader (congrArg Prod.fst hok))
  unfold parseHeader at hlast ⊢
  split_ifs at hlast ⊢
  · exact refusal_of_status (by decide) rfl
  · exact refusal_of_status (by decide) rfl
  · exact absurd rfl hlast

theorem decodeHeader_refusal {c : HttpCodec} {header : Bytes} (h : ∀ kvs, ¬ c.Passes header kvs) :
    ∃ c', Refusal c c' ∧ ∀ w m_inBuf, decodeHeader w c m_inBuf header = (-1, c') := by
  by_cases hv : versionOf header = []
  · exact ⟨{ c with m_status := some .bad_request }, refusal_of_status (by decide) rfl,
      fun w d => by rw [decodeHeader_eq, if_pos hv]⟩
  cases hf : headerFields (Slice.eatLine header).2.length (Slice.eatLine header).2 with
  | none =>
    have hloop : headerLoop _ _ (c.parsed header []) = (false, _) := Prod.ext (headerLoop_none hf _) rfl
    exact ⟨_, (headerLoop_refusal hf (c.parsed header [])).of_parsed, fun w d => by
      rw [decodeHeader_eq, if_neg hv, hloop]⟩
  | some kvs =>
    by_cases hs : (c.parsed header kvs).StartLineOk
    · obtain ⟨hno, hrefusal⟩ := parseHeader_refusal fun hh => h kvs ⟨hf, hs, hh⟩
      obtain ⟨c', hcheck⟩ : ∃ c', (c.parsed header kvs).parseHeader = (false, c') := ⟨_, Prod.ext hno rfl⟩
      rw [hcheck] at hrefusal
      refine ⟨c', hrefusal.of_parsed, fun w d => ?_⟩
      rw [decodeHeader_some w c d hv hf, parseStartLine_of_ok hs]
      simp only [hcheck]
    · obtain ⟨hno, hrefusal⟩ := parseStartLine_refusal hs
      have hcheck : (c.parsed header kvs).parseStartLine = (false, _) := Prod.ext hno rfl
      exact ⟨_, hrefusal.of_parsed, fun w d => by rw [decodeHeader_some w c d hv hf, hcheck]⟩

/-! ### How a call ends -/

/-- The length that `finish` waits for, as a `size_t`. -/
def awaited (w : ℕ) (c : HttpCodec) : ℤ :=
  (c.m_req.m_nHeaderLength + atoi (getHeaderField c.m_req.m_headers (ascii "content-length"))) % 2 ^ w

def bodied (c : HttpCodec) : HttpCodec :=
  { c with m_req.m_body := (c.m_req.m_nHeaderLength,
      atoi (getHeaderField c.m_req.m_headers (ascii "content-length"))) }

theorem finish_eq (w : ℕ) (c : HttpCodec) (d : Bytes) :
    finish w c d = if (d.length : ℤ) < awaited w c then (0, c)
      else if ascii "GET" = c.m_req.m_method then (int32 (uint d.length), c.bodied.writeResponse)
      else (-1, c.bodied) := by
  -- The body of a `POST` is not looked at, so all other methods end the same way.
  have hpost : (if ascii "POST" = c.m_req.m_method then
      if !c.bodied.parseBody then ((-1 : ℤ), c.bodied) else (-1, c.bodied) else (-1, c.bodied)) =
        (-1, c.bodied) := by simp only [ite_self]
  rw [← hpost]
  rfl

theorem finish_of_le {w : ℕ} {c : HttpCodec} {d : Bytes} (h : awaited w c ≤ d.length) :
    finish w c d = if ascii "GET" = c.m_req.m_method
      then (int32 (uint d.length), c.bodied.writeResponse) else (-1, c.bodied) := by
  rw [finish_eq, if_neg (not_lt.mpr h)]

theorem finish_eq_zero_iff {w : ℕ} {c : HttpCodec} {d : Bytes} (h0 : 0 < d.length)
    (hlen : d.length < 2 ^ 32) : (finish w c d).1 = 0 ↔ (d.length : ℤ) < awaited w c := by
  constructor
  · intro h
    by_contra hfull
    rw [finish_of_le (not_lt.mp hfull), uint_natCast hlen, int32] at h
    split_ifs at h <;> omega
  · intro h
    rw [finish_eq, if_pos h]

/-- How `tryDecode` comes to an answer: it waits for the end of the header block, it refuses the
block, or the block passes and the bytes behind it decide. -/
theorem tryDecode_verdict (w : ℕ) (c : HttpCodec) (d : Bytes) :
    ((∀ i, getHeader d = some i → i = 0) ∧ (tryDecode w c d).1 = 0 ∧
        (tryDecode w c d).2.m_req.m_body = c.m_req.m_body) ∨
      (∃ i, getHeader d = some i ∧ 0 < i ∧ (∀ kvs, ¬ (c.scanned i).Passes (d.take i) kvs) ∧
        (tryDecode w c d).1 = -1 ∧ Refusal (c.scanned i) (tryDecode w c d).2) ∨
      ∃ i kvs, getHeader d = some i ∧ 0 < i ∧ (c.scanned i).Passes (d.take i) kvs ∧
        tryDecode w c d = finish w ((c.scanned i).parsed (d.take i) kvs) d := by
  cases hi : getHeader d with
  | none => exact .inl ⟨fun i h => (by cases h), by rw [tryDecode, hi], by rw [tryDecode, hi]⟩
  | some i =>
    by_cases h0 : i = 0
    · refine .inl ⟨fun j hj => (Option.some.inj hj).symm.trans h0, ?_, ?_⟩
      all_goals simp only [tryDecode, hi, if_pos h0]
    have hpos := Nat.pos_of_ne_zero h0
    rw [tryDecode_some hi hpos]
    by_cases hp : ∃ kvs, (c.scanned i).Passes (d.take i) kvs
    · obtain ⟨kvs, hkvs⟩ := hp
      exact .inr (.inr ⟨i, kvs, rfl, hpos, hkvs, decodeHeader_of_passes hkvs w d⟩)
    · have hno : ∀ kvs, ¬ (c.scanned i).Passes (d.take i) kvs := fun kvs hkvs => hp ⟨kvs, hkvs⟩
      obtain ⟨c', hrefusal, heq⟩ := decodeHeader_refusal hno
      rw [heq]
      exact .inr (.inl ⟨i, rfl, hpos, hno, rfl, hrefusal⟩)

theorem tryDecode_headerLength {d : Bytes} {i : ℕ} (hi : getHeader d = some i) (w : ℕ) (c : HttpCodec) :
    (tryDecode w c d).2.m_req.m_nHeaderLength = i + 4 := by
  rcases tryDecode_verdict w c d with ⟨hnone, -⟩ | ⟨j, hj, -, -, -, hrefusal⟩ | ⟨j, kvs, hj, -, -, heq⟩
  · simp only [tryDecode, hi, if_pos (hnone i hi)]
  · obtain rfl := Option.some.inj (hi.symm.trans hj)
    exact hrefusal.headerLength
  · obtain rfl := Option.some.inj (hi.symm.trans hj)
    rw [heq, finish_eq]
    split_ifs <;> rfl

theorem decodeHeader_cases (w : ℕ) (c : HttpCodec) (header : Bytes) :
    (∃ c', ∀ m_inBuf, decodeHeader w c m_inBuf header = (-1, c')) ∨
      ∃ kvs, headerFields (Slice.eatLine header).2.length (Slice.eatLine header).2 = some kvs ∧
        StartLineOk (c.parsed header kvs) ∧ HeaderOk (c.parsed header kvs) ∧
        ∀ m_inBuf, decodeHeader w c m_inBuf header = finish w (c.parsed header kvs) m_inBuf := by
  by_cases hp : ∃ kvs, c.Passes header kvs
  · obtain ⟨kvs, hkvs⟩ := hp
    exact .inr ⟨kvs, hkvs.fields, hkvs.startLine, hkvs.checked, decodeHeader_of_passes hkvs w⟩
  · obtain ⟨c', -, hno⟩ := decodeHeader_refusal fun kvs hkvs => hp ⟨kvs, hkvs⟩
    exact .inl ⟨c', hno w⟩

/-! ### Requests that are answered -/

theorem finish_get {w : ℕ} {c : HttpCodec} {m_inBuf : Bytes} (hget : c.m_req.m_method = ascii "GET")
    (hfull : ¬ (m_inBuf.length : ℤ) < (c.m_req.m_nHeaderLength +
      atoi (getHeaderField c.m_req.m_headers (ascii "content-length"))) % 2 ^ w) :
    finish w c m_inBuf = (int32 (uint m_inBuf.length), HttpCodec.writeResponse
      { c with m_req.m_body := (c.m_req.m_nHeaderLength,
          atoi (getHeaderField c.m_req.m_headers (ascii "content-length"))) }) := by
  rw [finish, if_neg hfull, if_pos hget.symm]

def answered (c : HttpCodec) (header : Bytes) (kvs : Headers) : HttpCodec :=
  let c := (c.scanned header.length).parsed header kvs
  let contentLength := atoi (getHeaderField c.m_req.m_headers (ascii "content-length"))
  ({ c with m_req.m_body := (c.m_req.m_nHeaderLength, contentLength) } : HttpCodec).writeResponse

theorem ascii_get_ne_post : ascii "GET" ≠ ascii "POST" := by decide

theorem length_take_header {d : Bytes} {i : ℕ} (hi : getHeader d = some i) : (d.take i).length = i := by
  have := getHeader_le hi
  rw [List.length_take]
  omega

theorem Accepts.passes {w : ℕ} {c : HttpCodec} {d header : Bytes} {kvs : Headers}
    (ha : Accepts w c.m_req.m_headers d header kvs) (i : ℕ) : (c.scanned i).Passes header kvs :=
  ⟨ha.fields, ⟨ha.version, List.mem_cons.mpr (.inl ha.method), ha.url⟩,
    ⟨fun hp => absurd (ha.method.symm.trans hp) ascii_get_ne_post, ha.host⟩⟩

theorem tryDecode_of_accepts {w : ℕ} {c : HttpCodec} {d : Bytes} {i : ℕ} {kvs : Headers}
    (hi : getHeader d = some i) (h0 : 0 < i) (ha : Accepts w c.m_req.m_headers d (d.take i) kvs) :
    tryDecode w c d = (int32 (uint d.length), c.answered (d.take i) kvs) := by
  have hlen := length_take_header hi
  have hfull := ha.complete
  rw [hlen] at hfull
  rw [tryDecode_some hi h0, decodeHeader_of_passes (ha.passes i), answered, hlen]
  exact finish_get (c := (c.scanned i).parsed (d.take i) kvs) ha.method hfull

/-- Every answer is a request for more bytes, an error, or the number of all bytes. -/
theorem tryDecode_cases (w : ℕ) (c : HttpCodec) (d : Bytes) :
    (tryDecode w c d).1 = 0 ∨ (tryDecode w c d).1 = -1 ∨
      ∃ i kvs, getHeader d = some i ∧ 0 < i ∧ Accepts w c.m_req.m_headers d (d.take i) kvs := by
  rcases tryDecode_verdict w c d with ⟨-, hwait, -⟩ | ⟨i, -, -, -, hno, -⟩ | ⟨i, kvs, hi, hpos, hp, hfin⟩
  · exact .inl hwait
  · exact .inr (.inl hno)
  · simp only [hfin, finish]
    split_ifs with hfull hget
    · exact .inl rfl
    · exact .inr (.inr ⟨i, kvs, hi, hpos, hget.symm, hp.startLine.url, hp.startLine.version, hp.fields,
        hp.checked.host, by rw [length_take_header hi]; exact hfull⟩)
    all_goals exact .inr (.inl rfl)

theorem accepts_of_pos {w : ℕ} {c : HttpCodec} {d : Bytes} (h : 0 < (tryDecode w c d).1) :
    ∃ i kvs, getHeader d = some i ∧ 0 < i ∧ Accepts w c.m_req.m_headers d (d.take i) kvs := by
  rcases tryDecode_cases w c d with h' | h' | h'
  · omega
  · omega
  · exact h'

/-- The bytes `d` are a request that a codec with the header fields `m` answers. -/
def Answers (w : ℕ) (m : Headers) (d : Bytes) : Prop :=
  d.length < 2 ^ 31 ∧ ∃ i kvs, getHeader d = some i ∧ 0 < i ∧ Accepts w m d (d.take i) kvs

theorem tryDecode_pos_iff {w : ℕ} {c : HttpCodec} {d : Bytes} (hd : d.length < 2 ^ 32) :
    0 < (tryDecode w c d).1 ↔ Answers w c.m_req.m_headers d := by
  constructor
  · intro h
    obtain ⟨i, kvs, hi, h0, ha⟩ := accepts_of_pos h
    rw [tryDecode_of_accepts hi h0 ha, uint_natCast hd, int32_pos_iff hd] at h
    exact ⟨h.2, i, kvs, hi, h0, ha⟩
  · rintro ⟨hlt, i, kvs, hi, h0, ha⟩
    have hle := getHeader_le hi
    rw [tryDecode_of_accepts hi h0 ha, uint_natCast hd, int32_pos_iff hd]
    omega

/-! ### What is left to be sent -/

def okResponse : Bytes := new.writeResponse.m_outBuf

theorem okResponse_ne : okResponse ≠ [] := by decide

theorem tryDecode_pos {w : ℕ} {c : HttpCodec} {d : Bytes} (h : 0 < (tryDecode w c d).1) :
    (tryDecode w c d).2.m_outBuf = okResponse := by
  obtain ⟨i, kvs, hi, h0, ha⟩ := accepts_of_pos h
  rw [tryDecode_of_accepts hi h0 ha]
  rfl

theorem finish_outBuf (w : ℕ) (c : HttpCodec) (m_inBuf : Bytes) :
    (finish w c m_inBuf).2.m_outBuf = c.m_outBuf ∨ (finish w c m_inBuf).2.m_outBuf = okResponse := by
  simp only [finish]
  split_ifs
  · exact .inl rfl
  · exact .inr rfl
  all_goals exact .inl rfl

theorem tryDecode_outBuf (w : ℕ) (c : HttpCodec) (d : Bytes) :
    (tryDecode w c d).2.m_outBuf = c.m_outBuf ∨ (tryDecode w c d).2.m_outBuf = okResponse := by
  rcases tryDecode_verdict w c d with ⟨hnone, -⟩ | ⟨i, -, -, -, -, hrefusal⟩ | ⟨i, kvs, -, -, -, hfin⟩
  · left
    cases hi : getHeader d with
    | none => simp only [tryDecode, hi]
    | some i => simp only [tryDecode, hi, if_pos (hnone i hi)]
  · exact .inl hrefusal.outBuf
  · rw [hfin]
    exact finish_outBuf w _ d

/-! ### Decoding again -/

theorem Accepts.again {w : ℕ} {m : Headers} {d header : Bytes} {kvs : Headers}
    (ha : Accepts w m d header kvs) : Accepts w (m.insertAll kvs) d header kvs :=
  ⟨ha.method, ha.url, ha.version, ha.fields, by rw [Headers.insertAll_insertAll]; exact ha.host,
    by rw [Headers.insertAll_insertAll]; exact ha.complete⟩

theorem tryDecode_answered {w : ℕ} {c : HttpCodec} {d : Bytes} (h : 0 < (tryDecode w c d).1) :
    0 < (tryDecode w (tryDecode w c d).2 d).1 := by
  obtain ⟨i, kvs, hi, h0, ha⟩ := accepts_of_pos h
  rw [tryDecode_of_accepts hi h0 ha] at h ⊢
  rw [tryDecode_of_accepts hi h0 (c := c.answered (d.take i) kvs) ha.again]
  exact h

theorem tryDecode_of_method {w : ℕ} {c : HttpCodec} {d : Bytes}
    (h : (Slice.eatWord (firstLine d)).1 ≠ ascii "GET") : (tryDecode w c d).1 ≤ 0 := by
  by_contra hpos
  obtain ⟨i, kvs, hi, -, ha⟩ := accepts_of_pos (by omega : 0 < (tryDecode w c d).1)
  exact h (by rw [← ha.method, firstLine_take hi])

theorem tryDecode_of_wordEnds {w : ℕ} {c : HttpCodec} {d : Bytes} (h : wordEnds (firstLine d) < 3) :
    (tryDecode w c d).1 ≤ 0 := by
  by_contra hpos
  obtain ⟨i, kvs, hi, -, ha⟩ := accepts_of_pos (by omega : 0 < (tryDecode w c d).1)
  have h3 : 3 ≤ wordEnds (firstLine (d.take i)) := three_le_wordEnds fun he => by
    have hv := ha.version
    rw [versionOf, he] at hv
    exact absurd hv (by decide)
  rw [firstLine_take hi] at h3
  omega

end HttpCodec
end NetDemo.Http
