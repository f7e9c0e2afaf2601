import NetDemo.Http.Codec

/-! What the functions behind `HttpCodec::tryDecode` do, for any bytes and any codec. -/

namespace NetDemo.Http
open Foundation

/-! ### The end of the header block -/

theorem getHeader_cons (a : UInt8) (t : Bytes) : getHeader (a :: t) =
    if crlfcrlf <+: a :: t then some 0 else (getHeader t).map (· + 1) := by
  simp only [getHeader, List.isPrefixOf_iff_prefix]

theorem getHeader_split {d : Bytes} {i : ℕ} (h : getHeader d = some i) :
    ∃ e, d = d.take i ++ crlfcrlf ++ e := by
  induction d generalizing i with
  | nil => cases h
  | cons a t ih =>
    rw [getHeader_cons] at h
    split_ifs at h with hp
    · obtain ⟨e, he⟩ := hp
      obtain rfl := Option.some.inj h
      exact ⟨e, by simpa using he.symm⟩
    · obtain ⟨j, hj, rfl⟩ := Option.map_eq_some_iff.mp h
      obtain ⟨e, he⟩ := ih hj
      exact ⟨e, by rw [List.take_succ_cons, List.cons_append, List.cons_append, ← he]⟩

theorem getHeader_le {d : Bytes} {i : ℕ} (h : getHeader d = some i) : i + 4 ≤ d.length := by
  induction d generalizing i with
  | nil => cases h
  | cons a t ih =>
    rw [getHeader_cons] at h
    split_ifs at h with hp
    · obtain rfl := Option.some.inj h
      simpa using hp.length_le
    · obtain ⟨j, hj, rfl⟩ := Option.map_eq_some_iff.mp h
      have := ih hj
      simp only [List.length_cons]
      omega

theorem getHeader_append {d : Bytes} {i : ℕ} (h : getHeader d = some i) (e : Bytes) :
    getHeader (d ++ e) = some i := by
  induction d generalizing i with
  | nil => cases h
  | cons a t ih =>
    have hlen := getHeader_le h
    rw [List.cons_append, getHeader_cons]
    rw [getHeader_cons] at h
    have hiff : crlfcrlf <+: a :: (t ++ e) ↔ crlfcrlf <+: a :: t :=
      ⟨fun hp => List.prefix_of_prefix_length_le hp ⟨e, rfl⟩ (by simp at hlen ⊢; omega),
        fun hp => hp.trans ⟨e, rfl⟩⟩
    split_ifs at h with hp
    · rw [if_pos (hiff.mpr hp), h]
    · obtain ⟨j, hj, rfl⟩ := Option.map_eq_some_iff.mp h
      rw [if_neg (fun hq => hp (hiff.mp hq)), ih hj, Option.map_some]

theorem getHeader_noCR_append {l : Bytes} (hl : ∀ b ∈ l, b ≠ 0x0d) (t : Bytes) :
    getHeader (l ++ t) = (getHeader t).map (· + l.length) := by
  induction l with
  | nil => simp
  | cons a l ih =>
    have ha : a ≠ 0x0d := hl a List.mem_cons_self
    rw [List.cons_append, getHeader_cons, if_neg (fun hp => ha (List.cons_prefix_cons.mp hp).1.symm),
      ih fun b hb => hl b (List.mem_cons_of_mem _ hb), Option.map_map]
    congr 1

theorem getHeader_crlf_append {b : UInt8} (hb : b ≠ 0x0d) (t : Bytes) :
    getHeader (crlf ++ b :: t) = (getHeader (b :: t)).map (· + 2) := by
  have h₁ : ¬ crlfcrlf <+: 0x0d :: 0x0a :: b :: t := fun hp => hb (by
    simp only [crlfcrlf, List.cons_prefix_cons, true_and] at hp
    exact hp.1.symm)
  have h₂ : ¬ crlfcrlf <+: 0x0a :: b :: t := fun hp => by
    simp only [crlfcrlf, List.cons_prefix_cons] at hp
    exact absurd hp.1 (by decide)
  rw [List.cons_append, List.cons_append, List.nil_append, getHeader_cons, if_neg h₁, getHeader_cons,
    if_neg h₂, Option.map_map]
  rfl

theorem getHeader_of_count_le {d : Bytes} (h : d.count 0x0d ≤ 1) : getHeader d = none := by
  cases hd : getHeader d with
  | none => rfl
  | some i =>
    obtain ⟨e, he⟩ := getHeader_split hd
    rw [he, List.count_append, List.count_append] at h
    simp at h
    omega

/-! ### Lines -/

def firstLine (d : Bytes) : Bytes := (Slice.eatLine d).1

theorem firstLine_take {d : Bytes} {i : ℕ} (h : getHeader d = some i) :
    firstLine (d.take i) = firstLine d := by
  obtain ⟨e, he⟩ := getHeader_split h
  have hstop (l : Bytes) : firstLine l = firstLine (l ++ 0x0d :: [0x0a, 0x0d, 0x0a] ++ e) := by
    induction l with
    | nil => rfl
    | cons a l ih =>
      simp only [firstLine, Slice.eatLine, List.cons_append, List.takeWhile_cons] at ih ⊢
      rw [ih]
  conv_rhs => rw [he]
  exact hstop _

/-! ### The header fields -/

/-- The name and the value of one header line, when it is accepted. -/
def headerLine (line : Bytes) : Option (Bytes × Bytes) :=
  let (key, line) := Slice.eatWord line
  let (value, _) := Slice.eatWord line
  if value ≠ [] ∧ key ≠ [] ∧ Slice.back key = some 0x3a then some (Slice.sub key 0 (-1), value)
  else none

/-- What the header loop inserts, when it accepts all lines. -/
def headerFields : ℕ → Bytes → Option Headers
  | 0, _ => some []
  | fuel + 1, header =>
    if header = [] then some [] else
      match headerLine (firstLine (header.drop 2)) with
      | none => none
      | some kv => (headerFields fuel (Slice.eatLine (header.drop 2)).2).map (kv :: ·)

namespace Headers

def insertAll (m : Headers) (kvs : Headers) : Headers := kvs.foldl (fun m kv => m.insert kv.1 kv.2) m

theorem lookup_insert (m : Headers) (k v k' : Bytes) :
    (m.insert k v).lookup k' = (m.lookup k').or ([(k, v)].lookup k') := by
  unfold insert
  split_ifs with h
  · by_cases hk : k' = k
    · rw [hk, Option.or_of_isSome h]
    · have hkb : (k' == k) = false := by simpa using hk
      simp [List.lookup_cons, hkb]
  · rw [List.lookup_append]

theorem lookup_insertAll (m kvs : Headers) (k : Bytes) :
    (m.insertAll kvs).lookup k = (m.lookup k).or (kvs.lookup k) := by
  induction kvs generalizing m with
  | nil => simp [insertAll]
  | cons kv kvs ih =>
    rw [insertAll, List.foldl_cons, ← insertAll, ih, lookup_insert, Option.or_assoc,
      ← List.lookup_append]
    rfl

theorem lookup_isSome_of_mem {kvs : Headers} {kv : Bytes × Bytes} (h : kv ∈ kvs) :
    (kvs.lookup kv.1).isSome := by
  induction kvs with
  | nil => cases h
  | cons kv' kvs ih =>
    rw [List.lookup_cons]
    rcases List.mem_cons.mp h with rfl | h
    · simp
    · split
      · rfl
      · exact ih h

theorem insertAll_of_known {m : Headers} {kvs : Headers} (h : ∀ kv ∈ kvs, (m.lookup kv.1).isSome) :
    m.insertAll kvs = m := by
  induction kvs with
  | nil => rfl
  | cons kv kvs ih =>
    rw [insertAll, List.foldl_cons, insert, if_pos (h kv List.mem_cons_self)]
    exact ih fun kv hkv => h kv (List.mem_cons_of_mem _ hkv)

theorem insertAll_insertAll (m kvs : Headers) : (m.insertAll kvs).insertAll kvs = m.insertAll kvs :=
  insertAll_of_known fun kv h => by
    rw [lookup_insertAll, Option.isSome_or, lookup_isSome_of_mem h, Bool.or_true]

end Headers

namespace HttpCodec

def withHeaders (c : HttpCodec) (m : Headers) : HttpCodec := { c with m_req.m_headers := m }

theorem headerLoop_succ (fuel : ℕ) {header : Bytes} (hne : header ≠ []) (c : HttpCodec) :
    headerLoop (fuel + 1) header c =
      match headerLine (firstLine (header.drop 2)) with
      | none => (false, { c with m_status := some .bad_request })
      | some kv => headerLoop fuel (Slice.eatLine (header.drop 2)).2
          (c.withHeaders (c.m_req.m_headers.insert kv.1 kv.2)) := by
  simp only [headerLoop, if_neg hne, headerLine, firstLine, Slice.eat]
  by_cases hok : (Slice.eatWord (Slice.eatWord (Slice.eatLine (header.drop 2)).1).2).1 ≠ [] ∧
      (Slice.eatWord (Slice.eatLine (header.drop 2)).1).1 ≠ [] ∧
      Slice.back (Slice.eatWord (Slice.eatLine (header.drop 2)).1).1 = some 0x3a
  · simp only [hok, ne_eq, not_false_eq_true, and_self, if_true]
    rfl
  · simp only [hok, if_false]

theorem headerLoop_some {fuel : ℕ} {header : Bytes} {kvs : Headers}
    (h : headerFields fuel header = some kvs) (c : HttpCodec) :
    headerLoop fuel header c = (true, c.withHeaders (c.m_req.m_headers.insertAll kvs)) := by
  induction fuel generalizing header c kvs with
  | zero =>
    obtain rfl := Option.some.inj h
    rfl
  | succ fuel ih =>
    by_cases hnil : header = []
    · simp only [headerFields, if_pos hnil, Option.some.injEq] at h
      subst h
      simp only [headerLoop, if_pos hnil]
      rfl
    · rw [headerLoop_succ fuel hnil]
      simp only [headerFields, if_neg hnil] at h
      cases hl : headerLine (firstLine (header.drop 2)) with
      | none => simp [hl] at h
      | some kv =>
        simp only [hl] at h
        obtain ⟨rest, hrest, rfl⟩ := Option.map_eq_some_iff.mp h
        simp only [ih hrest]
        rfl

theorem headerLoop_none {fuel : ℕ} {header : Bytes} (h : headerFields fuel header = none)
    (c : HttpCodec) : (headerLoop fuel header c).1 = false := by
  induction fuel generalizing header c with
  | zero => cases h
  | succ fuel ih =>
    by_cases hnil : header = []
    · simp [headerFields, hnil] at h
    · rw [headerLoop_succ fuel hnil]
      simp only [headerFields, if_neg hnil] at h
      cases hl : headerLine (firstLine (header.drop 2)) with
      | none => rfl
      | some kv =>
        simp only [hl, Option.map_eq_none_iff] at h
        exact ih h _

/-! ### When the answer is positive -/

def versionOf (header : Bytes) : Bytes :=
  (Slice.eatWord (Slice.eatWord (Slice.eatWord (firstLine header)).2).2).1

/-- What `decodeHeader` needs to accept a header block, given the fields `m` of earlier calls. -/
structure Accepts (w : ℕ) (m : Headers) (m_inBuf header : Bytes) (kvs : Headers) : Prop where
  method : (Slice.eatWord (firstLine header)).1 = ascii "GET"
  url : ((Slice.eatWord (Slice.eatWord (firstLine header)).2).1).head? = some 0x2f
  version : versionOf header ∈ [ascii "HTTP/1.0", ascii "HTTP/1.1"]
  fields : headerFields (Slice.eatLine header).2.length (Slice.eatLine header).2 = some kvs
  host : ((m.insertAll kvs).lookup (ascii "Host")).isSome
  complete : ¬ (m_inBuf.length : ℤ) < (((header.length + 4 : ℕ) : ℤ) +
    atoi (getHeaderField (m.insertAll kvs) (ascii "content-length"))) % 2 ^ w

def parsed (c : HttpCodec) (header : Bytes) (kvs : Headers) : HttpCodec :=
  { c with
    m_req.m_method := (Slice.eatWord (firstLine header)).1
    m_req.m_url := (Slice.eatWord (Slice.eatWord (firstLine header)).2).1
    m_req.m_version := versionOf header
    m_req.m_headers := c.m_req.m_headers.insertAll kvs }

/-- The codec once `getHeader` found the end of the header block at index `i`. -/
def scanned (c : HttpCodec) (i : ℕ) : HttpCodec := { c with m_req.m_nHeaderLength := i + 4 }

theorem tryDecode_some {w : ℕ} {d : Bytes} {i : ℕ} (hi : getHeader d = some i) (h0 : 0 < i)
    (c : HttpCodec) : tryDecode w c d = decodeHeader w (c.scanned i) d (d.take i) := by
  rw [tryDecode, hi]
  simp only [if_neg (Nat.ne_of_gt h0)]
  rfl

theorem decodeHeader_eq (w : ℕ) (c : HttpCodec) (m_inBuf header : Bytes) :
    decodeHeader w c m_inBuf header =
      if versionOf header = [] then (-1, { c with m_status := some .bad_request })
      else match headerLoop (Slice.eatLine header).2.length (Slice.eatLine header).2
          (c.parsed header []) with
        | (false, c) => (-1, c)
        | (true, c) =>
          match c.parseStartLine with
          | (false, c) => (-1, c)
          | (true, c) =>
            match c.parseHeader with
            | (false, c) => (-1, c)
            | (true, c) => finish w c m_inBuf := rfl

theorem decodeHeader_some {header : Bytes} (w : ℕ) (c : HttpCodec) (m_inBuf : Bytes) {kvs : Headers}
    (hv : versionOf header ≠ [])
    (h : headerFields (Slice.eatLine header).2.length (Slice.eatLine header).2 = some kvs) :
    decodeHeader w c m_inBuf header =
      match (c.parsed header kvs).parseStartLine with
      | (false, c) => (-1, c)
      | (true, c) =>
        match c.parseHeader with
        | (false, c) => (-1, c)
        | (true, c) => finish w c m_inBuf := by
  rw [decodeHeader_eq, if_neg hv, headerLoop_some h]
  rfl

structure StartLineOk (c : HttpCodec) : Prop where
  version : c.m_req.m_version ∈ [ascii "HTTP/1.0", ascii "HTTP/1.1"]
  method : c.m_req.m_method ∈ [ascii "GET", ascii "POST"]
  url : c.m_req.m_url.head? = some 0x2f

theorem mem_pair_iff {a b x : Bytes} : x ∈ [a, b] ↔ ¬ (a ≠ x ∧ b ≠ x) := by
  simp only [List.mem_cons, List.not_mem_nil, or_false, not_and_or, not_not, eq_comm]

theorem parseStartLine_of_ok {c : HttpCodec} (h : c.StartLineOk) : c.parseStartLine = (true, c) := by
  obtain ⟨hv, hm, hu⟩ := h
  have hv' := mem_pair_iff.mp hv
  have hm' := mem_pair_iff.mp hm
  cases hurl : c.m_req.m_url with
  | nil => simp [hurl] at hu
  | cons b t =>
    obtain rfl : b = 0x2f := by simpa [hurl] using hu
    simp [parseStartLine, hv', hm', hurl]

theorem ok_of_parseStartLine {c : HttpCodec} (h : c.parseStartLine.1 = true) : c.StartLineOk := by
  unfold parseStartLine at h
  split_ifs at h with hv hm
  cases hurl : c.m_req.m_url with
  | nil => simp [hurl] at h
  | cons b t =>
    have hb : 0x2f = b := by
      by_contra hne
      simp [hurl, hne] at h
    exact ⟨mem_pair_iff.mpr hv, mem_pair_iff.mpr hm, by rw [hurl, ← hb]; rfl⟩

structure HeaderOk (c : HttpCodec) : Prop where
  length : c.m_req.m_method = ascii "POST" →
    (c.m_req.m_headers.lookup (ascii "Content-Length")).isSome
  host : (c.m_req.m_headers.lookup (ascii "Host")).isSome

theorem parseHeader_of_ok {c : HttpCodec} (h : c.HeaderOk) : c.parseHeader = (true, c) := by
  have hl : ¬ (ascii "POST" = c.m_req.m_method ∧
      c.m_req.m_headers.lookup (ascii "Content-Length") = none) := fun ⟨hp, hn⟩ => by
    have := h.length hp.symm
    simp [hn] at this
  have hh : c.m_req.m_headers.lookup (ascii "Host") ≠ none := fun hn => by
    have := h.host
    simp [hn] at this
  rw [parseHeader, if_neg hl, if_neg hh]

theorem ok_of_parseHeader {c : HttpCodec} (h : c.parseHeader.1 = true) : c.HeaderOk := by
  unfold parseHeader at h
  split_ifs at h with hl hh
  refine ⟨fun hp => ?_, Option.isSome_iff_ne_none.mpr hh⟩
  rw [Option.isSome_iff_ne_none]
  exact fun hn => hl ⟨hp.symm, hn⟩

theorem parseStartLine_req (c : HttpCodec) : c.parseStartLine.2.m_req = c.m_req := by
  unfold parseStartLine
  split_ifs
  · rfl
  · rfl
  · split
    · rfl
    · split_ifs <;> rfl

theorem parseHeader_req (c : HttpCodec) : c.parseHeader.2.m_req = c.m_req := by
  unfold parseHeader
  split_ifs <;> rfl

end HttpCodec
end NetDemo.Http
