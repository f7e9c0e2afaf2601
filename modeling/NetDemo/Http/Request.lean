import NetDemo.Http.Lines
import NetDemo.Http.Verdict

/-! The grammar of the requests that clients send, and how `tryDecode` answers to one of them with
further bytes behind it. -/

namespace NetDemo.Http
open Foundation

def isBlank (b : UInt8) : Bool := b == 0x20 || b == 0x09

def toLower (b : UInt8) : UInt8 := if 0x41 ≤ b && b ≤ 0x5a then b + 0x20 else b

theorem isspace_of_isBlank {b : UInt8} (h : isBlank b) : isspace b := by
  simp only [isBlank, Bool.or_eq_true, beq_iff_eq] at h
  rcases h with rfl | rfl <;> decide

theorem isEol_of_isBlank {b : UInt8} (h : isBlank b) : isEol b = false := by
  simp only [isBlank, Bool.or_eq_true, beq_iff_eq] at h
  rcases h with rfl | rfl <;> decide

/-- One header field with a value of a single word. -/
structure Field where
  name : Bytes
  gap : Bytes
  value : Bytes
  trail : Bytes
  name_ne : name ≠ []
  name_word : ∀ b ∈ name, isspace b = false ∧ b ≠ 0x3a
  gap_blank : ∀ b ∈ gap, isBlank b
  value_ne : value ≠ []
  value_word : ∀ b ∈ value, isspace b = false
  trail_blank : ∀ b ∈ trail, isBlank b

def Field.text (f : Field) : Bytes := f.name ++ [0x3a] ++ f.gap ++ f.value ++ f.trail

def Field.IsLength (f : Field) : Prop := f.name.map toLower = ascii "content-length"

instance (f : Field) : Decidable f.IsLength := inferInstanceAs (Decidable (_ = _))

inductive Method
  | get | post
deriving DecidableEq

def Method.text : Method → Bytes
  | .get => ascii "GET"
  | .post => ascii "POST"

inductive Version
  | v1_0 | v1_1

def Version.text : Version → Bytes
  | .v1_0 => ascii "HTTP/1.0"
  | .v1_1 => ascii "HTTP/1.1"

/-- A well-formed request; field names count in any case. -/
structure Request where
  method : Method
  url : Bytes
  version : Version
  fields : List Field
  body : Bytes
  url_head : url.head? = some 0x2f
  url_word : ∀ b ∈ url, isspace b = false
  host : ∃ f ∈ fields, f.name.map toLower = ascii "host"
  length_digits : ∀ f ∈ fields, f.IsLength → ∀ b ∈ f.value, isDigit b
  length_eq : ∀ f ∈ fields, f.IsLength → digits f.value = body.length
  post_length : method = .post → ∃ f ∈ fields, f.IsLength
  body_length : body ≠ [] → ∃ f ∈ fields, f.IsLength

namespace Request

def startLine (r : Request) : Bytes :=
  r.method.text ++ [0x20] ++ r.url ++ [0x20] ++ r.version.text

def fieldLines (fields : List Field) : Bytes := fields.flatMap fun f => crlf ++ f.text

def header (r : Request) : Bytes := r.startLine ++ fieldLines r.fields

def text (r : Request) : Bytes := r.header ++ crlfcrlf ++ r.body

/-- The spelling that the header map looks for: a blank after every colon, and `Host`. -/
structure Plain (r : Request) : Prop where
  gaps : ∀ f ∈ r.fields, f.gap ≠ []
  host : ∃ f ∈ r.fields, f.name = ascii "Host"

def kvs (fields : List Field) : Headers := fields.map fun f => (f.name, f.value)

end Request

/-! ### One field -/

namespace Field

theorem text_noEol (f : Field) : ∀ b ∈ f.text, isEol b = false := by
  intro b hb
  simp only [text, List.mem_append, List.mem_singleton] at hb
  rcases hb with (((hb | rfl) | hb) | hb) | hb
  · exact isEol_of_not_isspace (f.name_word b hb).1
  · decide
  · exact isEol_of_isBlank (f.gap_blank b hb)
  · exact isEol_of_not_isspace (f.value_word b hb)
  · exact isEol_of_isBlank (f.trail_blank b hb)

theorem text_ne (f : Field) : f.text ≠ [] := by simp [text]

theorem head_trail (f : Field) : ∀ b ∈ f.trail.head?, isspace b := fun b hb =>
  isspace_of_isBlank (f.trail_blank b (List.mem_of_mem_head? hb))

theorem name_colon_word (f : Field) : ∀ b ∈ f.name ++ [0x3a], isspace b = false := by
  intro b hb
  rcases List.mem_append.mp hb with hb | hb
  · exact (f.name_word b hb).1
  · rw [List.mem_singleton.mp hb]
    decide

theorem headerLine_text (f : Field) (hgap : f.gap ≠ []) : headerLine f.text = some (f.name, f.value) := by
  have hkey : Slice.eatWord f.text = (f.name ++ [0x3a], f.gap ++ f.value ++ f.trail) := by
    have := eatWord_append (s := []) (t := f.gap ++ f.value ++ f.trail) (by simp) (by simp)
      f.name_colon_word (fun b hb => by
        obtain ⟨a, gap, hg⟩ := List.exists_cons_of_ne_nil hgap
        obtain rfl : a = b := by simpa [hg] using hb
        exact isspace_of_isBlank (f.gap_blank a (by rw [hg]; exact List.mem_cons_self)))
    simpa [text] using this
  have hvalue : Slice.eatWord (f.gap ++ f.value ++ f.trail) = (f.value, f.trail) :=
    eatWord_append (fun b hb => isspace_of_isBlank (f.gap_blank b hb)) f.value_ne f.value_word f.head_trail
  have hback : Slice.back (f.name ++ [0x3a]) = some 0x3a := by simp [Slice.back]
  have hsub : Slice.sub (f.name ++ [0x3a]) 0 (-1) = f.name := by
    simp [Slice.sub]
  simp only [headerLine, hkey, hvalue, hsub]
  exact if_pos ⟨f.value_ne, by simp, hback⟩

/-- Without a blank after the colon the value is taken for a part of the key. -/
theorem headerLine_gapless (f : Field) (hgap : f.gap = []) : headerLine f.text = none := by
  have hkey : Slice.eatWord f.text = (f.name ++ [0x3a] ++ f.value, f.trail) := by
    have := @eatWord_append [] (f.name ++ [0x3a] ++ f.value) _ (by simp) (by simp)
      (fun b hb => (List.mem_append.mp hb).elim (f.name_colon_word b) (f.value_word b)) f.head_trail
    simpa [text, hgap] using this
  have hvalue := eatWord_blank fun b hb => isspace_of_isBlank (f.trail_blank b hb)
  simp [headerLine, hkey, hvalue]

end Field

namespace Request

theorem fieldLines_eq (fs : List Field) : fieldLines fs = lineBlock (fs.map Field.text) := by
  rw [fieldLines, lineBlock, List.flatMap_map]

theorem text_of_mem {fs : List Field} : ∀ l ∈ fs.map Field.text, l ≠ [] ∧ ∀ b ∈ l, isEol b = false := by
  intro l hl
  obtain ⟨f, -, rfl⟩ := List.mem_map.mp hl
  exact ⟨f.text_ne, f.text_noEol⟩

theorem headerFields_fieldLines {fs : List Field} (hgap : ∀ f ∈ fs, f.gap ≠ []) :
    headerFields (fieldLines fs).length (fieldLines fs) = some (kvs fs) := by
  rw [fieldLines_eq, headerFields_lineBlock (fun l hl => (text_of_mem l hl).2) (length_le_lineBlock _),
    kvs, List.forall₂_map_left_iff, List.forall₂_map_right_iff]
  exact List.forall₂_same.mpr fun f hf => f.headerLine_text (hgap f hf)

theorem headerFields_gapless {fs : List Field} {f : Field} (hf : f ∈ fs) (hgap : f.gap = []) (kvs : Headers) :
    headerFields (fieldLines fs).length (fieldLines fs) ≠ some kvs := by
  rw [fieldLines_eq, Ne, headerFields_lineBlock (fun l hl => (text_of_mem l hl).2) (length_le_lineBlock _)]
  intro hall
  obtain ⟨kv, -, hkv⟩ := exists_of_forall₂ hall (List.mem_map_of_mem hf)
  rw [f.headerLine_gapless hgap] at hkv
  cases hkv

/-! ### The header block -/

theorem startLine_noEol (r : Request) : ∀ b ∈ r.startLine, isEol b = false := by
  intro b hb
  have hm : ∀ b ∈ r.method.text, isEol b = false := by cases r.method <;> decide +kernel
  have hv : ∀ b ∈ r.version.text, isEol b = false := by cases r.version <;> decide +kernel
  simp only [startLine, List.mem_append, List.mem_singleton] at hb
  rcases hb with (((hb | rfl) | hb) | rfl) | hb
  · exact hm b hb
  · decide
  · exact isEol_of_not_isspace (r.url_word b hb)
  · decide
  · exact hv b hb

theorem getHeader_header (r : Request) (e : Bytes) :
    getHeader (r.header ++ crlfcrlf ++ e) = some r.header.length := by
  rw [header, fieldLines_eq, List.append_assoc]
  exact getHeader_block r.startLine_noEol text_of_mem e

theorem eatLine_header (r : Request) :
    Slice.eatLine r.header = (r.startLine, fieldLines r.fields) := by
  rw [header, fieldLines_eq]
  exact eatLine_lineBlock r.startLine_noEol _

theorem words_startLine (r : Request) :
    Slice.eatWord r.startLine = (r.method.text, 0x20 :: r.url ++ 0x20 :: r.version.text) ∧
    Slice.eatWord (0x20 :: r.url ++ 0x20 :: r.version.text) = (r.url, 0x20 :: r.version.text) ∧
    Slice.eatWord (0x20 :: r.version.text) = (r.version.text, []) := by
  have hblank : ∀ b ∈ ([0x20] : Bytes), isspace b := by decide +kernel
  have hm : r.method.text ≠ [] ∧ ∀ b ∈ r.method.text, isspace b = false := by
    cases r.method <;> decide +kernel
  have hv : r.version.text ≠ [] ∧ ∀ b ∈ r.version.text, isspace b = false := by
    cases r.version <;> decide +kernel
  have hurl : r.url ≠ [] := fun he => by simpa [he] using r.url_head
  have hsp (t : Bytes) : ∀ b ∈ (0x20 :: t).head?, isspace b := by
    intro b hb
    obtain rfl : 0x20 = b := by simpa using hb
    decide
  refine ⟨?_, ?_, ?_⟩
  · have := eatWord_append (s := []) (by simp) hm.1 hm.2 (hsp (r.url ++ 0x20 :: r.version.text))
    simpa [startLine] using this
  · simpa using eatWord_append hblank hurl r.url_word (hsp r.version.text)
  · simpa using eatWord_append (t := []) hblank hv.1 hv.2 (by simp)

theorem firstLine_header (r : Request) : firstLine r.header = r.startLine := by
  rw [firstLine, eatLine_header]

theorem versionOf_header (r : Request) : HttpCodec.versionOf r.header = r.version.text := by
  obtain ⟨h₁, h₂, h₃⟩ := r.words_startLine
  rw [HttpCodec.versionOf, firstLine_header, h₁, h₂, h₃]

theorem header_pos (r : Request) : 0 < r.header.length := by
  cases h : r.method <;> simp [header, startLine, h, Method.text, ascii]

theorem take_header (r : Request) (e : Bytes) :
    (r.text ++ e).take r.header.length = r.header := by
  simp [text]

theorem length_text (r : Request) : r.text.length = r.header.length + 4 + r.body.length := by
  simp [text]
  omega

/-! ### The fields the decoder asks for -/

theorem lookup_kvs_isSome (fs : List Field) (k : Bytes) :
    ((kvs fs).lookup k).isSome ↔ ∃ f ∈ fs, f.name = k := by
  induction fs with
  | nil => simp [kvs]
  | cons f fs ih =>
    by_cases hk : k = f.name
    · simp [kvs, hk]
    · have hkf : (k == f.name) = false := by simpa using hk
      rw [kvs, List.map_cons, List.lookup_cons, hkf, ← kvs, ih]
      simp [Ne.symm hk]

theorem mem_of_lookup_kvs {fs : List Field} {k v : Bytes} (h : (kvs fs).lookup k = some v) :
    ∃ f ∈ fs, f.name = k ∧ f.value = v := by
  induction fs with
  | nil => cases h
  | cons f fs ih =>
    rw [kvs, List.map_cons, List.lookup_cons] at h
    split at h
    · next hk => exact ⟨f, List.mem_cons_self, (by simpa using hk : k = f.name).symm, Option.some.inj h⟩
    · obtain ⟨g, hg, hgk⟩ := ih h
      exact ⟨g, List.mem_cons_of_mem _ hg, hgk⟩

theorem insertAll_nil_lookup (fs : List Field) (k : Bytes) :
    (Headers.insertAll [] (kvs fs)).lookup k = (kvs fs).lookup k := by
  rw [Headers.lookup_insertAll]
  rfl

theorem isspace_of_isDigit {b : UInt8} (h : isDigit b) : isspace b = false := by
  simp only [isDigit, Bool.and_eq_true, decide_eq_true_eq] at h
  simp only [isspace, Bool.or_eq_false_iff, Bool.and_eq_false_iff, beq_eq_false_iff_ne,
    decide_eq_false_iff_not]
  refine ⟨?_, .inr ?_⟩
  · rintro rfl
    exact absurd h.1 (by decide)
  · exact fun hle => absurd (UInt8.le_trans h.1 hle) (by decide)

theorem atoi_digits {s : Bytes} (hd : ∀ b ∈ s, isDigit b) : atoi s = min (2 ^ 31 - 1) (digits s : ℤ) := by
  have hspace : s.dropWhile isspace = s := by
    cases s with
    | nil => rfl
    | cons a t =>
      exact List.dropWhile_cons_of_neg (by simp [isspace_of_isDigit (hd a List.mem_cons_self)])
  have hsign : ∀ a ∈ s.head?, a ≠ 0x2b ∧ a ≠ 0x2d := by
    intro a ha
    have := hd a (List.mem_of_mem_head? ha)
    constructor <;> (rintro rfl; exact absurd this (by decide))
  simp only [atoi, hspace]
  split
  · exact absurd rfl (hsign _ rfl).1
  · exact absurd rfl (hsign _ rfl).2
  · omega

theorem contentLength_le (r : Request) :
    ∃ n : ℕ, atoi (getHeaderField (Headers.insertAll [] (kvs r.fields)) (ascii "content-length")) = n ∧
      n ≤ r.body.length := by
  rw [getHeaderField, insertAll_nil_lookup]
  cases h : (kvs r.fields).lookup (ascii "content-length") with
  | none => exact ⟨0, rfl, Nat.zero_le _⟩
  | some v =>
    obtain ⟨f, hf, hname, rfl⟩ := mem_of_lookup_kvs h
    have hlen : f.IsLength := by rw [Field.IsLength, hname]; decide
    rw [Option.getD_some, atoi_digits (r.length_digits f hf hlen), r.length_eq f hf hlen]
    exact ⟨min (2 ^ 31 - 1) r.body.length, by omega, Nat.min_le_right ..⟩

theorem accepts (r : Request) (w : ℕ) (e : Bytes) (hget : r.method = .get) (hp : r.Plain) :
    HttpCodec.Accepts w [] (r.text ++ e) r.header (kvs r.fields) where
  method := by rw [firstLine_header, r.words_startLine.1, hget]; rfl
  url := by rw [firstLine_header, r.words_startLine.1, r.words_startLine.2.1]; exact r.url_head
  version := by rw [versionOf_header]; cases r.version <;> decide
  fields := by
    rw [eatLine_header]
    exact headerFields_fieldLines hp.gaps
  host := by
    rw [insertAll_nil_lookup, lookup_kvs_isSome]
    exact hp.host
  complete := by
    obtain ⟨n, hn, hle⟩ := r.contentLength_le
    have hlen := r.length_text
    rw [hn, ← Nat.cast_add, List.length_append]
    have hmod := Nat.mod_le (r.header.length + 4 + n) (2 ^ w)
    have hcast : ((r.header.length + 4 + n : ℕ) : ℤ) % 2 ^ w =
        ((r.header.length + 4 + n) % 2 ^ w : ℕ) := by push_cast; rfl
    omega

theorem plain_of_pos (r : Request) (w : ℕ) (e : Bytes)
    (h : 0 < (HttpCodec.tryDecode w .new (r.text ++ e)).1) : r.method = .get ∧ r.Plain := by
  obtain ⟨i, m, hi, -, ha⟩ := HttpCodec.accepts_of_pos h
  have htext : r.text ++ e = r.header ++ crlfcrlf ++ (r.body ++ e) := by simp [text]
  rw [htext, getHeader_header] at hi
  obtain rfl := Option.some.inj hi
  rw [take_header] at ha
  have hm := ha.method
  have hf := ha.fields
  have hh := ha.host
  rw [firstLine_header, r.words_startLine.1] at hm
  rw [eatLine_header] at hf
  have hgaps : ∀ f ∈ r.fields, f.gap ≠ [] := fun f hfm hgap => by
    exact headerFields_gapless hfm hgap _ hf
  rw [headerFields_fieldLines hgaps] at hf
  obtain rfl := Option.some.inj hf
  refine ⟨?_, hgaps, ?_⟩
  · cases hmeth : r.method with
    | get => rfl
    | post =>
      rw [hmeth] at hm
      exact absurd (show Method.text .post = ascii "GET" from hm) (by decide)
  · have hnew : HttpCodec.new.m_req.m_headers = [] := rfl
    rwa [hnew, insertAll_nil_lookup, lookup_kvs_isSome] at hh

theorem answers (r : Request) (w : ℕ) (e : Bytes) (hget : r.method = .get) (hp : r.Plain)
    (hlen : (r.text ++ e).length < 2 ^ 31) : HttpCodec.Answers w [] (r.text ++ e) := by
  have htext : r.text ++ e = r.header ++ crlfcrlf ++ (r.body ++ e) := by simp [text]
  refine ⟨hlen, r.header.length, kvs r.fields, by rw [htext, getHeader_header], r.header_pos, ?_⟩
  rw [take_header]
  exact r.accepts w e hget hp

theorem tryDecode_plain (r : Request) (w : ℕ) (e : Bytes) (hget : r.method = .get) (hp : r.Plain) :
    (HttpCodec.tryDecode w .new (r.text ++ e)).1 = int32 (uint (r.text ++ e).length) := by
  have htext : r.text ++ e = r.header ++ crlfcrlf ++ (r.body ++ e) := by simp [text]
  have hi : getHeader (r.text ++ e) = some r.header.length := by
    rw [htext, getHeader_header]
  have ha : HttpCodec.Accepts w HttpCodec.new.m_req.m_headers (r.text ++ e)
      ((r.text ++ e).take r.header.length) (kvs r.fields) := by
    rw [take_header]
    exact r.accepts w e hget hp
  rw [HttpCodec.tryDecode_of_accepts hi r.header_pos ha]

/-- The number of scanned bytes is the length of the first message just when that message is a plain
`GET` of less than 2^31 bytes and nothing follows it. -/
theorem tryDecode_eq_message_length_iff (r : Request) (w : ℕ) (e : Bytes)
    (hlen : (r.text ++ e).length < 2 ^ 32) :
    (HttpCodec.tryDecode w .new (r.text ++ e)).1 = (r.header.length + 4 + r.body.length : ℕ) ↔
      r.method = .get ∧ r.Plain ∧ e = [] ∧ r.text.length < 2 ^ 31 := by
  have htext := r.length_text
  have happ : (r.text ++ e).length = r.text.length + e.length := List.length_append
  constructor
  · intro h
    obtain ⟨hget, hp⟩ := r.plain_of_pos w e (by omega)
    rw [r.tryDecode_plain w e hget hp, uint_natCast hlen, int32] at h
    have he : e.length = 0 := by split_ifs at h <;> omega
    refine ⟨hget, hp, List.eq_nil_of_length_eq_zero he, ?_⟩
    split_ifs at h <;> omega
  · rintro ⟨hget, hp, rfl, hshort⟩
    rw [r.tryDecode_plain w [] hget hp, uint_natCast hlen, int32_of_lt (by simpa using hshort),
      List.append_nil, htext]

def hostField : Field where
  name := ascii "Host"
  gap := [0x20]
  value := ascii "a"
  trail := []
  name_ne := by decide
  name_word := by decide +kernel
  gap_blank := by decide +kernel
  value_ne := by decide
  value_word := by decide +kernel
  trail_blank := by decide +kernel

/-- `GET /aa…a` with the fields of `hostField` only. -/
def index (n : ℕ) : Request where
  method := .get
  url := 0x2f :: List.replicate n 0x61
  version := .v1_1
  fields := [hostField]
  body := []
  url_head := rfl
  url_word b hb := by
    rcases List.mem_cons.mp hb with rfl | hb
    · decide
    · rw [List.eq_of_mem_replicate hb]
      decide
  host := by decide
  length_digits := by decide
  length_eq := by decide
  post_length h := by cases h
  body_length h := absurd rfl h

theorem index_plain (n : ℕ) : (index n).Plain where
  gaps f hf := by
    rw [List.mem_singleton.mp hf]
    decide
  host := ⟨hostField, List.mem_singleton.mpr rfl, rfl⟩

theorem length_index (n : ℕ) : (index n).text.length = n + 27 := by
  have hm : (Method.text .get).length = 3 := rfl
  have hv : (Version.text .v1_1).length = 8 := rfl
  have hf : (fieldLines [hostField]).length = 9 := rfl
  simp only [text, header, startLine, index, List.length_append, hm, hv, hf, crlfcrlf, List.length_cons,
    List.length_nil, List.length_replicate]
  omega

theorem tryDecode_index_message_length :
    (HttpCodec.tryDecode 32 .new ((index 0).text ++ [])).1 =
        ((index 0).header.length + 4 + (index 0).body.length : ℕ) :=
  ((index 0).tryDecode_eq_message_length_iff 32 [] (by decide)).mpr
    ⟨rfl, index_plain 0, rfl, by decide⟩

/-- Two requests in one buffer are reported as one message. -/
theorem tryDecode_two_index_ne_message_length :
    (HttpCodec.tryDecode 32 .new ((index 0).text ++ (index 0).text)).1 ≠
        ((index 0).header.length + 4 + (index 0).body.length : ℕ) := by
  decide

end Request
end NetDemo.Http
