import NetDemo.Http.Extend
import NetDemo.Http.Lines
import Mathlib.Data.List.Nodup

/-! What `HttpCodec::tryDecode` makes of a request head that was serialised line by line. -/

namespace NetDemo.Http
open Foundation

/-- A request head: what `parseStartLine` accepts, and fields with any text for a value. -/
structure Head where
  method : Bytes
  url : Bytes
  version : Bytes
  fields : List (Bytes × Bytes)
  method_word : method ≠ [] ∧ ∀ b ∈ method, isspace b = false
  url_word : url ≠ [] ∧ ∀ b ∈ url, isspace b = false
  version_word : version ≠ [] ∧ ∀ b ∈ version, isspace b = false
  accepted : (HttpCodec.parseStartLine { HttpCodec.new with
    m_req.m_method := method, m_req.m_url := url, m_req.m_version := version }).1 = true
  names_nodup : (fields.map Prod.fst).Nodup
  name_word : ∀ f ∈ fields, f.1 ≠ [] ∧ ∀ b ∈ f.1, isspace b = false ∧ b ≠ 0x3a
  value_text : ∀ f ∈ fields, f.2 ≠ [] ∧ ∀ b ∈ f.2, isEol b = false
  value_trimmed : ∀ f ∈ fields, (∀ b ∈ f.2.head?, isspace b = false) ∧ ∀ b ∈ f.2.getLast?, isspace b = false
  host : ascii "Host" ∈ fields.map Prod.fst
  post_length : method = ascii "POST" → ascii "Content-Length" ∈ fields.map Prod.fst

namespace Head

def text (h : Head) : Bytes :=
  h.method ++ [0x20] ++ h.url ++ [0x20] ++ h.version ++ crlf ++
    (h.fields.flatMap fun f => f.1 ++ [0x3a, 0x20] ++ f.2 ++ crlf) ++ crlf

def startLine (h : Head) : Bytes := h.method ++ (0x20 :: h.url ++ 0x20 :: h.version)

def line (f : Bytes × Bytes) : Bytes := (f.1 ++ [0x3a]) ++ 0x20 :: f.2

theorem text_eq (h : Head) : h.text = h.startLine ++ lineBlock (h.fields.map line) ++ (crlfcrlf ++ []) := by
  have hshift (fs : List (Bytes × Bytes)) :
      crlf ++ (fs.flatMap fun f => f.1 ++ [0x3a, 0x20] ++ f.2 ++ crlf) ++ crlf =
        lineBlock (fs.map line) ++ crlfcrlf := by
    induction fs with
    | nil => rfl
    | cons f fs ih =>
      rw [List.map_cons, lineBlock_cons, List.append_assoc (crlf ++ line f), ← ih]
      simp [line]
  rw [List.append_nil, List.append_assoc, ← hshift]
  simp [text, startLine]

theorem words_startLine (h : Head) : words h.startLine = [h.method, h.url, h.version] := by
  have hsp (t : Bytes) : ∀ b ∈ (0x20 :: t).head?, isspace b := by
    intro b hb
    obtain rfl : 0x20 = b := by simpa using hb
    rfl
  have hversion := words_word_append (t := []) h.version_word.1 h.version_word.2 (by simp)
  rw [List.append_nil] at hversion
  rw [startLine, List.cons_append, words_word_append h.method_word.1 h.method_word.2 (hsp _),
    words_cons_blank rfl, words_word_append h.url_word.1 h.url_word.2 (hsp _), words_cons_blank rfl, hversion]
  rfl

theorem startLine_noEol (h : Head) : ∀ b ∈ h.startLine, isEol b = false := by
  intro b hb
  simp only [startLine, List.mem_append, List.mem_cons] at hb
  rcases hb with hb | (rfl | hb) | rfl | hb
  · exact isEol_of_not_isspace (h.method_word.2 b hb)
  · rfl
  · exact isEol_of_not_isspace (h.url_word.2 b hb)
  · rfl
  · exact isEol_of_not_isspace (h.version_word.2 b hb)

theorem line_noEol (h : Head) : ∀ l ∈ h.fields.map line, l ≠ [] ∧ ∀ b ∈ l, isEol b = false := by
  intro l hl
  obtain ⟨f, hf, rfl⟩ := List.mem_map.mp hl
  refine ⟨by simp [line], fun b hb => ?_⟩
  simp only [line, List.mem_append, List.mem_cons, List.not_mem_nil, or_false] at hb
  rcases hb with (hb | rfl) | rfl | hb
  · exact isEol_of_not_isspace ((h.name_word f hf).2 b hb).1
  · rfl
  · rfl
  · exact (h.value_text f hf).2 b hb

/-- The loop takes the first word of a value for the whole. -/
theorem headerLine_line (h : Head) {f : Bytes × Bytes} (hf : f ∈ h.fields) :
    headerLine (line f) = some (f.1, (Slice.eatWord f.2).1) := by
  obtain ⟨hne, hname⟩ := h.name_word f hf
  have hkey : words (line f) = (f.1 ++ [0x3a]) :: words f.2 := by
    rw [line, words_word_append (by simp) ?_ ?_, words_cons_blank rfl]
    · intro b hb
      rcases List.mem_append.mp hb with hb | hb
      · exact (hname b hb).1
      · rw [List.mem_singleton.mp hb]
        rfl
    · intro b hb
      obtain rfl : 0x20 = b := by simpa using hb
      rfl
  have hvalue : (Slice.eatWord f.2).1 ≠ [] := by
    obtain ⟨a, t, ht⟩ := List.exists_cons_of_ne_nil (h.value_text f hf).1
    have ha := (h.value_trimmed f hf).1 a (by rw [ht]; rfl)
    simp [Slice.eatWord, ht, ha]
  rw [headerLine_eq_some_iff]
  refine ⟨_, _, _, by rw [hkey, words_eatWord hvalue], by simp, ?_⟩
  rw [List.dropLast_concat]

def block (h : Head) : Bytes := h.startLine ++ lineBlock (h.fields.map line)

/-- The fields that the codec gets to know. -/
def kvs (h : Head) : Headers := h.fields.map fun f => (f.1, (Slice.eatWord f.2).1)

theorem headerFields_block (h : Head) :
    headerFields (Slice.eatLine h.block).2.length (Slice.eatLine h.block).2 = some h.kvs := by
  rw [block, eatLine_lineBlock h.startLine_noEol, headerFields_lineBlock (fun l hl => (h.line_noEol l hl).2)
    (length_le_lineBlock _), kvs, List.forall₂_map_left_iff, List.forall₂_map_right_iff]
  exact List.forall₂_same.mpr fun f hf => h.headerLine_line hf

theorem lookup_kvs (h : Head) (name : Bytes) :
    h.kvs.lookup name = (h.fields.lookup name).map fun v => (Slice.eatWord v).1 := by
  unfold kvs
  induction h.fields with
  | nil => rfl
  | cons f fs ih =>
    rw [List.map_cons, List.lookup_cons, List.lookup_cons]
    split
    · rfl
    · exact ih

theorem isSome_lookup_of_mem {fs : List (Bytes × Bytes)} {name : Bytes} (h : name ∈ fs.map Prod.fst) :
    (fs.lookup name).isSome := by
  obtain ⟨f, hf, rfl⟩ := List.mem_map.mp h
  exact Headers.lookup_isSome_of_mem hf

theorem lookup_of_mem (h : Head) {f : Bytes × Bytes} (hf : f ∈ h.fields) :
    h.fields.lookup f.1 = some f.2 := by
  have hnodup := h.names_nodup
  obtain ⟨pre, post, hsplit⟩ := List.append_of_mem hf
  rw [hsplit] at hnodup ⊢
  rw [List.lookup_eq_some_iff]
  refine ⟨pre, post, rfl, fun g hg => ?_⟩
  rw [List.map_append, List.map_cons, List.nodup_middle, List.nodup_cons] at hnodup
  have hne : f.1 ≠ g.1 := fun he =>
    hnodup.1 (List.mem_append_left _ (by rw [he]; exact List.mem_map_of_mem hg))
  simpa using hne

end Head

namespace HttpCodec

theorem finish_req (w : ℕ) (c : HttpCodec) (d : Bytes) :
    (finish w c d).2.m_req.m_method = c.m_req.m_method ∧ (finish w c d).2.m_req.m_url = c.m_req.m_url ∧
      (finish w c d).2.m_req.m_version = c.m_req.m_version ∧
        (finish w c d).2.m_req.m_headers = c.m_req.m_headers := by
  rw [finish_eq]
  split_ifs <;> exact ⟨rfl, rfl, rfl, rfl⟩

end HttpCodec

namespace Head
open HttpCodec

theorem tryDecode_text (h : Head) (w : ℕ) : ∃ c : HttpCodec, c.m_req.m_method = h.method ∧
    c.m_req.m_url = h.url ∧ c.m_req.m_version = h.version ∧
      c.m_req.m_headers = Headers.insertAll [] h.kvs ∧ tryDecode w .new h.text = finish w c h.text := by
  have hi : getHeader h.text = some h.block.length := by
    rw [text_eq]
    exact getHeader_block h.startLine_noEol h.line_noEol []
  have htake : h.text.take h.block.length = h.block := by
    rw [text_eq]
    exact List.take_left' rfl
  have hpos : 0 < h.block.length := by
    have := List.length_pos_of_ne_nil h.method_word.1
    simp only [block, startLine, List.length_append]
    omega
  have hfirst : firstLine h.block = h.startLine := congrArg Prod.fst (eatLine_lineBlock h.startLine_noEol _)
  have hmethod : (Slice.eatWord (firstLine h.block)).1 = h.method := by
    rw [hfirst, ← head_words, words_startLine]
    rfl
  have hurl : (Slice.eatWord (Slice.eatWord (firstLine h.block)).2).1 = h.url := by
    rw [hfirst, ← head_words, ← tail_words, words_startLine]
    rfl
  have hversion : versionOf h.block = h.version := by
    rw [versionOf, hfirst, ← head_words, ← tail_words, ← tail_words, words_startLine]
    rfl
  -- The checks see the same start line and the same map as those of the serialised head.
  have hok := ok_of_parseStartLine h.accepted
  have hstart : StartLineOk ((new.scanned h.block.length).parsed h.block h.kvs) := by
    refine ⟨?_, ?_, ?_⟩
    · show versionOf h.block ∈ _
      rw [hversion]
      exact hok.version
    · show (Slice.eatWord (firstLine h.block)).1 ∈ _
      rw [hmethod]
      exact hok.method
    · show (Slice.eatWord (Slice.eatWord (firstLine h.block)).2).1.head? = _
      rw [hurl]
      exact hok.url
  have hisSome {name : Bytes} (hname : name ∈ h.fields.map Prod.fst) :
      ((Headers.insertAll [] h.kvs).lookup name).isSome := by
    have hnone : ([] : Headers).lookup name = none := rfl
    rw [Headers.lookup_insertAll, hnone, Option.none_or, lookup_kvs, Option.isSome_map]
    exact isSome_lookup_of_mem hname
  have hhead : HeaderOk ((new.scanned h.block.length).parsed h.block h.kvs) :=
    ⟨fun hpost => hisSome (h.post_length (hmethod.symm.trans hpost)), hisSome h.host⟩
  refine ⟨(new.scanned h.block.length).parsed h.block h.kvs, hmethod, hurl, hversion, rfl, ?_⟩
  rw [tryDecode_some hi hpos, htake, decodeHeader_some w _ _ (by rw [hversion]; exact h.version_word.1)
    h.headerFields_block, parseStartLine_of_ok hstart]
  simp only [parseHeader_of_ok hhead]

/-- The codec holds the head as it was. -/
structure Recovered (h : Head) (c : HttpCodec) : Prop where
  method : c.m_req.m_method = h.method
  url : c.m_req.m_url = h.url
  version : c.m_req.m_version = h.version
  headers : ∀ name, c.m_req.m_headers.lookup name = h.fields.lookup name

theorem eatWord_eq_self_iff {v : Bytes} : (Slice.eatWord v).1 = v ↔ ∀ b ∈ v, isspace b = false := by
  constructor
  · intro h b hb
    rw [← h] at hb
    simpa using List.mem_takeWhile_imp hb
  · intro h
    by_cases hv : v = []
    · rw [hv]
      rfl
    · have := eatWord_append (s := []) (t := []) (by simp) hv h (by simp)
      rw [List.nil_append, List.append_nil] at this
      rw [this]

/-- The head comes back just when no value has white space in it: of a value with several words only
the first is kept, and no answer tells it. -/
theorem recovered_iff (h : Head) (w : ℕ) : Recovered h (tryDecode w .new h.text).2 ↔
    ∀ f ∈ h.fields, ∀ b ∈ f.2, isspace b = false := by
  obtain ⟨c, hmethod, hurl, hversion, hheaders, hdecode⟩ := h.tryDecode_text w
  obtain ⟨hmethod', hurl', hversion', hheaders'⟩ := finish_req w c h.text
  have hlookup (name : Bytes) : (tryDecode w .new h.text).2.m_req.m_headers.lookup name =
      (h.fields.lookup name).map fun v => (Slice.eatWord v).1 := by
    have hnone : ([] : Headers).lookup name = none := rfl
    rw [hdecode, hheaders', hheaders, Headers.lookup_insertAll, hnone, Option.none_or, lookup_kvs]
  constructor
  · intro hrec f hf
    have hvalue := hrec.headers f.1
    rw [hlookup, h.lookup_of_mem hf] at hvalue
    exact eatWord_eq_self_iff.mp (Option.some.inj hvalue)
  · intro hword
    refine ⟨by rw [hdecode, hmethod', hmethod], by rw [hdecode, hurl', hurl],
      by rw [hdecode, hversion', hversion], fun name => ?_⟩
    rw [hlookup]
    cases hname : h.fields.lookup name with
    | none => rfl
    | some v =>
      obtain ⟨pre, post, hsplit, -⟩ := List.lookup_eq_some_iff.mp hname
      have hv : ∀ b ∈ v, isspace b = false := hword (name, v) (by simp [hsplit])
      rw [Option.map_some, eatWord_eq_self_iff.mpr hv]

def twoWords : Head where
  method := ascii "GET"
  url := ascii "/"
  version := ascii "HTTP/1.1"
  fields := [(ascii "Host", ascii "a b")]
  method_word := by decide +kernel
  url_word := by decide +kernel
  version_word := by decide +kernel
  accepted := by decide
  names_nodup := by decide
  name_word := by decide +kernel
  value_text := by decide +kernel
  value_trimmed := by decide +kernel
  host := by decide
  post_length := by decide

theorem not_recovered_twoWords : ¬ Recovered twoWords (tryDecode 64 .new twoWords.text).2 := fun h =>
  absurd (h.headers (ascii "Host")) (by decide +kernel)

end Head
end NetDemo.Http
