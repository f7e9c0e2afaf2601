import NetDemo.Http.Lines
import NetDemo.Http.Verdict

/-! The requests that `HttpCodec::tryDecode` accepts, told by the lines and words of the header
block. -/

namespace NetDemo.Http
open Foundation

/-! ### The header block as lines -/

/-- CR and LF stand in pairs only. -/
def pairedEol : Bytes → Bool
  | [] => true
  | [a] => !isEol a
  | a :: b :: t => if a = 0x0d ∧ b = 0x0a then pairedEol t else !isEol a && pairedEol (b :: t)

/-- The pieces between the pairs CR LF. -/
def crlfLines : Bytes → List Bytes
  | [] => [[]]
  | [a] => [[a]]
  | a :: b :: t =>
    if a = 0x0d ∧ b = 0x0a then [] :: crlfLines t else (crlfLines (b :: t)).modifyHead (a :: ·)

theorem crlfLines_ne_nil (l : Bytes) : crlfLines l ≠ [] := by
  fun_induction crlfLines l with
  | case1 | case2 | case3 => simp
  | case4 a b t h ih => simpa using ih

theorem block_of_pairedEol {l start : Bytes} {hs : List Bytes} (hp : pairedEol l)
    (hlines : crlfLines l = start :: hs) : l = start ++ lineBlock hs ∧
      ∀ line ∈ start :: hs, ∀ b ∈ line, isEol b = false := by
  fun_induction crlfLines l generalizing start hs with
  | case1 =>
    obtain ⟨rfl, rfl⟩ := List.cons.inj hlines
    exact ⟨rfl, by simp⟩
  | case2 a =>
    obtain ⟨rfl, rfl⟩ := List.cons.inj hlines
    have ha : isEol a = false := by simpa [pairedEol] using hp
    exact ⟨rfl, by simpa using ha⟩
  | case3 a b t h ih =>
    obtain ⟨rfl, rfl⟩ := List.cons.inj hlines
    obtain ⟨first, rest, hrest⟩ := List.exists_cons_of_ne_nil (crlfLines_ne_nil t)
    rw [pairedEol, if_pos h] at hp
    obtain ⟨ht, hnoEol⟩ := ih hp hrest
    rw [hrest]
    refine ⟨?_, by simpa using hnoEol⟩
    rw [h.1, h.2, lineBlock_cons, List.append_assoc, ← ht]
    rfl
  | case4 a b t h ih =>
    obtain ⟨first, rest, hrest⟩ := List.exists_cons_of_ne_nil (crlfLines_ne_nil (b :: t))
    rw [hrest, List.modifyHead_cons] at hlines
    obtain ⟨rfl, rfl⟩ := List.cons.inj hlines
    -- `a` is the first byte of the line that the rest begins with.
    rw [pairedEol, if_neg h, Bool.and_eq_true] at hp
    obtain ⟨ht, hnoEol⟩ := ih hp.2 hrest
    refine ⟨by rw [List.cons_append, ← ht], ?_⟩
    have ha : isEol a = false := by simpa using hp.1
    intro line hline c hc
    rcases List.mem_cons.mp hline with rfl | hline
    · rcases List.mem_cons.mp hc with rfl | hc
      · exact ha
      · exact hnoEol first List.mem_cons_self c hc
    · exact hnoEol line (List.mem_cons_of_mem _ hline) c hc

theorem getHeader_eq_some_iff {d : Bytes} {i : ℕ} :
    getHeader d = some i ↔ crlfcrlf <+: d.drop i ∧ ∀ j < i, ¬ crlfcrlf <+: d.drop j := by
  induction d generalizing i with
  | nil => simp [getHeader]
  | cons a t ih =>
    rw [getHeader_cons]
    split_ifs with hp
    · cases i with
      | zero => simpa using hp
      | succ i =>
        exact ⟨fun hno => absurd hno (by simp), fun h => absurd hp (h.2 0 (Nat.succ_pos i))⟩
    · cases i with
      | zero => simpa using hp
      | succ i =>
        simp only [Option.map_eq_some_iff, Nat.add_right_cancel_iff, exists_eq_right, ih,
          List.drop_succ_cons]
        refine and_congr_right fun _ => ⟨fun h j hj => ?_, fun h j hj => h (j + 1) (by omega)⟩
        cases j with
        | zero => exact hp
        | succ j => exact h j (by omega)

/-! ### What is accepted -/

def IsGetLine : List Bytes → Prop
  | method :: url :: version :: _ =>
    method = ascii "GET" ∧ url.head? = some 0x2f ∧ version ∈ [ascii "HTTP/1.0", ascii "HTTP/1.1"]
  | _ => False

def IsFieldLine : List Bytes → Prop
  | key :: _ :: _ => key.getLast? = some 0x3a
  | _ => False

/-- The second word of the first line that begins with the name and a colon. -/
def fieldValue (hs : List Bytes) (name : Bytes) : Option Bytes :=
  (hs.find? fun l => (words l).head? = some (name ++ [0x3a])).bind fun l => (words l)[1]?

def announcedLength (hs : List Bytes) : ℤ := ((fieldValue hs (ascii "content-length")).map atoi).getD 0

/-- A request of `size` bytes, with a header block of `i` bytes, that is accepted. -/
structure Acceptable (start : Bytes) (hs : List Bytes) (i size : ℕ) : Prop where
  start : IsGetLine (words start)
  fields : ∀ l ∈ hs, IsFieldLine (words l)
  host : ∃ l ∈ hs, (words l).head? = some (ascii "Host:")
  body : i + 4 + announcedLength hs ≤ size

theorem isGetLine_iff {l : Bytes} : IsGetLine (words l) ↔ (Slice.eatWord l).1 = ascii "GET" ∧
    (Slice.eatWord (Slice.eatWord l).2).1.head? = some 0x2f ∧
      (Slice.eatWord (Slice.eatWord (Slice.eatWord l).2).2).1 ∈ [ascii "HTTP/1.0", ascii "HTTP/1.1"] := by
  simp only [← head_words, ← tail_words]
  match words l with
  | [] | [_] | [_, _] => simp [IsGetLine, ascii]
  | method :: url :: version :: rest => rfl

theorem isFieldLine_iff {l : Bytes} : IsFieldLine (words l) ↔ ∃ kv, headerLine l = some kv := by
  simp only [headerLine_eq_some_iff]
  match words l with
  | [] | [_] => simp [IsFieldLine]
  | key :: value :: rest => simp [IsFieldLine]

theorem eq_dropLast_iff {key name : Bytes} (h : key.getLast? = some 0x3a) :
    name = key.dropLast ↔ key = name ++ [0x3a] := by
  have hkey := List.dropLast_append_getLast? 0x3a h
  constructor
  · rintro rfl
    exact hkey.symm
  · rintro rfl
    rw [List.dropLast_concat]

theorem lookup_eq_fieldValue {hs : List Bytes} {kvs : Headers}
    (h : List.Forall₂ (fun l kv => headerLine l = some kv) hs kvs) (name : Bytes) :
    kvs.lookup name = fieldValue hs name := by
  induction h with
  | nil => rfl
  | @cons l kv hs kvs hkv _ ih =>
    obtain ⟨key, value, rest, hwords, hcolon, rfl⟩ := headerLine_eq_some_iff.mp hkv
    rw [List.lookup_cons, fieldValue, List.find?_cons, hwords]
    by_cases hname : name = key.dropLast
    · obtain rfl := (eq_dropLast_iff hcolon).mp hname
      simp [hwords]
    · have hkey : key ≠ name ++ [0x3a] := fun he => hname ((eq_dropLast_iff hcolon).mpr he)
      have hne : (name == key.dropLast) = false := by simpa using hname
      simp only [hne, ih, fieldValue, List.head?_cons, Option.some.injEq, hkey, decide_false]

theorem host_iff {hs : List Bytes} (h : ∀ l ∈ hs, IsFieldLine (words l)) :
    (fieldValue hs (ascii "Host")).isSome ↔ ∃ l ∈ hs, (words l).head? = some (ascii "Host:") := by
  have hname : ascii "Host" ++ [0x3a] = ascii "Host:" := rfl
  simp only [fieldValue, hname, Option.isSome_iff_exists, Option.bind_eq_some_iff]
  constructor
  · rintro ⟨value, l, hfind, -⟩
    exact ⟨l, List.mem_of_find?_eq_some hfind, by simpa using List.find?_some hfind⟩
  · rintro ⟨l, hl, hhost⟩
    have hsome : (hs.find? fun l => (words l).head? = some (ascii "Host:")).isSome :=
      List.find?_isSome.mpr ⟨l, hl, by simpa using hhost⟩
    obtain ⟨first, hfirst⟩ := Option.isSome_iff_exists.mp hsome
    have hfield := h first (List.mem_of_find?_eq_some hfirst)
    match hwords : words first, hfield with
    | _ :: value :: _, _ => exact ⟨value, first, hfirst, by rw [hwords]; rfl⟩

theorem atoi_getD (o : Option Bytes) : atoi (o.getD []) = (o.map atoi).getD 0 := by
  cases o <;> rfl

namespace HttpCodec

theorem accepts_iff_acceptable {w : ℕ} (hw : 32 ≤ w) {d : Bytes} {i : ℕ} (hi : i + 4 < 2 ^ 31)
    {start : Bytes} {hs : List Bytes} (hlen : (start ++ lineBlock hs).length = i)
    (hnoEol : ∀ line ∈ start :: hs, ∀ b ∈ line, isEol b = false) (hn : 0 ≤ announcedLength hs) :
    (∃ kvs, Accepts w [] d (start ++ lineBlock hs) kvs) ↔ Acceptable start hs i d.length := by
  have hline : Slice.eatLine (start ++ lineBlock hs) = (start, lineBlock hs) :=
    eatLine_lineBlock (hnoEol start List.mem_cons_self) hs
  have hfirst : firstLine (start ++ lineBlock hs) = start := congrArg Prod.fst hline
  have hrest : (Slice.eatLine (start ++ lineBlock hs)).2 = lineBlock hs := congrArg Prod.snd hline
  have hfields := headerFields_lineBlock (fun l hl => hnoEol l (List.mem_cons_of_mem _ hl))
    (length_le_lineBlock hs)
  have hlookup {kvs : Headers} (h : headerFields (lineBlock hs).length (lineBlock hs) = some kvs)
      (name : Bytes) : (Headers.insertAll [] kvs).lookup name = fieldValue hs name := by
    rw [Headers.lookup_insertAll]
    exact lookup_eq_fieldValue ((hfields kvs).mp h) name
  have hawait {kvs : Headers} (h : headerFields (lineBlock hs).length (lineBlock hs) = some kvs) :
      (((start ++ lineBlock hs).length + 4 : ℕ) +
        atoi (getHeaderField (Headers.insertAll [] kvs) (ascii "content-length"))) % 2 ^ w =
          i + 4 + announcedLength hs := by
    -- The sum is less than 2^32, so a `size_t` holds it.
    have hbound : announcedLength hs < 2 ^ 31 := by
      rw [announcedLength, ← atoi_getD]
      exact atoi_lt _
    have hpow : (2 : ℤ) ^ 32 ≤ 2 ^ w := pow_le_pow_right₀ (by decide) hw
    rw [getHeaderField, hlookup h, atoi_getD, hlen, Nat.cast_add]
    exact Int.emod_eq_of_lt (by unfold announcedLength at hn; omega)
      (by unfold announcedLength at hbound; omega)
  constructor
  · rintro ⟨kvs, ha⟩
    have hkvs := ha.fields
    rw [hrest] at hkvs
    have hmethod := ha.method
    have hurl := ha.url
    have hversion := ha.version
    rw [versionOf] at hversion
    rw [hfirst] at hmethod hurl hversion
    have hall : ∀ l ∈ hs, IsFieldLine (words l) := fun l hl => by
      obtain ⟨kv, -, hkv⟩ := exists_of_forall₂ ((hfields kvs).mp hkvs) hl
      exact isFieldLine_iff.mpr ⟨kv, hkv⟩
    refine ⟨isGetLine_iff.mpr ⟨hmethod, hurl, hversion⟩, hall, ?_, ?_⟩
    · rw [← host_iff hall, ← hlookup hkvs]
      exact ha.host
    · have hfull := ha.complete
      rw [hawait hkvs] at hfull
      exact not_lt.mp hfull
  · rintro ⟨hstart, hall, hhost, hbody⟩
    obtain ⟨hmethod, hurl, hversion⟩ := isGetLine_iff.mp hstart
    have hkvs : List.Forall₂ (fun l kv => headerLine l = some kv) hs
        (hs.map fun l => (headerLine l).getD ([], [])) := by
      rw [List.forall₂_map_right_iff, List.forall₂_same]
      intro l hl
      obtain ⟨kv, hkv⟩ := isFieldLine_iff.mp (hall l hl)
      rw [hkv, Option.getD_some]
    -- All lines are fields, so the loop takes every one of them.
    rw [← hfields] at hkvs
    refine ⟨_, by rw [hfirst]; exact hmethod, by rw [hfirst]; exact hurl,
      by rw [versionOf, hfirst]; exact hversion, by rw [hrest]; exact hkvs, ?_, ?_⟩
    · rw [hlookup hkvs, host_iff hall]
      exact hhost
    · rw [hawait hkvs]
      exact not_lt.mpr hbody

/-- Where the lines of the header block end with CR LF, their words tell whether the request is
accepted, and what the header map holds then. -/
theorem tryDecode_pos_iff_acceptable {w : ℕ} (hw : 32 ≤ w) {d : Bytes} (hd : d.length < 2 ^ 31) {i : ℕ}
    (h0 : 0 < i) (hi : crlfcrlf <+: d.drop i) (hfirst : ∀ j < i, ¬ crlfcrlf <+: d.drop j)
    (hp : pairedEol (d.take i)) {start : Bytes} {hs : List Bytes}
    (hlines : crlfLines (d.take i) = start :: hs) (hn : 0 ≤ announcedLength hs) :
    (0 < (tryDecode w .new d).1 ↔ Acceptable start hs i d.length) ∧
      (0 < (tryDecode w .new d).1 →
        ∀ name, (tryDecode w .new d).2.m_req.m_headers.lookup name = fieldValue hs name) := by
  have hgot : getHeader d = some i := getHeader_eq_some_iff.mpr ⟨hi, hfirst⟩
  have hle := getHeader_le hgot
  obtain ⟨hblock, hnoEol⟩ := block_of_pairedEol hp hlines
  have hlen : (start ++ lineBlock hs).length = i := by rw [← hblock, length_take_header hgot]
  have hnew : new.m_req.m_headers = [] := rfl
  constructor
  · rw [tryDecode_pos_iff (by omega), hnew, Answers, ← accepts_iff_acceptable hw (by omega) hlen hnoEol hn]
    constructor
    · rintro ⟨-, j, kvs, hj, -, ha⟩
      obtain rfl := Option.some.inj (hgot.symm.trans hj)
      exact ⟨kvs, hblock ▸ ha⟩
    · rintro ⟨kvs, ha⟩
      exact ⟨hd, i, kvs, hgot, h0, by rw [hblock]; exact ha⟩
  · intro hpos name
    obtain ⟨j, kvs, hj, h0j, ha⟩ := accepts_of_pos hpos
    obtain rfl := Option.some.inj (hgot.symm.trans hj)
    rw [tryDecode_of_accepts hj h0j ha]
    have hkvs := ha.fields
    have hrest : (Slice.eatLine (start ++ lineBlock hs)).2 = lineBlock hs :=
      congrArg Prod.snd (eatLine_lineBlock (hnoEol start List.mem_cons_self) hs)
    rw [hblock, hrest, headerFields_lineBlock (fun l hl => hnoEol l (List.mem_cons_of_mem _ hl))
      (length_le_lineBlock hs)] at hkvs
    show (Headers.insertAll [] kvs).lookup name = _
    rw [Headers.lookup_insertAll]
    exact lookup_eq_fieldValue hkvs name

def shortRequest : Bytes :=
  ascii "GET / HTTP/1.1" ++ crlf ++ ascii "Host: a" ++ crlf ++ ascii "content-length: 1" ++ crlfcrlf ++ [0x78]

theorem tryDecode_pos_iff_acceptable_shortRequest :
    (0 < (tryDecode 64 .new shortRequest).1 ↔ Acceptable (ascii "GET / HTTP/1.1")
        [ascii "Host: a", ascii "content-length: 1"] 42 shortRequest.length) ∧
      (0 < (tryDecode 64 .new shortRequest).1 →
        ∀ name, (tryDecode 64 .new shortRequest).2.m_req.m_headers.lookup name =
          fieldValue [ascii "Host: a", ascii "content-length: 1"] name) :=
  tryDecode_pos_iff_acceptable (by decide) (by decide) (by decide) (by decide +kernel)
    (by decide +kernel) (by decide +kernel) (by decide +kernel) (by decide +kernel)

end HttpCodec
end NetDemo.Http
