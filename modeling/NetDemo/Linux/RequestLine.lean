import NetDemo.Linux.Parse

/-! The request line as a text: what `parse_requestline` makes of the bytes up to the first NUL. -/

namespace NetDemo.Linux
open Foundation Http

def urlOk (url : Bytes) : Bool :=
  if strncasecmp url (ascii "http://") 7 then (url.drop 7).contains 0x2f else url.head? = some 0x2f

/-- Whether the line is accepted, and where NULs are written to it. -/
def requestLine (line : Bytes) : Bool × List ℕ :=
  let m := strcspn line blanks
  if m < line.length then
    if strcasecmp (line.take m) (ascii "GET") then
      let u := m + 1 + strspn (line.drop (m + 1)) blanks
      let n := strcspn (line.drop u) blanks
      if n < (line.drop u).length then
        let v := u + n + 1 + strspn (line.drop (u + n + 1)) blanks
        (strcasecmp (line.drop v) (ascii "HTTP/1.1") && urlOk ((line.drop u).take n), [m, u + n])
      else (false, [m])
    else (false, [m])
  else (false, [])

def putNuls (buffer : Bytes) (temp : ℕ) (at' : List ℕ) : Bytes :=
  at'.foldl (fun m k => m.set (temp + k) 0) buffer

theorem urlOk_buffer {buffer : Bytes} {url : ℕ} :
    ((if strncasecmp (cstr buffer url) (ascii "http://") 7 then strchr buffer (url + 7) 0x2f else some url).all
      fun p => buffer[p]? ≠ some 0x2f) = !urlOk (cstr buffer url) := by
  unfold urlOk
  split_ifs with hscheme
  · have hlen : 7 ≤ (cstr buffer url).length := by
      have heq := congrArg List.length (of_decide_eq_true hscheme)
      rw [List.length_map, List.length_map, List.length_take] at heq
      have hseven : ((ascii "http://").take 7).length = 7 := by decide
      omega
    rw [strchr_all (by decide), cstr_add hlen]
  · simp [getElem?_eq_some_iff_cstr]

theorem parseRequestline_eq (buffer : Bytes) (temp : ℕ) (checkstate : CheckState) :
    parseRequestline buffer temp checkstate =
      (if (requestLine (cstr buffer temp)).1 then .noRequest else .badRequest,
        putNuls buffer temp (requestLine (cstr buffer temp)).2,
        if (requestLine (cstr buffer temp)).1 then .header else checkstate) := by
  generalize hline : cstr buffer temp = line
  generalize hm : strcspn line blanks = m
  by_cases hlt : m < line.length
  swap
  · simp [parseRequestline, requestLine, strpbrk, hline, hm, hlt, putNuls]
  -- the method is cut off, what follows is as before
  have hmethod : cstr (buffer.set (temp + m) 0) temp = line.take m := by
    rw [cstr_set (by rw [hline]; exact hlt), hline]
  have hafter {k : ℕ} (hk : k ≤ line.length) (hmk : m < k) :
      cstr (buffer.set (temp + m) 0) (temp + k) = line.drop k := by
    rw [cstr_set_lt (by omega), cstr_add (by rw [hline]; exact hk), hline]
  by_cases hget : strcasecmp (line.take m) (ascii "GET") = true
  swap
  · simp [parseRequestline, requestLine, strpbrk, hline, hm, hlt, hmethod, hget, putNuls]
  have hfirst : cstr (buffer.set (temp + m) 0) (temp + m + 1) = line.drop (m + 1) := by
    rw [Nat.add_assoc]
    exact hafter hlt (by omega)
  have hspn := strspn_le (line.drop (m + 1)) blanks
  generalize hu : strspn (line.drop (m + 1)) blanks = u at hspn
  rw [List.length_drop] at hspn
  have hurl : cstr (buffer.set (temp + m) 0) (temp + m + 1 + u) = line.drop (m + 1 + u) := by
    rw [Nat.add_assoc temp, Nat.add_assoc temp]
    exact hafter (by omega) (by omega)
  generalize hn : strcspn (line.drop (m + 1 + u)) blanks = n
  by_cases hlt' : n < (line.drop (m + 1 + u)).length
  swap
  · simp only [parseRequestline, requestLine, strpbrk, putNuls, hline, hm, hlt, hmethod, hget, hfirst, hu, hurl,
      hn, hlt', if_true, if_false, List.foldl_cons, List.foldl_nil, Bool.false_eq_true]
  -- the URL is cut off, too
  have hle : n ≤ (line.drop (m + 1 + u)).length := hlt'.le
  have htarget : cstr ((buffer.set (temp + m) 0).set (temp + m + 1 + u + n) 0) (temp + m + 1 + u) =
      (line.drop (m + 1 + u)).take n := by
    rw [cstr_set (by rw [hurl]; exact hlt'), hurl]
  have hrest {k : ℕ} (hk : k ≤ line.length) (hnk : m + 1 + u + n < k) :
      cstr ((buffer.set (temp + m) 0).set (temp + m + 1 + u + n) 0) (temp + k) = line.drop k := by
    rw [cstr_set_lt (by omega), hafter hk (by omega)]
  have hroom : n < line.length - (m + 1 + u) := by rwa [List.length_drop] at hlt'
  have hsecond : cstr ((buffer.set (temp + m) 0).set (temp + m + 1 + u + n) 0) (temp + m + 1 + u + n + 1) =
      line.drop (m + 1 + u + n + 1) := by
    rw [show temp + m + 1 + u + n + 1 = temp + (m + 1 + u + n + 1) by omega]
    exact hrest (by omega) (by omega)
  have hspn' := strspn_le (line.drop (m + 1 + u + n + 1)) blanks
  generalize hv : strspn (line.drop (m + 1 + u + n + 1)) blanks = v at hspn'
  rw [List.length_drop] at hspn'
  have hversion : cstr ((buffer.set (temp + m) 0).set (temp + m + 1 + u + n) 0)
      (temp + m + 1 + u + n + 1 + v) = line.drop (m + 1 + u + n + 1 + v) := by
    rw [show temp + m + 1 + u + n + 1 + v = temp + (m + 1 + u + n + 1 + v) by omega]
    exact hrest (by omega) (by omega)
  simp only [parseRequestline, requestLine, strpbrk, putNuls, hline, hm, hlt, hmethod, hget, hfirst, hu, hurl,
    hn, hlt', if_true, List.foldl_cons, List.foldl_nil, hsecond, hv, hversion]
  rw [urlOk_buffer, htarget, show temp + (m + 1 + u + n) = temp + m + 1 + u + n by omega]
  cases strcasecmp (line.drop (m + 1 + u + n + 1 + v)) (ascii "HTTP/1.1") <;>
    cases urlOk ((line.drop (m + 1 + u)).take n) <;> rfl

theorem requestLine_nuls {line : Bytes} : ∀ k ∈ (requestLine line).2, k < line.length := by
  intro k hk
  have hspn := strspn_le (line.drop (strcspn line blanks + 1)) blanks
  unfold requestLine at hk
  simp only [List.length_drop] at hk hspn
  split_ifs at hk <;> simp only [List.mem_cons, List.not_mem_nil, or_false] at hk <;> omega

/-! ### Its grammar -/

/-- The URL of a request line: a path, or a host with a path behind `http://`. -/
def Target (url : Bytes) : Prop :=
  url.head? = some 0x2f ∨
    ∃ scheme rest, url = scheme ++ rest ∧ scheme.map tolower = ascii "http://" ∧ 0x2f ∈ rest

structure RequestLine where
  method : Bytes
  gap : Bytes
  url : Bytes
  gap' : Bytes
  version : Bytes
  method_eq : method.map tolower = ascii "get"
  gap_ne : gap ≠ []
  gap_blank : ∀ b ∈ gap, b ∈ blanks
  url_ne : url ≠ []
  url_noBlank : ∀ b ∈ url, b ∉ blanks
  gap'_ne : gap' ≠ []
  gap'_blank : ∀ b ∈ gap', b ∈ blanks
  version_eq : version.map tolower = ascii "http/1.1"
  target : Target url

def RequestLine.text (r : RequestLine) : Bytes := r.method ++ (r.gap ++ (r.url ++ (r.gap' ++ r.version)))

def isBlank (b : UInt8) : Bool := blanks.contains b

theorem urlOk_iff {url : Bytes} : urlOk url = true ↔ Target url := by
  unfold urlOk strncasecmp strcasecmp
  have hscheme : ((ascii "http://").take 7).map tolower = ascii "http://" := by decide
  rw [hscheme]
  split_ifs with h
  · rw [decide_eq_true_eq] at h
    rw [List.contains_iff_mem]
    constructor
    · exact fun hmem => .inr ⟨url.take 7, url.drop 7, (List.take_append_drop 7 url).symm, h, hmem⟩
    · rintro (hhead | ⟨scheme, rest, rfl, hs, hmem⟩)
      · cases url with
        | nil => simp at hhead
        | cons b t =>
          obtain rfl : b = 0x2f := by simpa using hhead
          exact absurd (List.cons.inj h).1 (by decide)
      · have hlen : scheme.length = 7 := by
          have := congrArg List.length hs
          rwa [List.length_map] at this
        rwa [List.drop_left' hlen]
  · rw [decide_eq_true_eq]
    refine ⟨.inl, fun htarget => htarget.resolve_right ?_⟩
    rintro ⟨scheme, rest, rfl, hs, -⟩
    have hlen : scheme.length = 7 := by
      have := congrArg List.length hs
      rwa [List.length_map] at this
    rw [List.take_left' hlen] at h
    simp [hs] at h

theorem requestLine_words (line : Bytes) : (requestLine line).1 = true ↔
    line.dropWhile (fun b => !isBlank b) ≠ [] ∧
    (line.takeWhile fun b => !isBlank b).map tolower = ascii "get" ∧
    (((line.dropWhile fun b => !isBlank b).dropWhile isBlank).dropWhile fun b => !isBlank b) ≠ [] ∧
    ((((line.dropWhile fun b => !isBlank b).dropWhile isBlank).dropWhile fun b => !isBlank b).dropWhile
      isBlank).map tolower = ascii "http/1.1" ∧
    Target (((line.dropWhile fun b => !isBlank b).dropWhile isBlank).takeWhile fun b => !isBlank b) := by
  have hword (s : Bytes) : s.take (strcspn s blanks) = s.takeWhile (fun b => !isBlank b) ∧
      s.drop (strcspn s blanks) = s.dropWhile fun b => !isBlank b :=
    ⟨take_length_takeWhile .., drop_length_takeWhile ..⟩
  -- the first blank is skipped before the others
  have hgap (s : Bytes) : s.drop (strcspn s blanks + 1 + strspn (s.drop (strcspn s blanks + 1)) blanks) =
      (s.dropWhile fun b => !isBlank b).dropWhile isBlank := by
    have hskip : (s.drop (strcspn s blanks + 1)).dropWhile isBlank =
        (s.dropWhile fun b => !isBlank b).dropWhile isBlank := by
      rw [← List.drop_drop, (hword s).2]
      cases hd : s.dropWhile fun b => !isBlank b with
      | nil => rfl
      | cons a t =>
        have ha : isBlank a := by simpa using head?_dropWhile (congrArg List.head? hd)
        rw [List.dropWhile_cons_of_pos ha]
        rfl
    rw [← hskip, ← List.drop_drop]
    exact drop_length_takeWhile ..
  have hget : (ascii "GET").map tolower = ascii "get" := by decide
  have hversion : (ascii "HTTP/1.1").map tolower = ascii "http/1.1" := by decide
  have hlt (s : Bytes) : strcspn s blanks < s.length ↔ (s.dropWhile fun b => !isBlank b) ≠ [] :=
    length_takeWhile_lt_iff
  generalize hu : strcspn line blanks + 1 + strspn (line.drop (strcspn line blanks + 1)) blanks = u
  have hurl := hgap line
  have hrest := hgap (line.drop u)
  rw [hu] at hurl
  rw [List.drop_drop, List.drop_drop, ← Nat.add_assoc, ← Nat.add_assoc, hurl] at hrest
  simp only [requestLine, hu, hlt, hurl, (hword _).1]
  by_cases hm : (line.dropWhile fun b => !isBlank b) = []
  · simp [hm]
  by_cases hmethod : (line.takeWhile fun b => !isBlank b).map tolower = ascii "get"
  swap
  · simp [strcasecmp, hget, hmethod, hm]
  by_cases hn : (((line.dropWhile fun b => !isBlank b).dropWhile isBlank).dropWhile fun b => !isBlank b) = []
  · simp [strcasecmp, hget, hmethod, hm, hn]
  · simp only [strcasecmp, hget, hmethod, hm, hn, hrest, hversion, ne_eq, not_false_eq_true, if_true, decide_true,
      Bool.and_eq_true, decide_eq_true_eq, urlOk_iff, true_and]

theorem isBlank_of_tolower {word : Bytes} (hword : word.all fun b => !isBlank b) {s : Bytes}
    (hs : s.map tolower = word) : ∀ b ∈ s, isBlank b = false := by
  intro b hb
  have hlower : isBlank (tolower b) = false := by
    simpa using List.all_eq_true.mp hword _ (hs ▸ List.mem_map_of_mem hb)
  by_contra hblank
  have hcases : b = 0x20 ∨ b = 0x09 := or_iff_not_imp_left.mpr (by simpa [isBlank, blanks, ascii] using hblank)
  rcases hcases with rfl | rfl <;> exact absurd hlower (by decide)

theorem requestLine_iff {line : Bytes} : (requestLine line).1 = true ↔ ∃ r : RequestLine, r.text = line := by
  rw [requestLine_words]
  constructor
  · rintro ⟨hm, hget, hn, hversion, htarget⟩
    -- `t₁`, `t₂` and `t₃` are what is left behind the method, the first gap and the URL.
    generalize h₁ : (line.dropWhile fun b => !isBlank b) = t₁ at *
    generalize h₂ : t₁.dropWhile isBlank = t₂ at *
    generalize h₃ : (t₂.dropWhile fun b => !isBlank b) = t₃ at *
    have hne {t t' : Bytes} (p : UInt8 → Bool) (ht : t.dropWhile p = t') (ht' : t'.takeWhile (fun b => !p b) = []) :
        t' = [] := by
      cases t' with
      | nil => rfl
      | cons a t' =>
        have ha := head?_dropWhile (congrArg List.head? ht)
        simp [ha] at ht'
    have hblank {s : Bytes} : ∀ b ∈ s.takeWhile isBlank, b ∈ blanks := fun b hb => by
      simpa [isBlank] using List.mem_takeWhile_imp hb
    refine ⟨⟨line.takeWhile fun b => !isBlank b, t₁.takeWhile isBlank, t₂.takeWhile fun b => !isBlank b,
      t₃.takeWhile isBlank, t₃.dropWhile isBlank, hget, fun h => hm (hne _ h₁ (by simpa using h)), hblank,
      fun h => hn ?_, fun b hb => by simpa [isBlank] using List.mem_takeWhile_imp hb,
      fun h => hn (hne _ h₃ (by simpa using h)), hblank, hversion, htarget⟩, ?_⟩
    · rw [← h₃, hne _ h₂ h]
      rfl
    · simp only [RequestLine.text, List.takeWhile_append_dropWhile, ← h₁, ← h₂, ← h₃]
  · rintro ⟨r, rfl⟩
    have hblank {s : Bytes} (hs : ∀ b ∈ s, b ∈ blanks) : ∀ b ∈ s, isBlank b := fun b hb => by
      simpa [isBlank] using hs b hb
    have hhead {s t : Bytes} {v : Bool} (hne : s ≠ []) (hs : ∀ b ∈ s, isBlank b = v) :
        ∀ b ∈ (s ++ t).head?, isBlank b = v := fun b hb => by
      cases s with
      | nil => exact absurd rfl hne
      | cons a s =>
        obtain rfl : a = b := Option.some.inj hb
        exact hs a List.mem_cons_self
    have hmethod := isBlank_of_tolower (by decide) r.method_eq
    have hversion := isBlank_of_tolower (by decide) r.version_eq
    have hurl : ∀ b ∈ r.url, isBlank b = false := fun b hb => by simpa [isBlank] using r.url_noBlank b hb
    have hversion_ne : r.version ≠ [] := fun h => by
      have := r.version_eq
      rw [h] at this
      exact absurd this (by decide)
    -- Every piece ends where the next one begins, as blanks and other bytes take turns.
    obtain ⟨hm, hm'⟩ := @span_append _ (fun b => !isBlank b) r.method (r.gap ++ (r.url ++ (r.gap' ++ r.version)))
      (by simpa using hmethod) (fun b hb => by rw [hhead r.gap_ne (hblank r.gap_blank) b hb]; rfl)
    obtain ⟨-, hg⟩ := @span_append _ isBlank r.gap (r.url ++ (r.gap' ++ r.version)) (hblank r.gap_blank)
      (hhead r.url_ne hurl)
    obtain ⟨hu, hu'⟩ := @span_append _ (fun b => !isBlank b) r.url (r.gap' ++ r.version)
      (by simpa using hurl) (fun b hb => by rw [hhead r.gap'_ne (hblank r.gap'_blank) b hb]; rfl)
    obtain ⟨-, hg'⟩ := @span_append _ isBlank r.gap' r.version (hblank r.gap'_blank) (fun b hb =>
      hversion b (List.mem_of_mem_head? hb))
    rw [RequestLine.text, hm', hm, hg, hu', hu, hg']
    refine ⟨?_, r.method_eq, ?_, r.version_eq, r.target⟩
    · exact List.append_ne_nil_of_left_ne_nil r.gap_ne _
    · exact List.append_ne_nil_of_left_ne_nil r.gap'_ne _

end NetDemo.Linux
