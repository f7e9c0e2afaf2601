import NetDemo.Foundation.Search
import NetDemo.Foundation.Strtok
import NetDemo.Http.Slice

/-! How `request_handler` of `http_server.c` takes the first line of a request apart, in arrays of its own. -/

namespace NetDemo.Linux.HttpServer
open Foundation Http

def SMALL_BUF : ℕ := 100

/-- The arrays of `request_handler` and of `content_type`, with whatever they hold at first. -/
structure Arrays where
  req_line : Block SMALL_BUF
  method : Block 10
  ct : Block 15
  file_name : Block 30
  extension : Block SMALL_BUF
  content_file_name : Block SMALL_BUF
  deriving Inhabited

inductive Reply
  | sendError
  | sendData (ct file_name : Bytes)
  deriving DecidableEq

def contentType (arrays : Arrays) (file : Bytes) : Except Fault Bytes := do
  let file_name ← strcpy arrays.content_file_name file (some 0)
  let first ← strtok file_name.mem 0 (ascii ".")
  let second ← strtok first.mem first.save_ptr (ascii ".")
  let extension ← strcpy arrays.extension second.mem second.token
  if cstr extension.mem 0 = ascii "html" ∨ cstr extension.mem 0 = ascii "htm" then pure (ascii "text/html")
  else pure (ascii "text/plain")

/-- The answer of `fgets` is not looked at. -/
def requestHandler (arrays : Arrays) (clnt_read : Bytes) : Except Fault Reply := do
  let req_line := (fgets arrays.req_line clnt_read).getD arrays.req_line
  match strstr (ascii "HTTP/") req_line.mem with
  | none => throw .beyond
  | some none => pure .sendError
  | some (some _) =>
    let first ← strtok req_line.mem 0 (ascii " /")
    let method ← strcpy arrays.method first.mem first.token
    -- Neither the tokens nor their lengths are looked at.
    let second ← strtok first.mem first.save_ptr (ascii " /")
    let file_name ← strcpy arrays.file_name second.mem second.token
    let content_type ← contentType arrays file_name.mem
    let ct ← strcpy arrays.ct (content_type ++ [0]) (some 0)
    if cstr method.mem 0 ≠ ascii "GET" then pure .sendError
    else pure (.sendData (cstr ct.mem 0) (cstr file_name.mem 0))

/-- A line with a method and a file name that fit their arrays, and an extension behind a dot of the
name. -/
structure Shape (line method file_name : Bytes) : Prop where
  parts : ∃ lead gap rest, line = lead ++ (method ++ (gap ++ (file_name ++ rest))) ∧
    (∀ b ∈ lead, b ∈ ascii " /") ∧ (∀ b ∈ gap, b ∈ ascii " /") ∧ gap ≠ [] ∧ ∀ b ∈ rest.head?, b ∈ ascii " /"
  method_token : (∀ b ∈ method, b ∉ ascii " /") ∧ method ≠ [] ∧ method.length < 10
  file_name_token : (∀ b ∈ file_name, b ∉ ascii " /") ∧ file_name ≠ [] ∧ file_name.length < 30
  extension : ∃ name extension, file_name = name ++ ascii "." ++ extension ∧
    (∃ b ∈ name, b ∉ ascii ".") ∧ ∃ b ∈ extension, b ∉ ascii "."

section
variable {arrays : Arrays}

def typeOf (extension : Bytes) : Bytes :=
  if extension = ascii "html" ∨ extension = ascii "htm" then ascii "text/html" else ascii "text/plain"

/-- The part of a file name that is taken for its extension. -/
def extensionOf (file_name : Bytes) : Bytes :=
  firstToken (ascii ".").contains (behindToken (ascii ".").contains file_name)

theorem yields_contentType {file : Bytes} (h0 : 0 ∈ file) {P : Bytes → Prop} :
    Yields (contentType arrays file) P ↔ (cstr file 0).length < SMALL_BUF ∧
      extensionOf (cstr file 0) ≠ [] ∧ (extensionOf (cstr file 0)).length < SMALL_BUF ∧
      P (typeOf (extensionOf (cstr file 0))) := by
  rw [contentType, yields_bind, yields_strcpy (Q := fun name => extensionOf name ≠ [] ∧
    (extensionOf name).length < SMALL_BUF ∧ P (typeOf (extensionOf name)))]
  · simp only [Option.mem_some_iff, exists_eq_left', List.drop_zero, h0, true_and]
  · intro b hb
    have hfirst := cuts_cut (s := 0) hb (ascii ".")
    have hsecond := cuts_cut hfirst.kept.1 (ascii ".")
    rw [hfirst.kept.2] at hsecond
    rw [yields_bind, yields_strtok (s := 0) hb, yields_bind, yields_strtok hfirst.kept.1, yields_bind]
    refine hsecond.yields_strcpy (Q := fun extension => P (typeOf extension)) fun b _ => ?_
    unfold typeOf
    split_ifs <;> exact yields_pure

theorem length_extensionOf_le (file_name : Bytes) : (extensionOf file_name).length ≤ file_name.length := by
  have hdrop := (List.dropWhile_suffix (l := file_name) (ascii ".").contains).length_le
  have hdrop' := (List.dropWhile_suffix (l := file_name.dropWhile (ascii ".").contains)
    fun b => !(ascii ".").contains b).length_le
  have hbehind : (behindToken (ascii ".").contains file_name).length ≤ file_name.length := by
    rw [behindToken, List.length_tail]
    omega
  have hskip := (List.dropWhile_suffix (l := behindToken (ascii ".").contains file_name)
    (ascii ".").contains).length_le
  exact ((List.takeWhile_prefix _).length_le.trans hskip).trans hbehind

theorem typeOf_fits (extension : Bytes) :
    cstr (typeOf extension ++ [0]) 0 = typeOf extension ∧ (typeOf extension).length < 15 := by
  unfold typeOf
  split_ifs <;> decide

theorem yields_ct {file_name : Block 30} (h0 : 0 ∈ file_name.mem) {P : Block 15 → Prop} {Q : Bytes → Prop}
    (hPQ : ∀ b : Block 15, 0 ∈ b.mem → (P b ↔ Q (cstr b.mem 0))) :
    Yields (contentType arrays file_name.mem)
      (fun content_type => Yields (strcpy arrays.ct (content_type ++ [0]) (some 0)) P) ↔
    extensionOf (cstr file_name.mem 0) ≠ [] ∧ Q (typeOf (extensionOf (cstr file_name.mem 0))) := by
  have hname : (cstr file_name.mem 0).length < SMALL_BUF := (Block.length_cstr h0).trans (by decide)
  have hextension := (length_extensionOf_le (cstr file_name.mem 0)).trans_lt hname
  have hcopy (extension : Bytes) :
      Yields (strcpy arrays.ct (typeOf extension ++ [0]) (some 0)) P ↔ Q (typeOf extension) := by
    obtain ⟨hcstr, hfits⟩ := typeOf_fits extension
    rw [yields_strcpy hPQ]
    simp [hcstr, hfits]
  rw [yields_contentType h0, hcopy]
  simp only [hname, hextension, true_and]

def replyTo (method file_name : Bytes) : Reply :=
  if method ≠ ascii "GET" then .sendError else .sendData (typeOf (extensionOf file_name)) file_name

def methodOf (line : Bytes) : Bytes := firstToken (ascii " /").contains line

def fileNameOf (line : Bytes) : Bytes :=
  firstToken (ascii " /").contains (behindToken (ascii " /").contains line)

theorem yields_requestHandler {req_line : Block SMALL_BUF} {clnt_read : Bytes}
    (hline : fgets arrays.req_line clnt_read = some req_line) (hhttp : ascii "HTTP/" <:+: cstr req_line.mem 0)
    {P : Reply → Prop} :
    Yields (requestHandler arrays clnt_read) P ↔
      methodOf (cstr req_line.mem 0) ≠ [] ∧ (methodOf (cstr req_line.mem 0)).length < 10 ∧
      fileNameOf (cstr req_line.mem 0) ≠ [] ∧ (fileNameOf (cstr req_line.mem 0)).length < 30 ∧
      extensionOf (fileNameOf (cstr req_line.mem 0)) ≠ [] ∧
      P (replyTo (methodOf (cstr req_line.mem 0)) (fileNameOf (cstr req_line.mem 0))) := by
  have h0 : 0 ∈ req_line.mem := zero_mem_of_fgets hline
  obtain ⟨k, hk⟩ := Option.isSome_iff_exists.1 (search_isSome_iff.2 hhttp)
  have hstrstr : strstr (ascii "HTTP/") req_line.mem = some (some k) := by
    rw [strstr_eq (by decide) (by decide), if_pos (.inl h0), ← hk]
    rfl
  have hfirst := cuts_cut (s := 0) h0 (ascii " /")
  have hsecond := cuts_cut hfirst.kept.1 (ascii " /")
  rw [hfirst.kept.2] at hsecond
  simp only [requestHandler, hline, Option.getD_some, hstrstr]
  rw [yields_bind, yields_strtok (s := 0) h0, yields_bind]
  refine hfirst.yields_strcpy (Q := fun method => fileNameOf (cstr req_line.mem 0) ≠ [] ∧
    (fileNameOf (cstr req_line.mem 0)).length < 30 ∧ extensionOf (fileNameOf (cstr req_line.mem 0)) ≠ [] ∧
    P (replyTo method (fileNameOf (cstr req_line.mem 0)))) fun method _ => ?_
  rw [yields_bind, yields_strtok hfirst.kept.1, yields_bind]
  refine hsecond.yields_strcpy (Q := fun name => extensionOf name ≠ [] ∧
    P (replyTo (cstr method.mem 0) name)) fun file_name hname => ?_
  simp only [yields_bind]
  refine yields_ct hname (Q := fun ct => P (if cstr method.mem 0 ≠ ascii "GET" then .sendError
    else .sendData ct (cstr file_name.mem 0))) fun ct _ => ?_
  split_ifs <;> exact yields_pure

theorem extensionOf_ne_nil_iff {file_name : Bytes} : extensionOf file_name ≠ [] ↔
    ∃ name extension, file_name = name ++ ascii "." ++ extension ∧
      (∃ b ∈ name, b ∉ ascii ".") ∧ ∃ b ∈ extension, b ∉ ascii "." := by
  have hdot : ascii "." = [0x2e] := by decide
  rw [extensionOf, second_token_iff, hdot]
  simp only [List.contains_eq_mem, decide_eq_true_eq, decide_eq_false_iff_not]
  constructor
  · rintro ⟨name, d, extension, rfl, hd, hne⟩
    obtain rfl := List.mem_singleton.1 hd
    exact ⟨name, extension, (List.append_cons name _ extension), hne⟩
  · rintro ⟨name, extension, rfl, hne⟩
    exact ⟨name, 0x2e, extension, (List.append_cons name _ extension).symm, List.mem_singleton_self _, hne⟩

theorem Shape.tokens {line method file_name : Bytes} (h : Shape line method file_name) :
    methodOf line = method ∧ fileNameOf line = file_name := by
  obtain ⟨lead, gap, rest, hline, hlead, hgap, hne, hrest⟩ := h.parts
  obtain ⟨d, gap, rfl⟩ := List.exists_cons_of_ne_nil hne
  have hno {token : Bytes} (htoken : ∀ b ∈ token, b ∉ ascii " /") :
      ∀ b ∈ token, (ascii " /").contains b = false := by
    simpa [List.contains_eq_mem] using htoken
  have hdelim {part : Bytes} (hpart : ∀ b ∈ part, b ∈ ascii " /") :
      ∀ b ∈ part, (ascii " /").contains b := by
    simpa [List.contains_eq_mem] using hpart
  have hbehind : ∀ b ∈ (d :: gap ++ (file_name ++ rest)).head?, (ascii " /").contains b := by
    intro b hb
    obtain rfl := Option.some.inj hb
    exact hdelim hgap d List.mem_cons_self
  have hfirst := token_append (hdelim hlead) (hno h.method_token.1) h.method_token.2.1 hbehind
  have hsecond := token_append (fun b hb => hdelim hgap b (List.mem_cons_of_mem d hb))
    (hno h.file_name_token.1) h.file_name_token.2.1 (by simpa using hrest)
  rw [methodOf, fileNameOf, hline, hfirst.1, hfirst.2]
  exact ⟨rfl, hsecond.1⟩

theorem shape_of_tokens {line : Bytes} (hmethod : methodOf line ≠ [] ∧ (methodOf line).length < 10)
    (hname : fileNameOf line ≠ [] ∧ (fileNameOf line).length < 30)
    (hextension : extensionOf (fileNameOf line) ≠ []) :
    Shape line (methodOf line) (fileNameOf line) := by
  have hno (l : Bytes) : ∀ b ∈ firstToken (ascii " /").contains l, b ∉ ascii " /" := by
    simpa [List.contains_eq_mem] using @notMem_firstToken _ (ascii " /").contains l
  refine ⟨?_, ⟨hno _, hmethod⟩, ⟨hno _, hname⟩, extensionOf_ne_nil_iff.1 hextension⟩
  obtain ⟨lead, behind, hline, hlead, hbehind, hkept⟩ := token_split (ascii " /").contains line
  cases behind with
  | nil =>
    rw [fileNameOf, hkept] at hname
    exact absurd rfl hname.1
  | cons d behind =>
    obtain ⟨gap, rest, hsplit, hgap, hrest, -⟩ := token_split (ascii " /").contains behind
    have hsecond : fileNameOf line = firstToken (ascii " /").contains behind := by
      rw [fileNameOf, hkept, List.tail_cons]
    rw [← hsecond] at hsplit
    refine ⟨lead, d :: gap, rest, ?_, by simpa using hlead, ?_, List.cons_ne_nil d gap, by simpa using hrest⟩
    · rw [List.cons_append, ← hsplit]
      exact hline
    · intro b hb
      obtain rfl | hb := List.mem_cons.1 hb
      · simpa using hbehind b rfl
      · simpa using hgap b hb

theorem requestHandler_of_shape {req_line : Block SMALL_BUF} {clnt_read method file_name : Bytes}
    (hline : fgets arrays.req_line clnt_read = some req_line) (hhttp : ascii "HTTP/" <:+: cstr req_line.mem 0)
    (hshape : Shape (cstr req_line.mem 0) method file_name) :
    requestHandler arrays clnt_read = .ok (replyTo method file_name) := by
  obtain ⟨rfl, rfl⟩ := hshape.tokens
  have hyields := (yields_requestHandler hline hhttp (P := fun reply => reply = replyTo _ _)).2
    ⟨hshape.method_token.2.1, hshape.method_token.2.2, hshape.file_name_token.2.1, hshape.file_name_token.2.2,
      extensionOf_ne_nil_iff.2 hshape.extension, rfl⟩
  obtain ⟨reply, hreply, rfl⟩ := hyields
  exact hreply

/-- The lines that `request_handler` copies without a fault, exactly. -/
theorem requestHandler_ok_iff {req_line : Block SMALL_BUF} {clnt_read : Bytes}
    (hline : fgets arrays.req_line clnt_read = some req_line)
    (hhttp : ascii "HTTP/" <:+: cstr req_line.mem 0) :
    (∃ reply, requestHandler arrays clnt_read = .ok reply) ↔
      ∃ method file_name, Shape (cstr req_line.mem 0) method file_name := by
  constructor
  · rintro ⟨reply, hreply⟩
    have hyields : Yields (requestHandler arrays clnt_read) fun _ => True := ⟨reply, hreply, trivial⟩
    rw [yields_requestHandler hline hhttp] at hyields
    obtain ⟨hmethod, hlen, hname, hlen', hextension, -⟩ := hyields
    exact ⟨_, _, shape_of_tokens ⟨hmethod, hlen⟩ ⟨hname, hlen'⟩ hextension⟩
  · rintro ⟨method, file_name, hshape⟩
    exact ⟨_, requestHandler_of_shape hline hhttp hshape⟩

end
end NetDemo.Linux.HttpServer
