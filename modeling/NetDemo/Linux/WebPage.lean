import NetDemo.Linux.RequestHandler
import NetDemo.Foundation.Stdio

/-! A page on its way: what `http_client.c` asks for, what `http_server.c` answers from its files, and
what the client prints of it. -/

namespace NetDemo.Linux.HttpServer
open Foundation Http

def BUF_SIZE : ℕ := 1024

/-- What is written to a connection, and whether the server closes it. -/
structure Response where
  bytes : Bytes
  closed : Bool
deriving DecidableEq

/-- `send_error`, whose `content` is not sent. -/
def sendError : Bytes :=
  ascii "HTPP/1.0 400 Bad Request\r\n" ++ ascii "Server:Linux Web Sserver \r\n" ++
    ascii "Content-length:2048\r\n" ++ ascii "Content-type:text/html\r\n\r\n"

/-- What `files` answers is what `fopen` finds under a name. The stream of a file that is not found is not
closed. -/
def sendData (fuel : ℕ) (files : Bytes → Option Bytes) (cnt_type : Block SMALL_BUF) (buf : Block BUF_SIZE)
    (ct file_name : Bytes) : Except Fault (Option Response) := do
  let cnt_type ← strcpy cnt_type (ascii "Content-type:" ++ ct ++ ascii "\r\n\r\n" ++ [0]) (some 0)
  match files file_name with
  | none => return some ⟨sendError, false⟩
  | some content => return (InFile.getsWhile fuel (.fopen content) buf).map fun strs =>
    ⟨ascii "HTTP/1.0 200 OK\r\n" ++ ascii "Server:Linux Web Server \r\n" ++ ascii "Content-length:2048\r\n" ++
      cstr cnt_type.mem 0 ++ strs.flatten, true⟩

/-- All that `request_handler` does with a connection. -/
def serve (fuel : ℕ) (files : Bytes → Option Bytes) (arrays : Arrays) (cnt_type : Block SMALL_BUF)
    (buf : Block BUF_SIZE) (clnt_read : Bytes) : Except Fault (Option Response) := do
  match ← requestHandler arrays clnt_read with
  | .sendError => return some ⟨sendError, true⟩
  | .sendData ct file_name => sendData fuel files cnt_type buf ct file_name

end HttpServer

namespace HttpClient
open Foundation Http

def PATH_SIZE : ℕ := 512

def MAX_SIZE : ℕ := 1024

/-- `get_handler`; the last character of the line is overwritten, whatever it is. -/
def getHandler (path : Block PATH_SIZE) (request_line : Block MAX_SIZE) (stdin : Bytes) :
    Except Fault Bytes := do
  let path := (fgets path stdin).getD path
  if 0 ∉ path.mem then throw .beyond
  if cstr path.mem 0 = [] then throw .overflow
  let path := path.mem.set ((cstr path.mem 0).length - 1) 0
  let request_line ← strcpy request_line
    (ascii "GET " ++ cstr path 0 ++ ascii " HTTP/1.1\r\n" ++ [0]) (some 0)
  return cstr request_line.mem 0

/-- `read_handler`, on a connection that the server closes. -/
def readHandler (fuel : ℕ) (read_buf : Block MAX_SIZE) (received : Bytes) : Option Bytes :=
  (InFile.getsAhead fuel (.fopen received) read_buf).map List.flatten

end HttpClient

/-! ### A text in an array -/

section
open Foundation Http
variable {n : ℕ}

theorem cstr_text {text : Bytes} (h : 0 ∉ text) : cstr (text ++ [0]) 0 = text := by
  rw [cstr_of_drop (List.drop_zero ..)]
  exact shown_eq_self h

theorem strcpy_text {text : Bytes} (h : 0 ∉ text) (hlen : text.length < n) (dst : Block n) :
    ∃ b, strcpy dst (text ++ [0]) (some 0) = .ok b ∧ cstr b.mem 0 = text := by
  have hcopy : Yields (strcpy dst (text ++ [0]) (some 0)) fun b => cstr b.mem 0 = text :=
    (yields_strcpy (Q := fun str => str = text) fun _ _ => Iff.rfl).2
      ⟨0, rfl, by simp, by rwa [cstr_text h], cstr_text h⟩
  exact hcopy

end

namespace HttpClient
open Foundation Http

def requestLine (typed : Bytes) : Bytes := ascii "GET " ++ typed ++ ascii " HTTP/1.1\r\n"

theorem notMem_requestLine {typed : Bytes} {b : UInt8} (h : b ∉ typed)
    (hb : b ∉ ascii "GET " ++ ascii " HTTP/1.1\r\n") : b ∉ requestLine typed := by
  simp only [requestLine, List.mem_append, not_or] at hb ⊢
  exact ⟨⟨hb.1, h⟩, hb.2⟩

theorem length_requestLine (typed : Bytes) : (requestLine typed).length = typed.length + 15 := by
  have hget : (ascii "GET ").length = 4 := by decide
  have hversion : (ascii " HTTP/1.1\r\n").length = 11 := by decide
  rw [requestLine, List.length_append, List.length_append, hget, hversion]
  omega

theorem getHandler_eq {typed : Bytes} (h0 : 0 ∉ typed) (hnl : 0x0a ∉ typed)
    (hlen : typed.length + 1 < PATH_SIZE)
    (path : Block PATH_SIZE) (request_line : Block MAX_SIZE) (stdin : Bytes) :
    getHandler path request_line (typed ++ 0x0a :: stdin) = .ok (requestLine typed) := by
  have hne : typed ++ 0x0a :: stdin ≠ [] := by simp
  obtain ⟨b, hb, hcstr⟩ := fgets_of_ne_nil path (by decide) hne
  rw [firstLine_line hnl (by rw [PATH_SIZE] at hlen ⊢; omega)] at hcstr
  have hline : cstr b.mem 0 = typed ++ [0x0a] := by
    rw [hcstr]
    exact shown_eq_self (by simpa using h0)
  have hcut : cstr (b.mem.set typed.length 0) 0 = typed := by
    have hlt : typed.length < (cstr b.mem 0).length := by simp [hline]
    have hset := cstr_set hlt
    rw [Nat.zero_add, hline, List.take_left] at hset
    exact hset
  have hfits : (requestLine typed).length < MAX_SIZE := by
    rw [length_requestLine, MAX_SIZE]
    rw [PATH_SIZE] at hlen
    omega
  have hnul : 0 ∉ requestLine typed := notMem_requestLine h0 (by decide)
  obtain ⟨b', hb', hcstr'⟩ := strcpy_text hnul hfits request_line
  have hzero : 0 ∈ b.mem := zero_mem_of_fgets hb
  rw [requestLine] at hb'
  simp only [getHandler, hb, Option.getD_some, hzero, not_true, if_false, hline, List.append_eq_nil_iff,
    List.cons_ne_nil, and_false, List.length_append, List.length_singleton, Nat.add_sub_cancel, hcut, hb']
  exact congrArg Except.ok hcstr'

theorem readHandler_eq {fuel : ℕ} {received : Bytes} (hfuel : received.length + 1 < fuel)
    (read_buf : Block MAX_SIZE) :
    readHandler fuel read_buf received = some ((finished MAX_SIZE received).map shown).flatten := by
  rw [readHandler, InFile.getsAhead_eq (by decide) hfuel, Option.map_some]

end HttpClient

namespace HttpServer
open Foundation Http

def header (ct : Bytes) : Bytes :=
  ascii "HTTP/1.0 200 OK\r\n" ++ ascii "Server:Linux Web Server \r\n" ++ ascii "Content-length:2048\r\n" ++
    (ascii "Content-type:" ++ ct ++ ascii "\r\n\r\n")

/-- What `send_data` answers when a name is looked up. -/
def answerTo (ct : Bytes) : Option Bytes → Response
  | none => ⟨sendError, false⟩
  | some content => ⟨header ct ++ ((pieces BUF_SIZE content).map shown).flatten, true⟩

theorem typeLine_fits (extension : Bytes) :
    0 ∉ ascii "Content-type:" ++ typeOf extension ++ ascii "\r\n\r\n" ∧
      (ascii "Content-type:" ++ typeOf extension ++ ascii "\r\n\r\n").length < SMALL_BUF := by
  unfold typeOf
  split_ifs <;> decide

section
variable {fuel : ℕ} {files : Bytes → Option Bytes}

theorem sendData_eq {file_name : Bytes} (hfuel : ∀ content ∈ files file_name, content.length < fuel)
    (cnt_type : Block SMALL_BUF) (buf : Block BUF_SIZE) (extension : Bytes) :
    sendData fuel files cnt_type buf (typeOf extension) file_name =
      .ok (some (answerTo (typeOf extension) (files file_name))) := by
  obtain ⟨h0, hlen⟩ := typeLine_fits extension
  obtain ⟨b, hb, hcstr⟩ := strcpy_text h0 hlen cnt_type
  cases hfile : files file_name with
  | none => simp only [sendData, hb, hfile, bind, Except.bind, pure, Except.pure, answerTo]
  | some content =>
    have hloop := InFile.getsWhile_eq (n := BUF_SIZE) (by decide) (hfuel content hfile) false buf
    simp only [sendData, hb, hfile, bind, Except.bind, pure, Except.pure, InFile.fopen, hloop, hcstr,
      Option.map_some, answerTo, header]

theorem serve_requestLine {typed file_name : Bytes} (h0 : 0 ∉ typed) (hnl : 0x0a ∉ typed)
    (hlen : typed.length + 15 < SMALL_BUF)
    (hshape : Shape (HttpClient.requestLine typed) (ascii "GET") file_name)
    (hfuel : ∀ content ∈ files file_name, content.length < fuel) (arrays : Arrays)
    (cnt_type : Block SMALL_BUF) (buf : Block BUF_SIZE) :
    serve fuel files arrays cnt_type buf (HttpClient.requestLine typed) =
      .ok (some (answerTo (typeOf (extensionOf file_name)) (files file_name))) := by
  have hlast : HttpClient.requestLine typed = (ascii "GET " ++ typed ++ ascii " HTTP/1.1\r") ++ [0x0a] := by
    have hversion : ascii " HTTP/1.1\r\n" = ascii " HTTP/1.1\r" ++ [0x0a] := by decide
    rw [HttpClient.requestLine, hversion, ← List.append_assoc]
  have hline : firstLine SMALL_BUF (HttpClient.requestLine typed) = HttpClient.requestLine typed := by
    have hcount := HttpClient.length_requestLine typed
    rw [hlast] at hcount ⊢
    rw [List.length_append, List.length_singleton] at hcount
    refine firstLine_line ?_ (by rw [SMALL_BUF] at hlen ⊢; omega) []
    have hget : 0x0a ∉ ascii "GET " := by decide
    have hversion : 0x0a ∉ ascii " HTTP/1.1\r" := by decide
    simp [hget, hnl, hversion]
  have hne : HttpClient.requestLine typed ≠ [] := by
    rw [hlast]
    exact List.concat_ne_nil _ _
  obtain ⟨req_line, hreq, hcstr⟩ := fgets_of_ne_nil arrays.req_line (by decide) hne
  have hstr : cstr req_line.mem 0 = HttpClient.requestLine typed := by
    rw [hcstr, hline]
    exact shown_eq_self (HttpClient.notMem_requestLine h0 (by decide))
  have hhttp : ascii "HTTP/" <:+: cstr req_line.mem 0 := by
    rw [hstr]
    refine ⟨ascii "GET " ++ typed ++ ascii " ", ascii "1.1\r\n", ?_⟩
    have hversion : ascii " HTTP/1.1\r\n" = ascii " " ++ ascii "HTTP/" ++ ascii "1.1\r\n" := by decide
    rw [HttpClient.requestLine, hversion]
    simp only [List.append_assoc]
  have hreply := requestHandler_of_shape hreq hhttp (by rwa [hstr])
  have hdata : replyTo (ascii "GET") file_name = .sendData (typeOf (extensionOf file_name)) file_name := by
    simp [replyTo]
  rw [hdata] at hreply
  simp only [serve, hreply, bind, Except.bind]
  exact sendData_eq hfuel cnt_type buf _

end

end HttpServer
end NetDemo.Linux
