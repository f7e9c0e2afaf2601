import NetDemo.Http.Slice
import NetDemo.Foundation.Word

/-! `HttpCodec`. The slice `m_inBuf` points into the block of a `Buffer`, so the bytes it shows are
an argument of every call; what a call leaves in the codec is part of its result. -/

namespace NetDemo.Http
open Foundation

/-- The values of `HttpCodec::statusType` that the codec sets. -/
inductive StatusType
  | ok | bad_request | not_implemented | http_version_not_supported | internal_server_error
deriving DecidableEq

def StatusType.code : StatusType → ℕ
  | .ok => 200
  | .bad_request => 400
  | .internal_server_error => 500
  | .not_implemented => 501
  | .http_version_not_supported => 505

/-- `std::unordered_map<std::string, std::string>` with the keys in the order of their insertion. -/
abbrev Headers := List (Bytes × Bytes)

/-- `insert` keeps the value a key already has. -/
def Headers.insert (m : Headers) (key value : Bytes) : Headers :=
  if (m.lookup key).isSome then m else m ++ [(key, value)]

structure HttpRequest where
  m_version : Bytes
  m_headers : Headers
  m_nHeaderLength : ℕ
  m_method : Bytes
  m_url : Bytes
  /-- Begin of the body and its length, relative to the first byte of `m_inBuf`. -/
  m_body : ℤ × ℤ
deriving DecidableEq

structure HttpCodec where
  m_outBuf : Bytes
  m_req : HttpRequest
  /-- `m_res.m_status`, which no constructor initialises. -/
  m_status : Option StatusType
deriving DecidableEq

def getHeaderField (m : Headers) (strKey : Bytes) : Bytes := (m.lookup strKey).getD []

/-- The index of the first CR LF CR LF. -/
def getHeader : Bytes → Option ℕ
  | [] => none
  | a :: t => if [0x0d, 0x0a, 0x0d, 0x0a].isPrefixOf (a :: t) then some 0 else (getHeader t).map (· + 1)

def isDigit (b : UInt8) : Bool := 0x30 ≤ b && b ≤ 0x39

/-- The value of the longest prefix of digits. -/
def digits (s : Bytes) : ℕ := (s.takeWhile isDigit).foldl (fun n b => 10 * n + (b.toNat - 0x30)) 0

/-- `atoi`: white space, an optional sign, digits; the result is saturated to `int`. -/
def atoi (s : Bytes) : ℤ :=
  let s := s.dropWhile isspace
  let n : ℤ :=
    match s with
    | 0x2b :: t => digits t
    | 0x2d :: t => -digits t
    | t => digits t
  max (-2 ^ 31) (min (2 ^ 31 - 1) n)

theorem neg_le_atoi (s : Bytes) : -2 ^ 31 ≤ atoi s := by
  unfold atoi
  exact le_max_left _ _

theorem atoi_lt (s : Bytes) : atoi s < 2 ^ 31 := by
  simp only [atoi]
  omega

namespace HttpCodec

def new : HttpCodec := ⟨[], ⟨[], [], 0, [], [], (0, 0)⟩, none⟩

def responseMessage (c : HttpCodec) : Bytes := c.m_outBuf

def writeResponse (c : HttpCodec) : HttpCodec :=
  let status := StatusType.ok
  { c with
    m_status := some status
    m_outBuf := ascii "HTTP/1.1" ++ ascii " " ++ ascii (toString status.code) ++ ascii "\r\n" ++
      ascii "Content-Type: text/plain\r\n" ++ ascii "Content-Length: 5\r\n" ++
      -- The status was just set to `ok`.
      (if status ≠ .ok then ascii "Connection: close\r\n" else []) ++ ascii "\r\n" ++ ascii "hello" }

def informUnimplemented (c : HttpCodec) : HttpCodec := { c with m_status := some .not_implemented }

def informUnsupported (c : HttpCodec) : HttpCodec :=
  { c with m_status := some .http_version_not_supported }

def parseStartLine (c : HttpCodec) : Bool × HttpCodec :=
  if ascii "HTTP/1.0" ≠ c.m_req.m_version ∧ ascii "HTTP/1.1" ≠ c.m_req.m_version then
    (false, c.informUnsupported)
  else if ascii "GET" ≠ c.m_req.m_method ∧ ascii "POST" ≠ c.m_req.m_method then
    (false, c.informUnimplemented)
  else match c.m_req.m_url with
    | [] => (false, { c with m_status := some .bad_request })
    | b :: _ => if 0x2f ≠ b then (false, { c with m_status := some .bad_request }) else (true, c)

def parseHeader (c : HttpCodec) : Bool × HttpCodec :=
  if ascii "POST" = c.m_req.m_method ∧ c.m_req.m_headers.lookup (ascii "Content-Length") = none then
    (false, { c with m_status := some .bad_request })
  else if c.m_req.m_headers.lookup (ascii "Host") = none then
    (false, { c with m_status := some .bad_request })
  else (true, c)

def parseBody (_ : HttpCodec) : Bool := true

/-- The loop `while (!header.empty())`. Every round takes a byte at least, so the length of `header`
is fuel enough. -/
def headerLoop : ℕ → Bytes → HttpCodec → Bool × HttpCodec
  | 0, _, c => (true, c)
  | fuel + 1, header, c =>
    if header = [] then (true, c) else
      -- Two bytes for the line end, whatever they are.
      let header := (Slice.eat header 2).2
      let (line, header) := Slice.eatLine header
      let (key, line) := Slice.eatWord line
      let (value, _) := Slice.eatWord line
      if value ≠ [] ∧ key ≠ [] ∧ Slice.back key = some 0x3a then
        headerLoop fuel header
          { c with m_req.m_headers := c.m_req.m_headers.insert (Slice.sub key 0 (-1)) value }
      else (false, { c with m_status := some .bad_request })

/-- What `tryDecode` does once start line and header lines are accepted; `w` is the width of
`size_t`. -/
def finish (w : ℕ) (c : HttpCodec) (m_inBuf : Bytes) : ℤ × HttpCodec :=
  -- `parseHeader` asks for another spelling of this name.
  let contentLength := atoi (getHeaderField c.m_req.m_headers (ascii "content-length"))
  if (m_inBuf.length : ℤ) < (c.m_req.m_nHeaderLength + contentLength) % 2 ^ w then (0, c) else
    let c := { c with m_req.m_body := (c.m_req.m_nHeaderLength, contentLength) }
    -- All that was received counts as this request.
    if ascii "GET" = c.m_req.m_method then (int32 (uint m_inBuf.length), c.writeResponse)
    else if ascii "POST" = c.m_req.m_method then if !c.parseBody then (-1, c) else (-1, c)
    else (-1, c)

/-- `tryDecode` after `getHeader` found a header block that is not empty. -/
def decodeHeader (w : ℕ) (c : HttpCodec) (m_inBuf header : Bytes) : ℤ × HttpCodec :=
  let (startLine, header) := Slice.eatLine header
  let (method, startLine) := Slice.eatWord startLine
  let (url, startLine) := Slice.eatWord startLine
  let (version, _) := Slice.eatWord startLine
  if version = [] then (-1, { c with m_status := some .bad_request }) else
    let c := { c with m_req.m_method := method, m_req.m_url := url, m_req.m_version := version }
    match headerLoop header.length header c with
    | (false, c) => (-1, c)
    | (true, c) =>
      match c.parseStartLine with
      | (false, c) => (-1, c)
      | (true, c) =>
        match c.parseHeader with
        | (false, c) => (-1, c)
        | (true, c) => finish w c m_inBuf

def tryDecode (w : ℕ) (c : HttpCodec) (m_inBuf : Bytes) : ℤ × HttpCodec :=
  match getHeader m_inBuf with
  | none => (0, c)
  | some i =>
    let c := { c with m_req.m_nHeaderLength := i + 4 }
    -- An empty header block counts as one that is not complete.
    if i = 0 then (0, c) else decodeHeader w c m_inBuf (m_inBuf.take i)

end HttpCodec

example : (HttpCodec.tryDecode 32 .new (ascii "GET / HTTP/1.1\r\nHost: a\r\n\r\n")).1 = 27 := by decide

end NetDemo.Http
