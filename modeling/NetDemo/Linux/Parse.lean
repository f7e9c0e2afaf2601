import NetDemo.Foundation.CString
import NetDemo.Http.Slice

/-! `http_parse.cpp`: the parser of the Linux server works on one buffer, in place. -/

namespace NetDemo.Linux
open Foundation Http

def BUFFER_SIZE : ℕ := 4096

inductive CheckState
  | requestline | header
deriving DecidableEq

inductive LineStatus
  | lineOk | lineBad | lineOpen
deriving DecidableEq

inductive HttpCode
  | noRequest | getRequest | badRequest | forbiddenRequest | internalError | closedRequest
deriving DecidableEq

/-- The variables of `main` that the parser works on. -/
structure Parser where
  buffer : Bytes
  checkedIndex : ℕ
  readIndex : ℕ
  startLine : ℕ
  checkstate : CheckState
deriving DecidableEq

def blanks : Bytes := ascii " \t"

def parseRequestline (buffer : Bytes) (temp : ℕ) (checkstate : CheckState) : HttpCode × Bytes × CheckState :=
  match strpbrk buffer temp blanks with
  | none => (.badRequest, buffer, checkstate)
  | some url =>
    let buffer := buffer.set url 0
    let url := url + 1
    if strcasecmp (cstr buffer temp) (ascii "GET") then
      let url := url + strspn (cstr buffer url) blanks
      match strpbrk buffer url blanks with
      | none => (.badRequest, buffer, checkstate)
      | some version =>
        let buffer := buffer.set version 0
        let version := version + 1
        let version := version + strspn (cstr buffer version) blanks
        if !strcasecmp (cstr buffer version) (ascii "HTTP/1.1") then (.badRequest, buffer, checkstate)
        else
          let url : Option ℕ :=
            if strncasecmp (cstr buffer url) (ascii "http://") 7 then strchr buffer (url + 7) 0x2f
            else some url
          if url.all fun url => buffer[url]? ≠ some 0x2f then (.badRequest, buffer, checkstate)
          else (.noRequest, buffer, .header)
    else (.badRequest, buffer, checkstate)

/-- What becomes of a header is only printed. -/
def parseHeaders (buffer : Bytes) (temp : ℕ) : HttpCode :=
  if buffer[temp]? = some 0 then .getRequest else .noRequest

namespace Parser

/-- The variables before the first `recv`. -/
def new : Parser := ⟨List.replicate BUFFER_SIZE 0, 0, 0, 0, .requestline⟩

def parseLine (p : Parser) : LineStatus × Parser :=
  if p.checkedIndex < p.readIndex then
    if p.buffer[p.checkedIndex]? = some 0x0d then
      if p.checkedIndex + 1 = p.readIndex then (.lineOpen, p)
      else if p.buffer[p.checkedIndex + 1]? = some 0x0a then
        (.lineOk, { p with
          buffer := (p.buffer.set p.checkedIndex 0).set (p.checkedIndex + 1) 0
          checkedIndex := p.checkedIndex + 2 })
      else (.lineBad, p)
    else if p.buffer[p.checkedIndex]? = some 0x0a ∧ 1 < p.checkedIndex ∧
        p.buffer[p.checkedIndex - 1]? = some 0x0d then
      (.lineOk, { p with
        -- The CR came at the end of what was received before.
        buffer := (p.buffer.set (p.checkedIndex - 1) 0).set p.checkedIndex 0
        checkedIndex := p.checkedIndex + 1 })
    else parseLine { p with checkedIndex := p.checkedIndex + 1 }
  else (.lineOpen, p)
termination_by p.readIndex - p.checkedIndex

theorem parseLine_ok {p q : Parser} (h : p.parseLine = (.lineOk, q)) :
    p.checkedIndex < q.checkedIndex ∧ q.checkedIndex ≤ q.readIndex ∧ q.readIndex = p.readIndex := by
  fun_induction parseLine p with
  | case1 p hlt hcr hend => cases h
  | case2 p hlt hcr hend hlf =>
    obtain ⟨-, rfl⟩ := Prod.mk.inj h
    refine ⟨?_, ?_, rfl⟩ <;> simp only <;> omega
  | case3 p hlt hcr hend hlf => cases h
  | case4 p hlt hcr hlf =>
    obtain ⟨-, rfl⟩ := Prod.mk.inj h
    refine ⟨?_, ?_, rfl⟩ <;> simp only <;> omega
  | case5 p hlt hcr hlf ih =>
    obtain ⟨hlo, hhi, heq⟩ := ih h
    exact ⟨Nat.lt_of_succ_lt hlo, hhi, heq⟩
  | case6 p hge => cases h

/-- `parse_content`; its `default` has no state left. -/
def parseContent (p : Parser) : HttpCode × Parser :=
  match _h : p.parseLine with
  | (.lineOpen, q) => (.noRequest, q)
  | (.lineBad, q) => (.badRequest, q)
  | (.lineOk, q) =>
    match q.checkstate with
    | .requestline =>
      let (retcode, buffer, checkstate) := parseRequestline q.buffer q.startLine q.checkstate
      let q := { q with buffer := buffer, startLine := q.checkedIndex, checkstate := checkstate }
      if retcode = .badRequest then (.badRequest, q) else q.parseContent
    | .header =>
      let retcode := parseHeaders q.buffer q.startLine
      let q := { q with startLine := q.checkedIndex }
      if retcode = .badRequest then (.badRequest, q)
      else if retcode = .getRequest then (.getRequest, q)
      else q.parseContent
termination_by p.readIndex - p.checkedIndex
decreasing_by
  all_goals
    have := parseLine_ok _h
    omega

def receive (p : Parser) (data : Bytes) : Parser :=
  { p with
    buffer := p.buffer.take p.readIndex ++ data ++ p.buffer.drop (p.readIndex + data.length)
    readIndex := p.readIndex + data.length }

/-- The loop of `main`, over what `recv` brings. -/
def serve (p : Parser) : List Bytes → HttpCode × Parser
  | [] => (.noRequest, p)
  | data :: more =>
    let (result, q) := (p.receive data).parseContent
    if result = .noRequest then q.serve more else (result, q)

end Parser
end NetDemo.Linux
