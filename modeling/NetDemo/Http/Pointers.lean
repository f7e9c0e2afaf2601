import NetDemo.Http.Decode
import NetDemo.Foundation.Span

/-! The header phase of `HttpCodec::tryDecode` down to the pointers, which are offsets from the first
byte of `m_inBuf`. A read outside of these bytes is `none`, and so is a loop that does not end. -/

namespace NetDemo.Http.Pointers
open Foundation

structure Slice where
  m_pb : ℤ
  m_pe : ℤ
deriving DecidableEq

def read (d : Bytes) (p : ℤ) : Option UInt8 := if 0 ≤ p then d[p.toNat]? else none

def readAll (d : Bytes) (b e : ℤ) : Option Bytes :=
  if 0 ≤ b ∧ b ≤ e ∧ e ≤ d.length then some ((d.take e.toNat).drop b.toNat) else none

/-- `while (b < m_pe && p(*b)) ++b;` -/
def skipLoop (d : Bytes) (p : UInt8 → Bool) (m_pe : ℤ) : ℕ → ℤ → Option ℤ
  | 0, _ => none
  | fuel + 1, b =>
    if b < m_pe then do
      let a ← read d b
      if p a then skipLoop d p m_pe fuel (b + 1) else some b
    else some b

/-- Every round takes one byte, so their number is fuel enough. -/
def skip (d : Bytes) (p : UInt8 → Bool) (m_pe b : ℤ) : Option ℤ :=
  skipLoop d p m_pe ((m_pe - b).toNat + 1) b

namespace Slice

def size (w : ℕ) (s : Slice) : ℤ := (s.m_pe - s.m_pb) % 2 ^ w

def empty (s : Slice) : Bool := s.m_pe == s.m_pb

def back (d : Bytes) (s : Slice) : Option UInt8 := read d (s.m_pe - 1)

def at_ (d : Bytes) (s : Slice) (n : ℤ) : Option UInt8 := read d (s.m_pb + n)

def toString (d : Bytes) (s : Slice) : Option Bytes := readAll d s.m_pb s.m_pe

/-- What is cut off, and what stays. -/
def eatWord (d : Bytes) (s : Slice) : Option (Slice × Slice) := do
  let b ← skip d isspace s.m_pe s.m_pb
  let e ← skip d (fun c => !isspace c) s.m_pe b
  some (⟨b, e⟩, ⟨e, s.m_pe⟩)

def eatLine (d : Bytes) (s : Slice) : Option (Slice × Slice) := do
  let m_pb ← skip d (fun c => !isEol c) s.m_pe s.m_pb
  some (⟨s.m_pb, s.m_pb + (m_pb - s.m_pb)⟩, ⟨m_pb, s.m_pe⟩)

def eat (w : ℕ) (s : Slice) (sz : ℤ) : Slice × Slice :=
  let sz := if sz > s.size w then s.size w else sz
  (⟨s.m_pb, s.m_pb + sz⟩, ⟨s.m_pb + sz, s.m_pe⟩)

def sub (s : Slice) (boff eoff : ℤ) : Slice := ⟨s.m_pb + boff, s.m_pe + eoff⟩

end Slice

/-- A round of the header loop that puts a new key into `m_headers`. -/
structure Stored where
  key : Slice
  value : Slice
deriving DecidableEq

/-- What there is to know of a call besides its results: all slices that it cut from the header
block or changed, those of them that `eat(2)` threw away, and what it stored. -/
structure Trace where
  cuts : List Slice
  skipped : List Slice
  stored : List Stored
deriving DecidableEq

def Trace.append (t t' : Trace) : Trace :=
  ⟨t.cuts ++ t'.cuts, t.skipped ++ t'.skipped, t.stored ++ t'.stored⟩

/-- The loop of `getHeader`; the bound is the one of a `size_t`. -/
def getHeaderLoop (w : ℕ) (d : Bytes) (data : Slice) : ℕ → ℤ → Option (Option ℤ)
  | 0, _ => none
  | fuel + 1, i =>
    if i ≤ (data.size w - 4) % 2 ^ w then do
      let a ← data.at_ d i
      let found ← if 0x0d = a then
          (readAll d (data.m_pb + i) (data.m_pb + i + 4)).map fun b => decide (b = crlfcrlf)
        else some false
      if found then some (some i) else getHeaderLoop w d data fuel (i + 1)
    else some none

def getHeader (w : ℕ) (d : Bytes) (data : Slice) : Option (Option ℤ) :=
  if data.size w < 4 then some none else getHeaderLoop w d data (d.length + 1) 0

/-- `!value.empty() && !key.empty() && key.back() == ':'` -/
def isField (d : Bytes) (key value : Slice) : Option Bool :=
  if value.empty then some false
  else if key.empty then some false
  else (key.back d).map fun b => decide (b = 0x3a)

def headerLoop (w : ℕ) (d : Bytes) : ℕ → Slice → HttpCodec → Option (Bool × HttpCodec × Trace)
  | 0, _, _ => none
  | fuel + 1, header, c =>
    if header.empty then some (true, c, ⟨[], [], []⟩) else do
      let (eol, header₁) := header.eat w 2
      let (line, header₂) ← header₁.eatLine d
      let (key, line₁) ← line.eatWord d
      let (value, line₂) ← line₁.eatWord d
      let cuts := [eol, header₁, line, header₂, key, line₁, value, line₂]
      let ok ← isField d key value
      if ok then do
        let name ← (key.sub 0 (-1)).toString d
        let text ← value.toString d
        let (ok, c', t) ← headerLoop w d fuel header₂
          { c with m_req.m_headers := c.m_req.m_headers.insert name text }
        let stored := if (c.m_req.m_headers.lookup name).isSome then [] else [Stored.mk key value]
        some (ok, c', .append ⟨cuts ++ [key.sub 0 (-1)], [eol], stored⟩ t)
      else some (false, { c with m_status := some .bad_request }, ⟨cuts, [eol], []⟩)

/-- `m_url.at(0)` throws where there is no such character. -/
def parseStartLine (c : HttpCodec) : Bool × HttpCodec :=
  if ascii "HTTP/1.0" ≠ c.m_req.m_version ∧ ascii "HTTP/1.1" ≠ c.m_req.m_version then
    (false, c.informUnsupported)
  else if ascii "GET" ≠ c.m_req.m_method ∧ ascii "POST" ≠ c.m_req.m_method then
    (false, c.informUnimplemented)
  else if [] = c.m_req.m_url then (false, { c with m_status := some .bad_request })
  else match c.m_req.m_url[0]? with
    | none => (false, { c with m_status := some .internal_server_error })
    | some b => if 0x2f ≠ b then (false, { c with m_status := some .bad_request }) else (true, c)

/-- `tryDecode` from the header loop on. -/
def decodeFields (w : ℕ) (c : HttpCodec) (d : Bytes) (header : Slice) :
    Option (ℤ × HttpCodec × Trace) := do
  let (ok, c, t) ← headerLoop w d ((header.m_pe - header.m_pb).toNat + 1) header c
  if !ok then some (-1, c, t) else
    match parseStartLine c with
    | (false, c) => some (-1, c, t)
    | (true, c) =>
      match c.parseHeader with
      | (false, c) => some (-1, c, t)
      | (true, c) => some ((c.finish w d).1, (c.finish w d).2, t)

/-- What `tryDecode` does with a header block that is not empty. -/
def decodeHeader (w : ℕ) (c : HttpCodec) (d : Bytes) (header : Slice) :
    Option (ℤ × HttpCodec × Trace) := do
  let (startLine, header₁) ← header.eatLine d
  let (method, startLine₁) ← startLine.eatWord d
  let (url, startLine₂) ← startLine₁.eatWord d
  let (version, startLine₃) ← startLine₂.eatWord d
  let t : Trace :=
    ⟨[header, startLine, header₁, method, startLine₁, url, startLine₂, version, startLine₃], [], []⟩
  if version.empty then some (-1, { c with m_status := some .bad_request }, t) else
    let m_method ← method.toString d
    let m_url ← url.toString d
    let m_version ← version.toString d
    let c := { c with m_req.m_method := m_method, m_req.m_url := m_url, m_req.m_version := m_version }
    (decodeFields w c d header₁).map fun r => (r.1, r.2.1, t.append r.2.2)

def tryDecode (w : ℕ) (c : HttpCodec) (d : Bytes) : Option (ℤ × HttpCodec × Trace) := do
  let m_inBuf : Slice := ⟨0, d.length⟩
  match ← getHeader w d m_inBuf with
  | none => some (0, c, ⟨[], [], []⟩)
  | some i =>
    let header : Slice := ⟨m_inBuf.m_pb, m_inBuf.m_pb + i⟩
    let c := { c with m_req.m_nHeaderLength := (i + 4).toNat }
    if header.empty then some (0, c, ⟨[header], [], []⟩) else decodeHeader w c d header

end NetDemo.Http.Pointers
