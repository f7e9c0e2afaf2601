import NetDemo.Client.Link
import NetDemo.Memory.Buffer

/-! One `ClientContext` on the heap of the process: `send`, the completion handlers and the loop of
`HttpServer::notifyPackageReceived`. -/

namespace NetDemo.Client
open Foundation Memory Http

/-- A call of `WSASend` in flight: its range, and the bytes that stood there. -/
structure WsaSend (α : Type) where
  buf : Ptr
  len : ℕ
  bytes : List α
deriving DecidableEq

structure ClientContext (α : Type) where
  heap : Heap α
  link : Link α
  /-- `m_sendIoCtx->m_wsaBuf` -/
  m_wsaBuf : Ptr × ℕ
  m_inBuf : Buffer
  m_outBuf : Buffer
  m_outBufQueue : List Buffer
  sends : List (WsaSend α)

/-- Why the loop of `notifyPackageReceived` did not come to its end. -/
inductive Stop
  | fault | fuel
deriving DecidableEq

/-- An access outside a live block is a fault. -/
def orFault {β : Type} : Option β → Except Stop β
  | none => .error .fault
  | some b => .ok b

theorem orFault_none_bind {β γ : Type} (f : β → Except Stop γ) :
    (orFault none >>= f) = .error .fault := rfl

theorem orFault_some_bind {β γ : Type} (b : β) (f : β → Except Stop γ) :
    (orFault (some b) >>= f) = f b := rfl

namespace ClientContext
variable {α : Type}

def new (net : ℕ → Bool) : ClientContext α :=
  ⟨Heap.empty, Link.new net, (none, 0), Buffer.new, Buffer.new, [], []⟩

def modify (s : ClientContext α) (f : Link α → Link α) : ClientContext α := { s with link := f s.link }

/-- A new context that `handleAccept` serves a connection with. -/
def accepted (net : ℕ → Bool) : ClientContext α := (new net).modify Link.handleAccept

@[simp] theorem modify_heap (s : ClientContext α) (f : Link α → Link α) :
    (s.modify f).heap = s.heap := rfl

@[simp] theorem modify_link (s : ClientContext α) (f : Link α → Link α) :
    (s.modify f).link = f s.link := rfl

@[simp] theorem modify_inBuf (s : ClientContext α) (f : Link α → Link α) :
    (s.modify f).m_inBuf = s.m_inBuf := rfl

@[simp] theorem modify_outBuf (s : ClientContext α) (f : Link α → Link α) :
    (s.modify f).m_outBuf = s.m_outBuf := rfl

@[simp] theorem modify_sends (s : ClientContext α) (f : Link α → Link α) :
    (s.modify f).sends = s.sends := rfl

/-- `m_wsaBuf` is set to the whole of `m_outBuf`. -/
def setWsaBuf (s : ClientContext α) : ClientContext α :=
  { s with m_wsaBuf := (s.m_outBuf.m_pBegin, s.m_outBuf.getBufferLen) }

def postSend (s : ClientContext α) : Option (PostResult × ClientContext α) :=
  if s.link.m_socket then do
    -- The network may read the range from now on.
    let bytes ← s.heap.load s.m_wsaBuf.1 0 s.m_wsaBuf.2
    let (ok, link) := s.link.answer
    let s := { s with link := link }
    if ok then
      let sends := s.sends ++ [⟨s.m_wsaBuf.1, s.m_wsaBuf.2, bytes⟩]
      return (.successful, { s with sends := sends, link := s.link.note (.posted bytes) })
    else return (.failed, s)
  else some (.invalidSocket, s)

variable [Inhabited α]

/-- The branch of `send` for an empty `m_outBuf`. -/
def firstSend (s : ClientContext α) (sendBuf : Buffer) : Option (Bool × ClientContext α) := do
  let s := s.modify Link.enterIoLoop
  let (h, m_outBuf) ← s.m_outBuf.copy s.heap sendBuf
  let (result, s) ← { s with heap := h, m_outBuf := m_outBuf }.setWsaBuf.postSend
  if result = .failed then return (false, s.modify fun l => l.closeClient.releaseClientContext)
  else return (true, s)

/-- The answer of `send` comes first. `sendBuf` is destroyed on every way out. -/
def send (s : ClientContext α) (pData : List α) : Option (Bool × ClientContext α) := do
  let (h, sendBuf, _) ← Buffer.new.write s.heap pData
  let s := { s with heap := h, link := s.link.note (.send pData) }
  let (ok, s) ←
    if 0 = s.m_outBuf.getBufferLen then s.firstSend sendBuf
    else some (true, { s with
      -- The queue shares the block with `sendBuf`, which gives it back below.
      m_outBufQueue := s.m_outBufQueue ++ [sendBuf.copyConstructor]
      link := s.link.note (.queued pData) })
  let h ← sendBuf.destroy s.heap
  return (ok, { s with heap := h })

/-- The first part of `handleSend` when `m_outBuf` got empty; `pop` destroys the front. -/
def nextOutBuf (s : ClientContext α) : Option (ClientContext α) := do
  let (h, m_outBuf) ← s.m_outBuf.clear s.heap
  let s := { s with heap := h, m_outBuf := m_outBuf }
  match s.m_outBufQueue with
  | front :: rest => do
    let (h, m_outBuf) ← s.m_outBuf.copy s.heap front
    let bytes ← h.load m_outBuf.m_pBegin 0 m_outBuf.getBufferLen
    let h ← front.destroy h
    return { s with
      heap := h
      m_outBuf := m_outBuf
      m_outBufQueue := rest
      link := s.link.note (.copied bytes) }
  | [] => return s.modify Link.releaseClientContext

/-- The second part of `handleSend` sends what is in `m_outBuf` now. -/
def postRest (s : ClientContext α) : Option (ClientContext α) :=
  if 0 ≠ s.m_outBuf.getBufferLen then do
    let (result, s) ← s.setWsaBuf.postSend
    if result = .failed then return s.modify fun l => l.closeClient.releaseClientContext
    else return s
  else some s

def handleSend (s : ClientContext α) (dwBytesTransferred : ℕ) : Option (ClientContext α) := do
  let (h, m_outBuf, _) ← s.m_outBuf.remove s.heap dwBytesTransferred
  let s := { s with heap := h, m_outBuf := m_outBuf }
  let s ← if 0 = s.m_outBuf.getBufferLen then s.nextOutBuf else some s
  s.postRest

/-- The completion of the first `WSASend` in flight, with the bytes it reports. -/
def sendCompleted (s : ClientContext α) (dwBytesTransferred : ℕ) : Option (ClientContext α) :=
  match s.sends with
  | [] => some s
  | op :: rest =>
    if 0 < dwBytesTransferred ∧ dwBytesTransferred ≤ op.len then
      { s with
        sends := rest
        link := s.link.note (.reported (op.bytes.take dwBytesTransferred)) }.handleSend
          dwBytesTransferred
    else some s

def appendToBuffer (s : ClientContext α) (pInBuf : List α) : Option (ClientContext α) := do
  let (h, m_inBuf, _) ← s.m_inBuf.write s.heap pInBuf
  return { s with heap := h, m_inBuf := m_inBuf }

end ClientContext

/-! ### The HTTP server -/

namespace ClientContext

/-- What the loop does with an answer that is not zero, up to `CloseClient`. -/
def reply (s : ClientContext UInt8) (codec : HttpCodec) (ret : ℤ) : Option (ClientContext UInt8) := do
  let s := if 0 < ret then s.modify fun l => l.note (.decoded codec.m_req) else s
  -- The answer of `send` is not looked at.
  let (_, s) ← s.send codec.responseMessage
  let (h, m_inBuf, _) ← s.m_inBuf.remove s.heap s.m_inBuf.getBufferLen
  return { s with heap := h, m_inBuf := m_inBuf }

/-- The body of the `while` loop; `pData` and `size` are what the codec's `m_inBuf` was made from. -/
def round (w : ℕ) (pData : Ptr) (size : ℕ) (codec : HttpCodec) (s : ClientContext UInt8) :
    Option (ℤ × HttpCodec × ClientContext UInt8) := do
  -- The codec of the call keeps its slice, whatever was removed since.
  let m_inBuf ← s.heap.load pData 0 size
  let (ret, codec) := codec.tryDecode w m_inBuf
  let s ← if ret ≠ 0 then s.reply codec ret else some s
  return (ret, codec, if ret < 0 then s.modify fun l => l.closeClient.releaseClientContext else s)

def requestLoop (w : ℕ) (pData : Ptr) (size : ℕ) :
    ℕ → HttpCodec → ClientContext UInt8 → Except Stop (ClientContext UInt8)
  | 0, _, _ => .error .fuel
  | fuel + 1, codec, s => do
    let (ret, codec, s) ← orFault (s.round w pData size codec)
    if 0 < ret then requestLoop w pData size fuel codec s else .ok s

def notifyPackageReceived (w fuel : ℕ) (s : ClientContext UInt8) : Except Stop (ClientContext UInt8) :=
  requestLoop w s.m_inBuf.m_pBegin s.m_inBuf.getBufferLen fuel HttpCodec.new s

def handleRecv (w fuel : ℕ) (s : ClientContext UInt8) (m_recvBuf : Bytes) :
    Except Stop (ClientContext UInt8) := do
  let s ← orFault (s.appendToBuffer m_recvBuf)
  let s ← s.notifyPackageReceived w fuel
  return s.modify Link.postRecvOrClose

/-- What the completion port hands out for this client. -/
inductive Event
  | recv (m_recvBuf : Bytes)
  /-- A receive that failed, or that reports no bytes. -/
  | recvClose
  | send (dwBytesTransferred : ℕ)
  /-- A send that failed, or that reports no bytes. -/
  | sendClose

def IO_BUF_SIZE : ℕ := 8192

/-- The worker thread handles one completion; one that cannot arrive changes nothing. -/
def step (w fuel : ℕ) (s : ClientContext UInt8) : Event → Option (ClientContext UInt8)
  | .recv m_recvBuf =>
    if 0 < s.link.recvs ∧ m_recvBuf ≠ [] ∧ m_recvBuf.length ≤ IO_BUF_SIZE then
      ({ s with link.recvs := s.link.recvs - 1 }.handleRecv w fuel m_recvBuf).toOption
    else some s
  | .recvClose =>
    if 0 < s.link.recvs then some ({ s with link.recvs := s.link.recvs - 1 }.modify Link.handleClose)
    else some s
  | .send dwBytesTransferred => s.sendCompleted dwBytesTransferred
  | .sendClose =>
    match s.sends with
    | [] => some s
    | _ :: rest => some ({ s with sends := rest }.modify Link.handleClose)

end ClientContext
end NetDemo.Client
