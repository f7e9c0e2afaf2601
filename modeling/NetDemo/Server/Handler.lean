import NetDemo.Client.Link
import NetDemo.Memory.Cells

/-! The handlers of `IocpServer` as sequences of atomic instructions on one `ClientContext`. Of the
output only the lengths are kept. What one thread does to the output inside a critical section of
`m_csLock` is one instruction, `exitIoLoop` in `handleSend` too, as no `send` comes in between; all
other steps of the threads interleave, whether a lock keeps some of them apart or not. -/

namespace NetDemo.Server
open Foundation Memory Http Client

/-- Whose reference a release gives back: the one of the receives, the one of the sends, or one that
the handler does not have. -/
inductive Ref
  | recv | send | stray
deriving DecidableEq

inductive Instr
  | associate
  | enterIoLoop
  | postAccept
  | addClient
  | postRecv
  /-- `appendToBuffer`, and the arguments of the first call in `notifyPackageReceived`. -/
  | receive (m_recvBuf : Bytes)
  /-- A round of the loop in `HttpServer::notifyPackageReceived`; `size` and `codec` are its slice. -/
  | decode (w size : ℕ) (codec : HttpCodec)
  /-- `send` up to `postSend`. -/
  | send (len : ℕ)
  /-- `m_inBuf.remove(m_inBuf.getBufferLen())` -/
  | removeAll
  | postSend
  /-- `handleSend` up to `postSend`. -/
  | handleSend (dwBytesTransferred : ℕ)
  | closeClient
  /-- The rest of `CloseClient` once it took the socket. -/
  | closesocket (socket : ℕ)
  | exitIoLoop (of : Ref)
  | removeClient
deriving DecidableEq

abbrev Code := List Instr

/-- Which `notifyPackageReceived` the server has; `w` is the width of `size_t`. -/
inductive App
  | echo
  | http (w : ℕ)

/-- A context, with the calls of `WSARecv` and `WSASend` in flight and the handlers that are at work
on it. -/
structure ClientContext where
  m_socket : Option ℕ
  m_nPendingIoCnt : ℕ
  m_inBuf : Cells UInt8
  /-- The length of `m_outBuf`. -/
  outLen : ℕ
  /-- The lengths of the `Buffer`s in `m_outBufQueue`. -/
  m_outBufQueue : List ℕ
  recvs : ℕ
  sends : List ℕ
  running : List Code

namespace ClientContext

def new : ClientContext := ⟨none, 0, Cells.empty, 0, [], 0, [], []⟩

def countDown (cl : ClientContext) : ℕ :=
  if cl.m_nPendingIoCnt = 0 then 2 ^ 32 - 1 else cl.m_nPendingIoCnt - 1

def enterIoLoop (cl : ClientContext) : ClientContext :=
  { cl with m_nPendingIoCnt := (cl.m_nPendingIoCnt + 1) % 2 ^ 32 }

/-- The first half of `releaseClientContext`, and whether the second half follows. -/
def exitIoLoop (cl : ClientContext) : ClientContext × Code :=
  ({ cl with m_nPendingIoCnt := cl.countDown },
    if int32 cl.countDown ≤ 0 then [.removeClient] else [])

def closeAndRelease (of : Ref) : Code := [.closeClient, .exitIoLoop of]

def postRecv (cl : ClientContext) (ok : Bool) : PostResult × ClientContext :=
  match cl.m_socket with
  | none => (.invalidSocket, cl)
  | some _ => if ok then (.successful, { cl with recvs := cl.recvs + 1 }) else (.failed, cl)

def postSend (cl : ClientContext) (ok : Bool) : PostResult × ClientContext :=
  match cl.m_socket with
  | none => (.invalidSocket, cl)
  | some _ =>
    if ok then (.successful, { cl with sends := cl.sends ++ [cl.outLen] }) else (.failed, cl)

/-- What the loop does after an answer of `tryDecode`. -/
def reply (w size : ℕ) (ret : ℤ) (codec : HttpCodec) : Code :=
  (if ret ≠ 0 then [.send codec.responseMessage.length, .removeAll] else []) ++
    (if ret < 0 then closeAndRelease .stray else []) ++
    if 0 < ret then [.decode w size codec] else []

/-- One instruction: the context after it, and what is to be done before the handler goes on. -/
def exec (app : App) (cl : ClientContext) (ok : Bool) : Instr → ClientContext × Code
  | .associate => (cl, if ok then [.enterIoLoop] else [])
  | .enterIoLoop => (cl.enterIoLoop, [.postAccept, .addClient, .postRecv])
  | .postAccept => (cl, [])
  | .addClient => (cl, [])
  | .postRecv =>
    let (result, cl) := cl.postRecv ok
    (cl, if result = .failed ∨ result = .invalidSocket then closeAndRelease .recv else [])
  | .receive m_recvBuf =>
    let m_inBuf := cl.m_inBuf.write m_recvBuf
    ({ cl with m_inBuf := m_inBuf }, match app with
      | .echo => [.send m_inBuf.len, .removeAll]
      | .http w => [.decode w m_inBuf.len .new])
  | .decode w size codec =>
    let (ret, codec) := codec.tryDecode w (cl.m_inBuf.mem.take size)
    (cl, reply w size ret codec)
  | .send len =>
    if 0 = cl.outLen then ({ cl.enterIoLoop with outLen := len }, [.postSend])
    else ({ cl with m_outBufQueue := cl.m_outBufQueue ++ [len] }, [])
  | .removeAll => ({ cl with m_inBuf := cl.m_inBuf.remove cl.m_inBuf.len }, [])
  | .postSend =>
    let (result, cl) := cl.postSend ok
    -- When the socket is closed nothing is undone, and the reference stays.
    (cl, if result = .failed then closeAndRelease .send else [])
  | .handleSend dwBytesTransferred =>
    let cl := { cl with outLen := cl.outLen - dwBytesTransferred }
    if 0 = cl.outLen then
      match cl.m_outBufQueue with
      | front :: rest =>
        -- An empty message is taken up without a send, and keeps its reference.
        ({ cl with outLen := front, m_outBufQueue := rest }, if 0 ≠ front then [.postSend] else [])
      | [] => cl.exitIoLoop
    else (cl, [.postSend])
  | .closeClient =>
    match cl.m_socket with
    | some s => ({ cl with m_socket := none }, [.closesocket s])
    | none => (cl, [])
  | .closesocket _ => (cl, [])
  | .exitIoLoop _ => cl.exitIoLoop
  | .removeClient => (cl, [])

end ClientContext
end NetDemo.Server
