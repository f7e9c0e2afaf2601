import NetDemo.Http.Codec

/-! The part of a `ClientContext` that is not memory, with what the network does to it. -/

namespace NetDemo.Client
open Foundation

/-- What can be observed of a connection. -/
inductive Note (α : Type)
  /-- A call of `send` with these bytes. -/
  | send (pData : List α)
  /-- The bytes were put into `m_outBufQueue`. -/
  | queued (pData : List α)
  /-- `handleSend` copied these bytes from the front of `m_outBufQueue`. -/
  | copied (bytes : List α)
  /-- `WSASend` accepted these bytes. -/
  | posted (bytes : List α)
  /-- A completion reported these bytes as transferred. -/
  | reported (bytes : List α)
  | decoded (req : Http.HttpRequest)
  | closed
deriving DecidableEq

inductive PostResult
  | successful | failed | invalidSocket
deriving DecidableEq

structure Link (α : Type) where
  /-- Whether `m_socket` is not `INVALID_SOCKET`. -/
  m_socket : Bool
  m_nPendingIoCnt : ℕ
  /-- Whether the context is on `m_connectedClientList`. -/
  connected : Bool
  /-- Whether it is on `m_freeClientList`. -/
  free : Bool
  /-- Which of the coming calls of `WSASend` and `WSARecv` succeed. -/
  net : ℕ → Bool
  /-- The number of `WSARecv` calls in flight. -/
  recvs : ℕ
  log : List (Note α)

namespace Link
variable {α : Type}

/-- A `ClientContext` that was just constructed with an accepted socket. -/
def new (net : ℕ → Bool) : Link α := ⟨true, 0, false, false, net, 0, []⟩

def note (l : Link α) (n : Note α) : Link α := { l with log := l.log ++ [n] }

def enterIoLoop (l : Link α) : Link α :=
  { l with m_nPendingIoCnt := (l.m_nPendingIoCnt + 1) % 2 ^ 32 }

/-- The `ULONG` wraps below zero, and the returned one is converted to `int`. -/
def exitIoLoop (l : Link α) : ℤ × Link α :=
  let n := if l.m_nPendingIoCnt = 0 then 2 ^ 32 - 1 else l.m_nPendingIoCnt - 1
  (int32 n, { l with m_nPendingIoCnt := n })

def addClient (l : Link α) : Link α := { l with connected := true }

def removeClient (l : Link α) : Link α :=
  if l.connected then { l with connected := false, free := true } else l

def releaseClientContext (l : Link α) : Link α :=
  let (n, l) := l.exitIoLoop
  if n ≤ 0 then l.removeClient else l

theorem releaseClientContext_eq (l : Link α) :
    l.releaseClientContext = { l with
      m_nPendingIoCnt := l.releaseClientContext.m_nPendingIoCnt
      connected := l.releaseClientContext.connected
      free := l.releaseClientContext.free } := by
  simp only [releaseClientContext, exitIoLoop, removeClient]
  split_ifs <;> rfl

def closeClient (l : Link α) : Link α :=
  if l.m_socket then { l with m_socket := false }.note .closed else l

/-- The answer of the next call of `WSASend` or `WSARecv`. -/
def answer (l : Link α) : Bool × Link α := (l.net 0, { l with net := fun k => l.net (k + 1) })

def postRecv (l : Link α) : PostResult × Link α :=
  if l.m_socket then
    let (ok, l) := l.answer
    if ok then (.successful, { l with recvs := l.recvs + 1 }) else (.failed, l)
  else (.invalidSocket, l)

theorem postRecv_cases (l : Link α) :
    (l.m_socket = true ∧ l.net 0 = true ∧
      l.postRecv = (.successful, { l.answer.2 with recvs := l.recvs + 1 })) ∨
    (l.m_socket = true ∧ l.net 0 = false ∧ l.postRecv = (.failed, l.answer.2)) ∨
    (l.m_socket = false ∧ l.postRecv = (.invalidSocket, l)) := by
  by_cases hs : l.m_socket
  · by_cases hn : l.net 0
    · exact .inl ⟨hs, hn, by simp [postRecv, hs, answer, hn]⟩
    · rw [Bool.not_eq_true] at hn
      exact .inr (.inl ⟨hs, hn, by simp [postRecv, hs, answer, hn]⟩)
  · rw [Bool.not_eq_true] at hs
    exact .inr (.inr ⟨hs, by simp [postRecv, hs]⟩)

theorem postRecv_socket (l : Link α) : l.postRecv.2.m_socket = l.m_socket := by
  rcases l.postRecv_cases with ⟨-, -, h⟩ | ⟨-, -, h⟩ | ⟨-, h⟩ <;> rw [h] <;> rfl

/-- What `handleAccept` and `handleRecv` do at their end. -/
def postRecvOrClose (l : Link α) : Link α :=
  let (result, l) := l.postRecv
  if result = .failed ∨ result = .invalidSocket then l.closeClient.releaseClientContext else l

def handleClose (l : Link α) : Link α := l.closeClient.releaseClientContext

theorem handleClose_socket (l : Link α) : l.handleClose.m_socket = false := by
  rw [handleClose, releaseClientContext_eq]
  unfold closeClient
  split_ifs with h
  · rfl
  · exact Bool.not_eq_true _ ▸ h

/-- `handleAccept`, once `allocateClientContext` answered. -/
def handleAccept (l : Link α) : Link α := l.enterIoLoop.addClient.postRecvOrClose

end Link
end NetDemo.Client
