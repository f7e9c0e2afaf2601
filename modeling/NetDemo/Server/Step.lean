import NetDemo.Server.Handler
import NetDemo.Client.Context
import Mathlib.Logic.Function.Basic

/-! `IocpServer` with any number of worker threads. -/

namespace NetDemo.Server
open Foundation Memory Http Client

/-- Where a worker stands in `handleAccept` before it has a context, or without one. -/
inductive Stage
  | testLimit | countClient | allocate | postAccept
deriving DecidableEq

def POST_ACCEPT_CNT : ℕ := 10

structure IocpServer where
  m_nConnClientCnt : ℕ
  m_nMaxConnClientCnt : ℕ
  m_connectedClientList : List ℕ
  m_freeClientList : List ℕ
  client : ℕ → ClientContext
  /-- How many contexts were made by `new ClientContext`; they are numbered. -/
  constructed : ℕ
  /-- How many sockets were accepted; they are numbered, too. -/
  sockets : ℕ
  /-- The number of `AcceptEx` calls in flight. -/
  accepts : ℕ
  acceptors : List (Stage × ℕ)
  /-- The sockets that `m_nConnClientCnt` was incremented for. -/
  counted : List ℕ
  /-- The sockets that it was decremented for. -/
  uncounted : List ℕ
  /-- The arguments of `notifyDisconnected`. -/
  disconnected : List ℕ
  /-- The arguments of `closesocket`. -/
  closed : List ℕ

/-- What a worker does next: it takes a completion from the port, or it goes on with a handler. -/
inductive Act
  | accept
  /-- The next instruction of the `i`th worker in `handleAccept`; `ok` is what `AcceptEx` answers. -/
  | acceptor (i : ℕ) (ok : Bool)
  /-- A receive of client `c`; without bytes when it failed or the peer closed. -/
  | recv (c : ℕ) (m_recvBuf : Option Bytes)
  /-- The `j`th send of client `c`; without a number when it failed or no bytes were sent. -/
  | send (c j : ℕ) (dwBytesTransferred : Option ℕ)
  /-- The next instruction of the `i`th handler of client `c`; `ok` is what the system answers. -/
  | exec (c i : ℕ) (ok : Bool)

/-- The `i`th handler goes on with `code`, or it is through. -/
def resume (running : List Code) (i : ℕ) (code : Code) : List Code :=
  if code = [] then running.eraseIdx i else running.set i code

namespace IocpServer

/-- The server once `initAcceptIoContext` is done. -/
def new (m_nMaxConnClientCnt : ℕ) : IocpServer :=
  ⟨0, m_nMaxConnClientCnt, [], [], fun _ => .new, 0, 0, POST_ACCEPT_CNT, [], [], [], [], []⟩

def setClient (s : IocpServer) (c : ℕ) (cl : ClientContext) : IocpServer :=
  { s with client := Function.update s.client c cl }

/-- A context from the free list keeps what its `Buffer`s hold. -/
def allocateClientContext (s : IocpServer) (socket : ℕ) : ℕ × IocpServer :=
  match s.m_freeClientList with
  | [] => (s.constructed, { s with constructed := s.constructed + 1 }.setClient s.constructed
      { ClientContext.new with m_socket := some socket })
  | c :: rest => (c, { s with m_freeClientList := rest }.setClient c
      { s.client c with m_socket := some socket })

def addClient (s : IocpServer) (c : ℕ) : IocpServer :=
  { s with m_connectedClientList := s.m_connectedClientList ++ [c] }

def removeClient (s : IocpServer) (c : ℕ) : IocpServer :=
  if c ∈ s.m_connectedClientList then
    { s with
      m_connectedClientList := s.m_connectedClientList.filter (· ≠ c)
      m_freeClientList := s.m_freeClientList ++ [c] }
  else s

/-- `CloseClient` returns early when `setLinger` or `CancelIoEx` fails. -/
def closesocket (s : IocpServer) (socket : ℕ) (ok : Bool) : IocpServer :=
  let s := { s with disconnected := s.disconnected ++ [socket] }
  if ok then
    { s with
      closed := s.closed ++ [socket]
      uncounted := s.uncounted ++ [socket]
      m_nConnClientCnt :=
        if s.m_nConnClientCnt = 0 then 2 ^ 32 - 1 else s.m_nConnClientCnt - 1 }
  else s

def postAccept (s : IocpServer) (ok : Bool) : IocpServer :=
  if ok then { s with accepts := s.accepts + 1 } else s

/-- What an instruction of a handler does outside of its context. -/
def outside (s : IocpServer) (c : ℕ) (ok : Bool) : Instr → IocpServer
  | .postAccept => s.postAccept ok
  | .addClient => s.addClient c
  | .removeClient => s.removeClient c
  | .closesocket socket => s.closesocket socket ok
  | _ => s

def acceptStep (s : IocpServer) (i : ℕ) (ok : Bool) : Stage × ℕ → IocpServer
  | (.testLimit, socket) =>
    if s.m_nConnClientCnt ≥ s.m_nMaxConnClientCnt then
      { s with acceptors := s.acceptors.set i (.postAccept, socket), closed := s.closed ++ [socket] }
    else { s with acceptors := s.acceptors.set i (.countClient, socket) }
  | (.countClient, socket) =>
    { s with
      m_nConnClientCnt := (s.m_nConnClientCnt + 1) % 2 ^ 32
      counted := s.counted ++ [socket]
      acceptors := s.acceptors.set i (.allocate, socket) }
  | (.allocate, socket) =>
    let (c, s) := { s with acceptors := s.acceptors.eraseIdx i }.allocateClientContext socket
    s.setClient c { s.client c with running := (s.client c).running ++ [[.associate]] }
  | (.postAccept, _) => { s with acceptors := s.acceptors.eraseIdx i }.postAccept ok

def recvCode : Option Bytes → Code
  | none => ClientContext.closeAndRelease .recv
  | some m_recvBuf => [.receive m_recvBuf, .postRecv]

def sendCode : Option ℕ → Code
  | none => ClientContext.closeAndRelease .send
  | some dwBytesTransferred => [.handleSend dwBytesTransferred]

/-- A step that is not possible is `none`. -/
def step (app : App) (s : IocpServer) : Act → Option IocpServer
  | .accept =>
    if 0 < s.accepts then
      some { s with
        accepts := s.accepts - 1
        sockets := s.sockets + 1
        acceptors := s.acceptors ++ [(.testLimit, s.sockets)] }
    else none
  | .acceptor i ok => (s.acceptors[i]?).map (s.acceptStep i ok)
  | .recv c m_recvBuf =>
    let cl := s.client c
    if 0 < cl.recvs ∧ ∀ d ∈ m_recvBuf, d ≠ [] ∧ d.length ≤ ClientContext.IO_BUF_SIZE then
      some (s.setClient c { cl with
        recvs := cl.recvs - 1, running := cl.running ++ [recvCode m_recvBuf] })
    else none
  | .send c j dwBytesTransferred =>
    let cl := s.client c
    match cl.sends[j]? with
    | none => none
    | some len =>
      if ∀ n ∈ dwBytesTransferred, 0 < n ∧ n ≤ len then
        some (s.setClient c { cl with
          sends := cl.sends.eraseIdx j, running := cl.running ++ [sendCode dwBytesTransferred] })
      else none
  | .exec c i ok =>
    let cl := s.client c
    match cl.running[i]? with
    | some (instr :: code) =>
      let (cl, more) := cl.exec app ok instr
      some ((s.outside c ok instr).setClient c { cl with running := resume cl.running i (more ++ code) })
    | _ => none

end IocpServer
end NetDemo.Server
