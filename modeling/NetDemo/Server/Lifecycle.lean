import NetDemo.Server.Step
import NetDemo.Foundation.Transition

/-! The handles and sockets of an `IocpServer` from its constructor over any sequence of `start` and
`stop` to its destructor. Every handle that the system gives out has a number of its own. -/

namespace NetDemo.Server
open Foundation

structure AcceptIoContext where
  m_acceptSocket : Option ℕ
  /-- `AcceptEx` is in flight. -/
  pending : Bool

structure Lifecycle where
  m_hComPort : Option ℕ
  m_hExitEvent : Option ℕ
  m_hWriteCompletedEvent : Option ℕ
  m_nWorkerCnt : ℕ
  /-- The listen context, if there is one, and its `m_socket`. -/
  m_pListenCtx : Option (Option ℕ)
  m_hWorkerThreads : List ℕ
  m_acceptIoCtxList : List AcceptIoContext
  /-- The sockets of the connected clients. -/
  m_connectedClientList : List ℕ
  /-- How many handles the system gave out. -/
  issued : ℕ
  /-- What was closed, one entry for every call. -/
  closed : List ℕ
  /-- What was waited for after it was closed. -/
  late : List ℕ

/-- Which of the calls in `postAccept` succeed. -/
structure Posting where
  socket : Bool
  acceptEx : Bool

/-- Which of the calls in `start` succeed, with one answer of `_beginthreadex` for every processor, and
the answers that the `i`th `postAccept` gets. -/
structure Starting where
  init : Bool
  socket : Bool
  port : Bool
  associated : Bool
  bound : Bool
  listening : Bool
  acceptExPtr : Bool
  acceptExSockaddrs : Bool
  threads : List Bool
  accepts : ℕ → Posting

/-- What happens to the server: calls, and what its workers do in between. -/
inductive Call
  | start (o : Starting)
  | stop
  /-- The accept of the `k`th context completes; `full` and `associated` are what `handleAccept`
  finds. -/
  | handleAccept (k : ℕ) (full associated : Bool) (posting : Posting)
  /-- `CloseClient` for the `j`th client; `lingered` tells whether it gets to `closesocket`. -/
  | closeClient (j : ℕ) (lingered : Bool)

def MAXIMUM_WAIT_OBJECTS : ℕ := 64

namespace Lifecycle

def sockets (list : List AcceptIoContext) : List ℕ := list.filterMap AcceptIoContext.m_acceptSocket

/-- The system creates something, or it fails to. -/
def acquire (s : Lifecycle) (ok : Bool) : Option ℕ × Lifecycle :=
  if ok then (some s.issued, { s with issued := s.issued + 1 }) else (none, s)

def close (s : Lifecycle) (handle : Option ℕ) : Lifecycle := { s with closed := s.closed ++ handle.toList }

def new (exitEvent writeCompletedEvent : Bool) : Lifecycle :=
  let s : Lifecycle := ⟨none, none, none, 0, none, [], [], [], 0, [], []⟩
  let (m_hExitEvent, s) := s.acquire exitEvent
  let (m_hWriteCompletedEvent, s) := s.acquire writeCompletedEvent
  { s with m_hExitEvent := m_hExitEvent, m_hWriteCompletedEvent := m_hWriteCompletedEvent }

/-- The answer comes first. No socket can be associated when there is none. -/
def createListenClient (s : Lifecycle) (o : Starting) : Bool × Lifecycle :=
  let (m_socket, s) := s.acquire o.socket
  let s := { s with m_pListenCtx := some m_socket }
  let (m_hComPort, s) := s.acquire o.port
  let s := { s with m_hComPort := m_hComPort }
  if m_hComPort = none then (false, s)
  else if m_socket = none ∨ o.associated = false then (false, s)
  else if o.bound = false then (false, s)
  else if o.listening = false then (false, s)
  -- The closed socket stays in `m_pListenCtx`.
  else if o.acceptExPtr = false then (false, s.close m_socket)
  else if o.acceptExSockaddrs = false then (false, s.close m_socket)
  else (true, s)

def createIocpWorker (s : Lifecycle) : List Bool → Bool × Lifecycle
  | [] => (true, s)
  | false :: _ => (false, s)
  | true :: threads => { s with
      issued := s.issued + 1
      m_hWorkerThreads := s.m_hWorkerThreads ++ [s.issued]
      m_nWorkerCnt := s.m_nWorkerCnt + 1 }.createIocpWorker threads

def postAccept (s : Lifecycle) (k : ℕ) (o : Posting) : Bool × Lifecycle :=
  let (m_acceptSocket, s) := s.acquire o.socket
  (o.socket && o.acceptEx, { s with
    m_acceptIoCtxList := s.m_acceptIoCtxList.set k ⟨m_acceptSocket, o.socket && o.acceptEx⟩ })

/-- `m_acceptIoCtxList.emplace_back(new AcceptIoContext(PostType::ACCEPT_EVENT))` -/
def addAcceptIoContext (s : Lifecycle) : Lifecycle :=
  { s with m_acceptIoCtxList := s.m_acceptIoCtxList ++ [⟨none, false⟩] }

def initAcceptIoContext (s : Lifecycle) : List Posting → Bool × Lifecycle
  | [] => (true, s)
  | o :: accepts =>
    let (ok, s) := s.addAcceptIoContext.postAccept s.m_acceptIoCtxList.length o
    if ok then s.initAcceptIoContext accepts else (false, s)

def start (s : Lifecycle) (o : Starting) : Bool × Lifecycle :=
  if o.init = false then (false, s) else
    let (ok, s) := s.createListenClient o
    if ok = false then (false, s) else
      let (ok, s) := s.createIocpWorker o.threads
      if ok = false then (false, s) else s.initAcceptIoContext ((List.range POST_ACCEPT_CNT).map o.accepts)

/-- `WaitForMultipleObjects` fails for more handles than it takes. -/
def exitIocpWorker (s : Lifecycle) : Lifecycle :=
  -- Neither the list nor the counter is reset.
  if s.m_nWorkerCnt ≤ MAXIMUM_WAIT_OBJECTS then
    { s with late := s.late ++ (s.m_hWorkerThreads.take s.m_nWorkerCnt).filter (· ∈ s.closed) }
  else s

def stop (s : Lifecycle) : Lifecycle :=
  let s := s.exitIocpWorker
  let s := { s with closed := s.closed ++ s.m_hWorkerThreads }
  let s := { s with
    closed := s.closed ++ sockets s.m_acceptIoCtxList
    m_acceptIoCtxList := [] }
  let s := { s.close s.m_hExitEvent with m_hExitEvent := none }
  let s := { s.close s.m_hComPort with m_hComPort := none }
  let s := { s.close s.m_pListenCtx.join with m_pListenCtx := none }
  { s with m_connectedClientList := [] }

def handleAccept (s : Lifecycle) (k socket : ℕ) (full associated : Bool) (o : Posting) : Lifecycle :=
  if full then ((s.close (some socket)).postAccept k o).2
  -- The early return posts no accept, and the socket stays with the context.
  else if associated = false then
    { s with m_acceptIoCtxList := s.m_acceptIoCtxList.set k ⟨some socket, false⟩ }
  else ({ s with m_connectedClientList := s.m_connectedClientList ++ [socket] }.postAccept k o).2

def step (s : Lifecycle) : Call → Option Lifecycle
  | .start o => some (s.start o).2
  | .stop => some s.stop
  | .handleAccept k full associated o => match s.m_acceptIoCtxList[k]? with
    | some ⟨some socket, true⟩ => some (s.handleAccept k socket full associated o)
    | _ => none
  | .closeClient j lingered => s.m_connectedClientList[j]?.map fun socket => { s with
      m_connectedClientList := s.m_connectedClientList.eraseIdx j
      closed := s.closed ++ if lingered then [socket] else [] }

/-! ### What is claimed, and what it takes -/

/-- All is over with the server: every handle was closed once, none was waited for later, and no `stop`
after a `stop` did anything. -/
structure Managed (s₀ : Lifecycle) (calls : List Call) (s : Lifecycle) : Prop where
  released : ∀ handle < s.issued, s.closed.count handle = 1
  late : s.late = []
  idle : ∀ pre post s₁, calls ++ [.stop] = pre ++ .stop :: .stop :: post →
    run step s₀ (pre ++ [.stop]) = some s₁ → s₁.stop = s₁

/-- `start` gets to the point where it closes the listen socket and leaves it in the context. -/
def Starting.closesListen (o : Starting) : Prop :=
  o.socket ∧ o.port ∧ o.associated ∧ o.bound ∧ o.listening ∧ ¬ (o.acceptExPtr ∧ o.acceptExSockaddrs)

instance (o : Starting) : Decidable (Starting.closesListen o) := inferInstanceAs (Decidable (_ ∧ _))

/-- Nothing is there yet when `start` creates it, the listen socket stays open, `stop` finds no worker
and no client, and `CloseClient` gets to its end. -/
def Careful (s : Lifecycle) : Call → Prop
  | .start o => o.init → s.m_hComPort = none ∧ s.m_pListenCtx.join = none ∧ ¬ Starting.closesListen o
  | .stop => s.m_hWorkerThreads = [] ∧ s.m_connectedClientList = []
  | .handleAccept .. => True
  | .closeClient _ lingered => lingered

instance (s : Lifecycle) : DecidablePred s.Careful
  | .start _ => inferInstanceAs (Decidable (_ → _))
  | .stop => inferInstanceAs (Decidable (_ ∧ _))
  | .handleAccept .. => .isTrue trivial
  | .closeClient _ lingered => inferInstanceAs (Decidable (lingered = true))

end Lifecycle
end NetDemo.Server
