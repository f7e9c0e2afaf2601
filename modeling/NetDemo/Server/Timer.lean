import NetDemo.Server.Sockets
import NetDemo.Foundation.Parallel

/-! `IocpServer` with the thread of `HbTimer::checkHeartbeatWorker` beside its worker threads, and the
locks that they share. -/

namespace NetDemo.Server
open Foundation Memory Http Client

/-- Where `checkHeartbeatWorker` stands in its loop. -/
inductive HbTimer
  | waiting
  /-- It has read `curTime`, and goes on to take `m_csClientList`. -/
  | woken (curTime : ℕ)
  /-- It holds `m_csClientList`, and `rest` is still to be looked at. -/
  | scanning (curTime : ℕ) (rest : List ℕ)

/-- A completion without bytes that the timer posted for a client, and the connection that the client
was serving then. -/
structure PostedClose where
  client : ℕ
  connection : ℕ

/-- Where a worker stands in `handleClose` for a posted completion. -/
inductive Closing
  | closeClient
  | closesocket (socket : ℕ)
  | releaseClientContext
deriving DecidableEq

/-- One handler of a client: the connection that its completion belongs to, and, as long as it holds
`m_csLock`, how many instructions it has left when it lets go. -/
structure Worker where
  connection : ℕ
  guard : Option ℕ
deriving DecidableEq

/-- The connections that a context served until now, and where the operations in flight and the
handlers came from. -/
structure Origin where
  connection : ℕ
  recvs : List ℕ
  sends : List ℕ
  workers : List Worker

structure HbServer where
  server : IocpServer
  /-- Milliseconds. -/
  clock : ℕ
  m_nLastHeartbeatTime : ℕ → ℕ
  timer : HbTimer
  /-- The posted completions that no worker took yet. -/
  m_hComPort : List PostedClose
  closers : List (PostedClose × Closing)
  origin : ℕ → Origin
  /-- For every socket that `CloseClient` took, the connections of the completion and of the socket. -/
  taken : List (ℕ × ℕ)

inductive HbAct
  /-- A step of a worker; `j` tells which of several receives in flight it is about. -/
  | work (act : Act) (j : ℕ)
  | tick (ms : ℕ)
  | wake
  | lock
  /-- The body of the inner loop, or the end of the outer one; `ok` is the answer of
  `PostQueuedCompletionStatus`. -/
  | scan (ok : Bool)
  /-- A worker takes the `k`th posted completion. -/
  | close (k : ℕ)
  | closer (i : ℕ) (ok : Bool)

def works (acts : List Act) : List HbAct := acts.map (HbAct.work · 0)

inductive Lock
  | m_csClientList
  | m_csLock (c : ℕ)
deriving DecidableEq

inductive Thread
  | timer
  | acceptor (i : ℕ)
  | handler (c i : ℕ)
  | closer (i : ℕ)
deriving DecidableEq

def Instr.lock (c : ℕ) : Instr → Option Lock
  | .addClient | .removeClient => some .m_csClientList
  | .postRecv | .send _ | .postSend | .handleSend _ | .closeClient => some (.m_csLock c)
  | _ => none

def Stage.lock : Stage → Option Lock
  | .allocate => some .m_csClientList
  | _ => none

def Closing.lock (c : ℕ) : Closing → Option Lock
  | .closeClient => some (.m_csLock c)
  | _ => none

/-- `send` and `handleSend` hold `m_csLock` to their ends. `rest` is what follows `instr`, and `more`
what is to be done first. -/
def Worker.next (instr : Instr) (rest more : Code) (w : Worker) : Worker :=
  let guard := match instr with
    | .send _ => some rest.length
    | .handleSend _ => some 0
    | _ => w.guard
  { w with guard := guard.filter (· < (more ++ rest).length) }

def resumeWorker (workers : List Worker) (i : ℕ) (instr : Instr) (rest more : Code) : List Worker :=
  if more ++ rest = [] then workers.eraseIdx i else workers.modify i (Worker.next instr rest more)

theorem forall₂_resume {R : Code → Worker → Prop} {running : List Code} {workers : List Worker}
    (h : List.Forall₂ R running workers) {i : ℕ} {instr : Instr} {rest : Code} (more : Code)
    (hnext : ∀ w, workers[i]? = some w → more ++ rest ≠ [] → R (more ++ rest) (w.next instr rest more)) :
    List.Forall₂ R (resume running i (more ++ rest)) (resumeWorker workers i instr rest more) := by
  unfold resume resumeWorker
  split_ifs with hnil
  · exact forall₂_eraseIdx h i
  · exact forall₂_set_modify h fun w hw => hnext w hw hnil

def HEARTBEAT_TIMEOUT : ℕ := 10 * 1000

/-- The `DWORD`s of `curTime - m_nLastHeartbeatTime > timeout`. -/
def timedOut (curTime m_nLastHeartbeatTime : ℕ) : Bool :=
  HEARTBEAT_TIMEOUT < (curTime + 2 ^ 32 - m_nLastHeartbeatTime) % 2 ^ 32

namespace HbTimer

/-- The clients that a scan did not look at yet. -/
def rest : HbTimer → List ℕ
  | scanning _ rest => rest
  | _ => []

end HbTimer

namespace HbServer

def new (m_nMaxConnClientCnt : ℕ) : HbServer :=
  ⟨.new m_nMaxConnClientCnt, 0, fun _ => 0, .waiting, [], [], fun _ => ⟨0, [], [], []⟩, []⟩

def setOrigin (s : HbServer) (c : ℕ) (o : Origin) : HbServer :=
  { s with origin := Function.update s.origin c o }

/-! ### Locks -/

/-- The lock that the next step of a thread takes. -/
def wants (s : HbServer) : Thread → Option Lock
  | .timer => match s.timer with
    | .waiting => none
    | .woken _ => some .m_csClientList
    | .scanning _ rest => rest.head?.map .m_csLock
  | .acceptor i => s.server.acceptors[i]?.bind fun a => a.1.lock
  | .handler c i => (s.server.next? c i).bind (Instr.lock c)
  | .closer i => s.closers[i]?.bind fun p => p.2.lock p.1.client

def holders (s : HbServer) : Lock → List Thread
  | .m_csClientList => match s.timer with
    | .scanning .. => [.timer]
    | _ => []
  | .m_csLock c => (List.range (s.origin c).workers.length).filterMap fun i =>
      if ((s.origin c).workers[i]?.bind Worker.guard).isSome then some (.handler c i) else none

/-- A `CRITICAL_SECTION` may be entered again by its owner. -/
def blocked (s : HbServer) (t : Thread) : Bool :=
  (s.wants t).any fun l => t ∉ s.holders l ∧ s.holders l ≠ []

theorem rest_of_not_blocked {s : HbServer} {t : Thread} (ht : t ≠ .timer)
    (hwants : s.wants t = some .m_csClientList) (hfree : ¬ s.blocked t) : s.timer.rest = [] := by
  cases htimer : s.timer with
  | waiting => rfl
  | woken => rfl
  | scanning curTime rest =>
    refine absurd ?_ hfree
    simp [blocked, hwants, holders, htimer, ht]

/-! ### Steps -/

/-- What a step of a worker means for the connections, where `server` is what it leads to. A worker
that takes a completion from the port waits for no lock, and a context just constructed has no handler. -/
def work (app : App) (s : HbServer) (server : IocpServer) (j : ℕ) : Act → Option HbServer
  | .accept => some { s with server := server }
  | .acceptor i _ =>
    if s.blocked (.acceptor i) then none else
      match s.server.acceptors[i]? with
      | some (.allocate, _) =>
        let c := s.server.allocated
        let o := s.origin c
        some ({ s with
          server := server
          -- `reset` stamps the context; no receive does.
          m_nLastHeartbeatTime := Function.update s.m_nLastHeartbeatTime c (s.clock % 2 ^ 32) }.setOrigin c
            { o with
              connection := o.connection + 1
              workers := (if s.server.m_freeClientList = [] then [] else o.workers) ++
                [Worker.mk (o.connection + 1) none] })
      | _ => some { s with server := server }
  | .recv c _ =>
    let o := s.origin c
    o.recvs[j]?.map fun connection => { s with server := server }.setOrigin c
      { o with recvs := o.recvs.eraseIdx j, workers := o.workers ++ [Worker.mk connection none] }
  | .send c j _ =>
    let o := s.origin c
    o.sends[j]?.map fun connection => { s with server := server }.setOrigin c
      { o with sends := o.sends.eraseIdx j, workers := o.workers ++ [Worker.mk connection none] }
  | .exec c i ok =>
    let cl := s.server.client c
    let cl' := server.client c
    let o := s.origin c
    if s.blocked (.handler c i) then none else
      match cl.running[i]?, o.workers[i]? with
      | some (instr :: rest), some w => some ({ s with
          server := server
          taken := s.taken ++
            if instr = Instr.closeClient ∧ cl.m_socket.isSome then [(w.connection, o.connection)] else []
        }.setOrigin c { o with
          recvs := o.recvs ++ List.replicate (cl'.recvs - cl.recvs) o.connection
          sends := o.sends ++ List.replicate (cl'.sends.length - cl.sends.length) o.connection
          workers := resumeWorker o.workers i instr rest (cl.exec app ok instr).2 })
      | _, _ => none

/-- One step of the timer while it holds `m_csClientList`. -/
def scan (s : HbServer) (ok : Bool) : HbServer :=
  match s.timer with
  | .scanning _ [] => { s with timer := .waiting }
  | .scanning curTime (c :: rest) =>
    if timedOut curTime (s.m_nLastHeartbeatTime c) ∧ ok then
      { s with
        timer := .scanning curTime rest
        m_hComPort := s.m_hComPort ++ [⟨c, (s.origin c).connection⟩] }
    -- Both branches leave the loop, the failed post and the first client that is young enough.
    else { s with timer := .scanning curTime [] }
  | _ => s

/-- One step of a worker in `handleClose`. When `releaseClientContext` finds no reference any more, its
second half is left to a handler of the client. -/
def closing (s : HbServer) (i : ℕ) (ok : Bool) (post : PostedClose) : Closing → HbServer
  | .closeClient =>
    let cl := s.server.client post.client
    match cl.m_socket with
    | none => { s with closers := s.closers.set i (post, .releaseClientContext) }
    | some socket => { s with
        server := s.server.setClient post.client { cl with m_socket := none }
        closers := s.closers.set i (post, .closesocket socket)
        taken := s.taken ++ [(post.connection, (s.origin post.client).connection)] }
  | .closesocket socket => { s with
      server := s.server.closesocket socket ok
      closers := s.closers.set i (post, .releaseClientContext) }
  | .releaseClientContext =>
    let cl := s.server.client post.client
    -- A reference is given back although nobody took one for this completion.
    let (cl', more) := cl.exitIoLoop
    let o := s.origin post.client
    { s with
      server := s.server.setClient post.client { cl' with
        running := cl.running ++ if more = [] then [] else [more] }
      closers := s.closers.eraseIdx i }.setOrigin post.client
        { o with workers := o.workers ++ if more = [] then [] else [Worker.mk post.connection none] }

def step (app : App) (s : HbServer) : HbAct → Option HbServer
  | .work act j => (s.server.step app act).bind fun server => s.work app server j act
  | .tick ms => some { s with clock := s.clock + ms }
  | .wake => match s.timer with
    -- `curTime` is read before the lock is taken.
    | .waiting => some { s with timer := .woken (s.clock % 2 ^ 32) }
    | _ => none
  | .lock => match s.timer with
    | .woken curTime => some { s with timer := .scanning curTime s.server.m_connectedClientList }
    | _ => none
  | .scan ok => match s.timer with
    | .scanning .. => if s.blocked .timer then none else some (s.scan ok)
    | _ => none
  | .close k => s.m_hComPort[k]?.map fun post =>
      { s with m_hComPort := s.m_hComPort.eraseIdx k, closers := s.closers ++ [(post, .closeClient)] }
  | .closer i ok => s.closers[i]?.bind fun p =>
      if s.blocked (.closer i) then none else some (s.closing i ok p.1 p.2)

/-- What a step of a worker does, case by case. -/
inductive Worked (app : App) (s : HbServer) : Act → HbServer → Prop
  /-- No client and neither list has to do with it. -/
  | aside (act : Act) (server : IocpServer) :
    server.client = s.server.client → server.m_connectedClientList = s.server.m_connectedClientList →
    server.m_freeClientList = s.server.m_freeClientList → Worked app s act { s with server := server }
  | allocate (i socket : ℕ) (ok : Bool) :
    Worked app s (.acceptor i ok) ({ s with
      server := s.server.acceptStep i ok (.allocate, socket)
      m_nLastHeartbeatTime := Function.update s.m_nLastHeartbeatTime s.server.allocated (s.clock % 2 ^ 32)
    }.setOrigin s.server.allocated { s.origin s.server.allocated with
      connection := (s.origin s.server.allocated).connection + 1
      workers := (if s.server.m_freeClientList = [] then [] else (s.origin s.server.allocated).workers) ++
        [Worker.mk ((s.origin s.server.allocated).connection + 1) none] })
  | recv (c : ℕ) (m_recvBuf : Option Bytes) (j connection : ℕ) :
    (s.origin c).recvs[j]? = some connection →
    Worked app s (.recv c m_recvBuf) ({ s with server := s.server.setClient c { s.server.client c with
        recvs := (s.server.client c).recvs - 1
        running := (s.server.client c).running ++ [IocpServer.recvCode m_recvBuf] } }.setOrigin c
      { s.origin c with
        recvs := (s.origin c).recvs.eraseIdx j
        workers := (s.origin c).workers ++ [Worker.mk connection none] })
  | send (c k : ℕ) (n : Option ℕ) (connection : ℕ) :
    (s.origin c).sends[k]? = some connection →
    Worked app s (.send c k n) ({ s with server := s.server.setClient c { s.server.client c with
        sends := (s.server.client c).sends.eraseIdx k
        running := (s.server.client c).running ++ [IocpServer.sendCode n] } }.setOrigin c
      { s.origin c with
        sends := (s.origin c).sends.eraseIdx k
        workers := (s.origin c).workers ++ [Worker.mk connection none] })
  | exec (c i : ℕ) (ok : Bool) (instr : Instr) (rest : Code) (w : Worker) :
    (s.server.client c).running[i]? = some (instr :: rest) → (s.origin c).workers[i]? = some w →
    ¬ s.blocked (.handler c i) →
    Worked app s (.exec c i ok) { s with
      server := (s.server.outside c ok instr).setClient c { ((s.server.client c).exec app ok instr).1 with
        running := resume (s.server.client c).running i (((s.server.client c).exec app ok instr).2 ++ rest) }
      origin := Function.update s.origin c { s.origin c with
        recvs := (s.origin c).recvs ++ List.replicate
          (((s.server.client c).exec app ok instr).1.recvs - (s.server.client c).recvs) (s.origin c).connection
        sends := (s.origin c).sends ++ List.replicate
          (((s.server.client c).exec app ok instr).1.sends.length - (s.server.client c).sends.length)
          (s.origin c).connection
        workers := resumeWorker (s.origin c).workers i instr rest ((s.server.client c).exec app ok instr).2 }
      taken := s.taken ++ if instr = Instr.closeClient ∧ (s.server.client c).m_socket.isSome then
        [(w.connection, (s.origin c).connection)] else [] }

theorem worked_of_work {app : App} {s s' : HbServer} {server : IocpServer} {act : Act} {j : ℕ}
    (hstep : s.server.step app act = some server) (hwork : s.work app server j act = some s') :
    Worked app s act s' ∧ s'.server = server := by
  cases act with
  | accept =>
    obtain rfl := Option.some.inj hwork
    simp only [IocpServer.step] at hstep
    split_ifs at hstep
    obtain rfl := Option.some.inj hstep
    exact ⟨.aside .accept _ rfl rfl rfl, rfl⟩
  | acceptor i ok =>
    obtain ⟨⟨stage, socket⟩, hi, rfl⟩ := Option.map_eq_some_iff.mp hstep
    simp only [work, hi] at hwork
    by_cases hblocked : s.blocked (.acceptor i)
    · rw [if_pos hblocked] at hwork
      cases hwork
    rw [if_neg hblocked] at hwork
    cases stage with
    | allocate =>
      obtain rfl := Option.some.inj hwork
      exact ⟨.allocate i socket ok, rfl⟩
    | testLimit =>
      obtain rfl := Option.some.inj hwork
      refine ⟨?_, rfl⟩
      simp only [IocpServer.acceptStep]
      split_ifs <;> exact .aside (.acceptor i ok) _ rfl rfl rfl
    | countClient =>
      obtain rfl := Option.some.inj hwork
      exact ⟨.aside (.acceptor i ok) _ rfl rfl rfl, rfl⟩
    | postAccept =>
      obtain rfl := Option.some.inj hwork
      cases ok <;> exact ⟨.aside (.acceptor i _) _ rfl rfl rfl, rfl⟩
  | recv c m_recvBuf =>
    obtain ⟨connection, hj, rfl⟩ := Option.map_eq_some_iff.mp hwork
    simp only [IocpServer.step] at hstep
    split_ifs at hstep
    obtain rfl := Option.some.inj hstep
    exact ⟨.recv c m_recvBuf j connection hj, rfl⟩
  | send c k n =>
    obtain ⟨connection, hk, rfl⟩ := Option.map_eq_some_iff.mp hwork
    simp only [IocpServer.step] at hstep
    split at hstep
    · cases hstep
    split_ifs at hstep
    obtain rfl := Option.some.inj hstep
    exact ⟨.send c k n connection hk, rfl⟩
  | exec c i ok =>
    simp only [IocpServer.step] at hstep
    split at hstep
    swap
    · cases hstep
    next instr rest hi =>
    obtain rfl := Option.some.inj hstep
    simp only [work, hi] at hwork
    by_cases hblocked : s.blocked (.handler c i)
    · rw [if_pos hblocked] at hwork
      cases hwork
    rw [if_neg hblocked] at hwork
    cases hw : (s.origin c).workers[i]? with
    | none =>
      rw [hw] at hwork
      cases hwork
    | some w =>
      rw [hw] at hwork
      have hself (server : IocpServer) (cl : ClientContext) : (server.setClient c cl).client c = cl :=
        Function.update_self ..
      obtain rfl := Option.some.inj hwork
      simp only [hself, ClientContext.exec_running]
      exact ⟨.exec c i ok instr rest w hi hw hblocked, rfl⟩

inductive Stepped (app : App) (s : HbServer) : HbAct → HbServer → Prop
  | work (act : Act) (j : ℕ) (server : IocpServer) (s' : HbServer) :
    s.server.step app act = some server → s.work app server j act = some s' → Stepped app s (.work act j) s'
  | tick (ms : ℕ) : Stepped app s (.tick ms) { s with clock := s.clock + ms }
  | wake : s.timer = .waiting → Stepped app s .wake { s with timer := .woken (s.clock % 2 ^ 32) }
  | lock (curTime : ℕ) : s.timer = .woken curTime →
    Stepped app s .lock { s with timer := .scanning curTime s.server.m_connectedClientList }
  | scan (ok : Bool) (curTime : ℕ) (list : List ℕ) : s.timer = .scanning curTime list → ¬ s.blocked .timer →
    Stepped app s (.scan ok) (s.scan ok)
  | close (k : ℕ) (post : PostedClose) : s.m_hComPort[k]? = some post →
    Stepped app s (.close k) { s with
      m_hComPort := s.m_hComPort.eraseIdx k
      closers := s.closers ++ [(post, .closeClient)] }
  | closer (i : ℕ) (ok : Bool) (post : PostedClose) (stage : Closing) : s.closers[i]? = some (post, stage) →
    ¬ s.blocked (.closer i) → Stepped app s (.closer i ok) (s.closing i ok post stage)

theorem stepped_of_step {app : App} {s s' : HbServer} {act : HbAct} (hs : s.step app act = some s') :
    Stepped app s act s' := by
  cases act with
  | work act j =>
    obtain ⟨server, hstep, hwork⟩ := Option.bind_eq_some_iff.mp hs
    exact .work act j server s' hstep hwork
  | tick ms =>
    obtain rfl := Option.some.inj hs
    exact .tick ms
  | wake =>
    simp only [step] at hs
    split at hs
    next htimer =>
      obtain rfl := Option.some.inj hs
      exact .wake htimer
    · cases hs
  | lock =>
    simp only [step] at hs
    split at hs
    next curTime htimer =>
      obtain rfl := Option.some.inj hs
      exact .lock curTime htimer
    · cases hs
  | scan ok =>
    simp only [step] at hs
    split at hs
    next curTime list htimer =>
      rw [Option.ite_none_left_eq_some] at hs
      obtain ⟨hfree, hs⟩ := hs
      obtain rfl := Option.some.inj hs
      exact .scan ok curTime list htimer hfree
    · cases hs
  | close k =>
    obtain ⟨post, hk, rfl⟩ := Option.map_eq_some_iff.mp hs
    exact .close k post hk
  | closer i ok =>
    obtain ⟨⟨post, stage⟩, hi, hs⟩ := Option.bind_eq_some_iff.mp hs
    rw [Option.ite_none_left_eq_some] at hs
    obtain ⟨hfree, hs⟩ := hs
    obtain rfl := Option.some.inj hs
    exact .closer i ok post stage hi hfree

end HbServer
end NetDemo.Server
