import NetDemo.Client.Echo
import NetDemo.Server.Step

/-! The server process with the bytes of all its contexts. Here a worker handles a completion from the first
to the last instruction before another one comes to it, and `setLinger` and `CancelIoEx` succeed. -/

namespace NetDemo.Server
open Foundation Memory Http

/-- What a worker makes of a completion of this context, under the `notifyPackageReceived` of the server. -/
def App.complete (fuel : ℕ) (cl : Client.ClientContext UInt8) (e : Client.ClientContext.Event) :
    App → Option (Client.ClientContext UInt8)
  | .echo => ((⟨cl, []⟩ : Client.Echo).step e).map Client.Echo.context
  | .http w => cl.step w fuel e

structure Process where
  m_nConnClientCnt : ℕ
  m_nMaxConnClientCnt : ℕ
  m_freeClientList : List ℕ
  context : ℕ → Client.ClientContext UInt8
  constructed : ℕ
  accepts : ℕ

inductive Job
  /-- A connection is accepted that the network treats as `net` says; `associated` and `reposted` are the
  answers of `associateWithCompletionPort` and `AcceptEx`. -/
  | accept (net : ℕ → Bool) (associated reposted : Bool)
  | completion (c : ℕ) (e : Client.ClientContext.Event)

namespace Process

def unused : Client.ClientContext UInt8 :=
  (Client.ClientContext.new fun _ => false).modify fun l => { l with m_socket := false }

def new (m_nMaxConnClientCnt : ℕ) : Process :=
  ⟨0, m_nMaxConnClientCnt, [], fun _ => unused, 0, POST_ACCEPT_CNT⟩

def setContext (p : Process) (c : ℕ) (cl : Client.ClientContext UInt8) : Process :=
  { p with context := Function.update p.context c cl }

/-- A handler leaves `cl` behind. It has called `removeClient` when the context is not connected any more,
and `closesocket` when its socket is gone. -/
def settle (p : Process) (c : ℕ) (cl : Client.ClientContext UInt8) : Process :=
  let old := (p.context c).link
  { p.setContext c cl with
    m_freeClientList :=
      if old.connected && !cl.link.connected then p.m_freeClientList ++ [c] else p.m_freeClientList
    m_nConnClientCnt :=
      if old.m_socket && !cl.link.m_socket then
        if p.m_nConnClientCnt = 0 then 2 ^ 32 - 1 else p.m_nConnClientCnt - 1
      else p.m_nConnClientCnt }

def postAccept (p : Process) (ok : Bool) : Process :=
  if ok then { p with accepts := p.accepts + 1 } else p

/-- A context from the free list keeps what its `Buffer`s hold; the log is that of the new connection. -/
def allocateClientContext (p : Process) (net : ℕ → Bool) : ℕ × Process :=
  match p.m_freeClientList with
  | [] => (p.constructed, { p with constructed := p.constructed + 1 }.setContext p.constructed (.new net))
  | c :: rest => (c, { p with m_freeClientList := rest }.setContext c
      ((p.context c).modify fun l => { l with m_socket := true, free := false, net := net, log := [] }))

def handleAccept (p : Process) (net : ℕ → Bool) (associated reposted : Bool) : Process :=
  let p := { p with accepts := p.accepts - 1 }
  if p.m_nConnClientCnt ≥ p.m_nMaxConnClientCnt then p.postAccept reposted
  else
    let (c, p) := { p with
      m_nConnClientCnt := (p.m_nConnClientCnt + 1) % 2 ^ 32 }.allocateClientContext net
    if associated then
      let p := (p.postAccept reposted).setContext c
        ((p.context c).modify fun l => l.enterIoLoop.addClient)
      p.settle c ((p.context c).modify Client.Link.postRecvOrClose)
    else p

def step (app : App) (fuel : ℕ) (p : Process) : Job → Option Process
  | .accept net associated reposted =>
    if 0 < p.accepts then some (p.handleAccept net associated reposted) else none
  | .completion c e => (app.complete fuel (p.context c) e).map (p.settle c)

@[simp] theorem context_setContext (p : Process) (c : ℕ) (cl : Client.ClientContext UInt8) :
    (p.setContext c cl).context c = cl := Function.update_self ..

@[simp] theorem setContext_setContext (p : Process) (c : ℕ) (cl cl' : Client.ClientContext UInt8) :
    (p.setContext c cl).setContext c cl' = p.setContext c cl' := by
  simp only [setContext, Function.update_idem]

theorem postAccept_setContext (p : Process) (c : ℕ) (cl : Client.ClientContext UInt8) (ok : Bool) :
    (p.setContext c cl).postAccept ok = (p.postAccept ok).setContext c cl := by
  cases ok <;> rfl

end Process
end NetDemo.Server
