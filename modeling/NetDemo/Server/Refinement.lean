import NetDemo.Server.Simulation
import NetDemo.Server.Contexts

/-! The process with its bytes refines the server of lengths and threads: every run of it is one of the worker
threads. -/

namespace NetDemo.Server
open Foundation Memory Http Client

/-! ### The process -/

/-- The threads are where the process is, but for the code that a handler of the context `c` has left;
`x` has the views of the contexts. -/
structure Tracks (c : ℕ) (code : Code) (p : Process) (s : IocpServer) (x : ℕ → View UInt8) : Prop where
  count : s.m_nConnClientCnt = p.m_nConnClientCnt
  limit : s.m_nMaxConnClientCnt = p.m_nMaxConnClientCnt
  free : s.m_freeClientList = p.m_freeClientList
  constructed : s.constructed = p.constructed
  accepts : s.accepts = p.accepts
  acceptors : s.acceptors = []
  spread : s.Spread
  holds : ∀ d, Holds none (p.context d) (x d)
  place : ∀ d, At d (if d = c then code else []) (x d) s

namespace Tracks
variable {app : App} {c : ℕ} {code : Code} {p : Process} {s : IocpServer} {x : ℕ → View UInt8}

theorem other (h : Tracks c [] p s x) (d : ℕ) : Tracks d [] p s x :=
  { h with place := fun e => by simpa using h.place e }

theorem self (h : Tracks c code p s x) : At c code (x c) s := by
  have hplace := h.place c
  rwa [if_pos rfl] at hplace

theorem new (max c : ℕ) : Tracks c [] (.new max) (.new max)
    fun _ => (View.new fun _ => false).modify fun l => { l with m_socket := false } where
  count := rfl
  limit := rfl
  free := rfl
  constructed := rfl
  accepts := rfl
  acceptors := rfl
  spread := .new max
  holds _ := (Holds.new fun _ => false).modify fun l => { l with m_socket := false }
  place d := by
    rw [ite_self]
    exact ⟨⟨rfl, rfl, rfl, rfl, rfl, rfl, rfl⟩, rfl, by simp [IocpServer.new, View.new, Link.new]⟩

theorem spread_of_reaches (h : s.Spread) {s' : IocpServer} (hs' : Reaches (IocpServer.step app) s s') :
    s'.Spread := by
  obtain ⟨acts, hrun⟩ := hs'
  exact run_preserves IocpServer.Spread h (fun _ _ _ h hs' => h.step hs') hrun

theorem holds_update (h : Tracks c code p s x) {cl : Client.ClientContext UInt8} {y : View UInt8}
    (hholds : Holds none cl y) (d : ℕ) :
    Holds none (Function.update p.context c cl d) (Function.update x c y d) := by
  by_cases hd : d = c
  · subst hd
    rw [Function.update_self, Function.update_self]
    exact hholds
  · rw [Function.update_of_ne hd, Function.update_of_ne hd]
    exact h.holds d

theorem place_update (h : Tracks c code p s x) {s' : IocpServer} {y : View UInt8} {code' : Code}
    (hat : At c code' y s') (hothers : ∀ d, d ≠ c → s'.client d = s.client d ∧
      (d ∈ s'.m_connectedClientList ↔ d ∈ s.m_connectedClientList)) (d : ℕ) :
    At d (if d = c then code' else []) (Function.update x c y d) s' := by
  by_cases hd : d = c
  · subst hd
    rw [if_pos rfl, Function.update_self]
    exact hat
  · rw [if_neg hd, Function.update_of_ne hd]
    have hplace := h.place d
    rw [if_neg hd] at hplace
    obtain ⟨hclient, hconn⟩ := hothers d hd
    exact ⟨hclient ▸ hplace.seen, hclient ▸ hplace.running, hconn.trans hplace.connected⟩

theorem settle (h : Tracks c code p s x) {s' : IocpServer} {y : View UInt8}
    {cl : Client.ClientContext UInt8} {code' : Code} (hleads : Leads app c (x c).link y.link s s')
    (hat : At c code' y s') (hholds : Holds none cl y) :
    Tracks c code' (p.settle c cl) s' (Function.update x c y) where
  count := by
    rw [hleads.count, h.count, ← (h.holds c).link, ← hholds.link]
    rfl
  limit := hleads.limit.trans h.limit
  free := by
    rw [hleads.free, h.free, ← (h.holds c).link, ← hholds.link]
    rfl
  constructed := hleads.constructed.trans h.constructed
  accepts := hleads.accepts.trans h.accepts
  acceptors := hleads.acceptors.trans h.acceptors
  spread := spread_of_reaches h.spread hleads.reaches
  holds := h.holds_update hholds
  place := h.place_update hat hleads.others

theorem completion (h : Tracks c [] p s x) {fuel d : ℕ} {e : Client.ClientContext.Event}
    {cl : Client.ClientContext UInt8} (hcl : app.complete fuel (p.context d) e = some cl) :
    ∃ s' x', Reaches (IocpServer.step app) s s' ∧ Tracks d [] (p.settle d cl) s' x' := by
  have hrel := complete_rel (h.holds d) app fuel e
  rw [hcl] at hrel
  obtain ⟨y, hy, hholds⟩ := rel_some hrel
  obtain ⟨s', hleads, hat⟩ := Matched.complete hy d s (h.other d).self
  exact ⟨s', _, hleads.reaches, (h.other d).settle hleads hat hholds⟩

theorem run_allocate (app : App) {s : IocpServer} (h : s.acceptors = []) (h0 : 0 < s.accepts)
    (hmax : ¬ s.m_nConnClientCnt ≥ s.m_nMaxConnClientCnt) : Reaches (IocpServer.step app) s
      ({ s with
        accepts := s.accepts - 1
        sockets := s.sockets + 1
        m_nConnClientCnt := (s.m_nConnClientCnt + 1) % 2 ^ 32
        counted := s.counted ++ [s.sockets]
        acceptors := [(.allocate, s.sockets)] }.acceptStep 0 true (.allocate, s.sockets)) := by
  refine ⟨[.accept, .acceptor 0 true, .acceptor 0 true, .acceptor 0 true], ?_⟩
  simp [run_cons, IocpServer.step, h, h0, IocpServer.acceptStep, hmax]

end Tracks

/-- The context that `allocateClientContext` answers, when the new connection is seated in it. -/
def Process.seated (p : Process) (net : ℕ → Bool) : Client.ClientContext UInt8 :=
  match p.m_freeClientList with
  | [] => .new net
  | c :: _ => (p.context c).modify fun l => { l with m_socket := true, free := false, net := net, log := [] }

theorem Process.allocateClientContext_eq (p : Process) (net : ℕ → Bool) : p.allocateClientContext net =
    (p.m_freeClientList.head?.getD p.constructed, { p with
      m_freeClientList := p.m_freeClientList.tail
      context := Function.update p.context (p.m_freeClientList.head?.getD p.constructed) (p.seated net)
      constructed := p.constructed + if p.m_freeClientList = [] then 1 else 0 }) := by
  unfold allocateClientContext seated
  cases hfree : p.m_freeClientList with
  | nil => rfl
  | cons c rest => rfl

namespace Tracks
variable {app : App} {c : ℕ} {code : Code} {p : Process} {s : IocpServer} {x : ℕ → View UInt8}

theorem seated (h : Tracks c [] p s x) (net : ℕ → Bool) (socket : ℕ) : ∃ y,
    Holds none (p.seated net) y ∧
    Seen y ((s.client s.allocated).seated socket) ∧
    ((s.client s.allocated).seated socket).running = [[.associate]] ∧
    (s.allocated ∈ s.m_connectedClientList ↔ y.link.connected = true) := by
  unfold Process.seated IocpServer.allocated
  rw [h.free]
  cases hfree : p.m_freeClientList with
  | nil =>
    have hnew : s.client s.constructed = .new := h.spread.built.fresh _ le_rfl
    have hplaces := h.spread.places_constructed
    rw [List.head?_nil, Option.getD_none, hnew]
    refine ⟨View.new net, Holds.new net, ⟨rfl, rfl, rfl, rfl, rfl, rfl, rfl⟩, rfl, ?_⟩
    refine iff_of_false (fun hmem => ?_) (by simp [View.new, Link.new])
    have hpos := List.count_pos_iff.mpr hmem
    rw [IocpServer.places, IocpServer.onLists] at hplaces
    omega
  | cons d rest =>
    have hat := (h.other d).self
    have hseen := hat.seen
    have hrunning : (s.client d).running = [] := hat.running
    refine ⟨_, (h.holds d).modify _, ?_, ?_, hat.connected⟩
    · exact ⟨rfl, hseen.count, hseen.inBuf, hseen.outLen, hseen.queue, hseen.recvs, hseen.sends⟩
    · show (s.client d).running ++ [[Instr.associate]] = _
      rw [hrunning]
      rfl

theorem allocate (app : App) (h : Tracks c [] p s x) (h0 : 0 < p.accepts)
    (hmax : ¬ p.m_nConnClientCnt ≥ p.m_nMaxConnClientCnt) (net : ℕ → Bool) :
    ∃ s' x', Reaches (IocpServer.step app) s s' ∧ Tracks (p.m_freeClientList.head?.getD p.constructed)
      [.associate] ({ p with
        accepts := p.accepts - 1
        m_nConnClientCnt := (p.m_nConnClientCnt + 1) % 2 ^ 32 }.allocateClientContext net).2 s' x' := by
  have hreach := run_allocate app h.acceptors (h.accepts ▸ h0) (by rwa [h.count, h.limit])
  have hspread := spread_of_reaches h.spread hreach
  have hbuilt : ({ s with
      accepts := s.accepts - 1
      sockets := s.sockets + 1
      m_nConnClientCnt := (s.m_nConnClientCnt + 1) % 2 ^ 32
      counted := s.counted ++ [s.sockets]
      acceptors := [(.allocate, s.sockets)] } : IocpServer).Built := ⟨h.spread.built.fresh, h.spread.built.free⟩
  rw [hbuilt.allocate] at hreach hspread
  have halloc : p.m_freeClientList.head?.getD p.constructed = s.allocated := by
    rw [IocpServer.allocated, h.free, h.constructed]
  obtain ⟨y, hholds, hseen, hrunning, hconn⟩ := h.seated net s.sockets
  rw [Process.allocateClientContext_eq]
  simp only [halloc]
  have htracks := h.other s.allocated
  refine ⟨_, Function.update x s.allocated y, hreach, ?_⟩
  exact {
    count := congrArg (fun n => (n + 1) % 2 ^ 32) h.count
    limit := h.limit
    free := congrArg List.tail h.free
    constructed := by
      rw [← h.free, ← h.constructed]
    accepts := congrArg (· - 1) h.accepts
    acceptors := rfl
    spread := hspread
    holds := htracks.holds_update hholds
    place := htracks.place_update (.of_update rfl hseen hrunning hconn) fun d hd =>
      ⟨Function.update_of_ne hd .., .rfl⟩ }

theorem postRecv (app : App) (h : Tracks c [.postRecv] p s x) : ∃ s' x', Reaches (IocpServer.step app) s s' ∧
    Tracks c [] (p.settle c ((p.context c).modify Client.Link.postRecvOrClose)) s' x' := by
  obtain ⟨s', hleads, hat⟩ := Does.postRecv app c (x c) [] s h.self
  exact ⟨s', _, hleads.reaches, h.settle hleads hat ((h.holds c).modify _)⟩

theorem addClient (app : App) (h : Tracks c (.addClient :: code) p s x) :
    ∃ s' x', Reaches (IocpServer.step app) s s' ∧
      Tracks c code (p.setContext c ((p.context c).modify Client.Link.addClient)) s' x' := by
  have hreach := h.self.step app true
  refine ⟨_, Function.update x c ((x c).modify Link.addClient), hreach, ?_⟩
  have hseen := h.self.seen
  have hadded : Seen ((x c).modify Link.addClient) (s.client c) :=
    ⟨hseen.socket, hseen.count, hseen.inBuf, hseen.outLen, hseen.queue, hseen.recvs, hseen.sends⟩
  have hconn : c ∈ (s.addClient c).m_connectedClientList := List.mem_append_right _ (List.mem_singleton_self c)
  exact {
    count := h.count
    limit := h.limit
    free := h.free
    constructed := h.constructed
    accepts := h.accepts
    acceptors := h.acceptors
    spread := spread_of_reaches h.spread hreach
    holds := h.holds_update ((h.holds c).modify Link.addClient)
    place := h.place_update (.of_setClient hadded (iff_of_true hconn rfl)) fun d hd =>
      ⟨Function.update_of_ne hd .., by simp [IocpServer.outside, IocpServer.addClient, IocpServer.setClient, hd]⟩ }

theorem postAccept (app : App) (h : Tracks c (.postAccept :: code) p s x) (ok : Bool) :
    ∃ s', Reaches (IocpServer.step app) s s' ∧ Tracks c code (p.postAccept ok) s' x := by
  have hreach := h.self.step app ok
  have hspread := spread_of_reaches h.spread hreach
  have hat : At c code (x c) ((s.postAccept ok).setClient c ((s.client c).goesOn code)) :=
    .of_setClient h.self.seen (by cases ok <;> exact h.self.connected)
  have hplace := h.place_update hat
    fun d hd => ⟨(Function.update_of_ne hd ..).trans (by cases ok <;> rfl), by cases ok <;> exact .rfl⟩
  rw [Function.update_eq_self c x] at hplace
  refine ⟨_, hreach, ?_⟩
  cases ok with
  | false => exact ⟨h.count, h.limit, h.free, h.constructed, h.accepts, h.acceptors, hspread, h.holds, hplace⟩
  | true => exact ⟨h.count, h.limit, h.free, h.constructed, congrArg (· + 1) h.accepts, h.acceptors, hspread,
      h.holds, hplace⟩

theorem exec (app : App) {instr : Instr} (h : Tracks c (instr :: code) p s x) {y : View UInt8}
    {cl : Client.ClientContext UInt8} {more : Code} (ok : Bool)
    (hout : ∀ s : IocpServer, s.outside c ok instr = s)
    (hexec : ∀ k, Seen (x c) k → (k.exec app ok instr).2 = more ∧ Seen y (k.exec app ok instr).1)
    (hs : y.link.m_socket = (x c).link.m_socket) (hc : y.link.connected = (x c).link.connected)
    (hholds : Holds none cl y) : ∃ s', Reaches (IocpServer.step app) s s' ∧
      Tracks c (more ++ code) (p.setContext c cl) s' (Function.update x c y) := by
  obtain ⟨s', hleads, hat⟩ := h.self.exec ok hout hexec hs hc
  have hsettle : p.settle c cl = p.setContext c cl := by
    rw [← (h.holds c).link, ← hholds.link] at hs hc
    rw [Process.settle, hs, hc]
    simp [Process.setContext]
  exact ⟨s', hleads.reaches, hsettle ▸ h.settle hleads hat hholds⟩

theorem associate (app : App) (h : Tracks c [.associate] p s x) (ok : Bool) :
    ∃ s', Reaches (IocpServer.step app) s s' ∧ Tracks c (if ok then [.enterIoLoop] else []) p s' x := by
  obtain ⟨s', hreach, htracks⟩ := h.exec app ok (fun _ => rfl) (fun k hk => ⟨rfl, hk⟩) rfl rfl (h.holds c)
  rw [Process.setContext, Function.update_eq_self, Function.update_eq_self, List.append_nil] at htracks
  exact ⟨s', hreach, htracks⟩

theorem enterIoLoop (app : App) (h : Tracks c [.enterIoLoop] p s x) (reposted : Bool) :
    ∃ s' x', Reaches (IocpServer.step app) s s' ∧ Tracks c [.postRecv] ((p.postAccept reposted).setContext c
      ((p.context c).modify fun l => l.enterIoLoop.addClient)) s' x' := by
  obtain ⟨s₁, hreach₁, htracks⟩ := h.exec app (y := (x c).modify Link.enterIoLoop) true (fun _ => rfl)
    (fun k hk => ⟨rfl, hk.socket, congrArg (fun n => (n + 1) % 2 ^ 32) hk.count, hk.inBuf, hk.outLen, hk.queue,
      hk.recvs, hk.sends⟩) rfl rfl ((h.holds c).modify _)
  obtain ⟨s₂, hreach₂, htracks⟩ := htracks.postAccept app reposted
  obtain ⟨s₃, x', hreach₃, htracks⟩ := htracks.addClient app
  refine ⟨s₃, x', (hreach₁.trans hreach₂).trans hreach₃, ?_⟩
  rw [Process.postAccept_setContext, Process.context_setContext, Process.setContext_setContext] at htracks
  exact htracks

theorem refuse (app : App) (h : Tracks c [] p s x) (h0 : 0 < p.accepts)
    (hmax : p.m_nConnClientCnt ≥ p.m_nMaxConnClientCnt) (reposted : Bool) :
    ∃ s', Reaches (IocpServer.step app) s s' ∧
      Tracks c [] ({ p with accepts := p.accepts - 1 }.postAccept reposted) s' x := by
  have hrun := IocpServer.run_refuse app (h.accepts ▸ h0) (by rw [h.count, h.limit]; exact hmax) reposted
  have hreach : Reaches (IocpServer.step app) s (s.refusing reposted) := ⟨_, hrun⟩
  have hspread := spread_of_reaches h.spread hreach
  have hplace (d : ℕ) : At d (if d = c then [] else []) (x d) (s.refusing reposted) := by
    have hat := h.place d
    cases reposted <;> exact ⟨hat.seen, hat.running, hat.connected⟩
  refine ⟨_, hreach, ?_⟩
  have haccepts := congrArg (· - 1) h.accepts
  cases reposted with
  | false => exact ⟨h.count, h.limit, h.free, h.constructed, haccepts, h.acceptors, hspread, h.holds, hplace⟩
  | true => exact ⟨h.count, h.limit, h.free, h.constructed, congrArg (· + 1) haccepts, h.acceptors, hspread,
      h.holds, hplace⟩

theorem accept (app : App) (h : Tracks c [] p s x) (h0 : 0 < p.accepts) (net : ℕ → Bool)
    (associated reposted : Bool) : ∃ d s' x', Reaches (IocpServer.step app) s s' ∧
      Tracks d [] (p.handleAccept net associated reposted) s' x' := by
  rw [Process.handleAccept]
  by_cases hmax : p.m_nConnClientCnt ≥ p.m_nMaxConnClientCnt
  · rw [if_pos hmax]
    obtain ⟨s', hreach, htracks⟩ := h.refuse app h0 hmax reposted
    exact ⟨c, s', x, hreach, htracks⟩
  rw [if_neg hmax]
  obtain ⟨s₁, x₁, hreach₁, htracks⟩ := h.allocate app h0 hmax net
  obtain ⟨s₂, hreach₂, htracks⟩ := htracks.associate app associated
  rw [Process.allocateClientContext_eq] at htracks ⊢
  cases associated with
  | false => exact ⟨_, s₂, x₁, hreach₁.trans hreach₂, htracks⟩
  | true =>
    obtain ⟨s₃, x₃, hreach₃, htracks⟩ := htracks.enterIoLoop app reposted
    obtain ⟨s₄, x₄, hreach₄, htracks⟩ := htracks.postRecv app
    exact ⟨_, s₄, x₄, ((hreach₁.trans hreach₂).trans hreach₃).trans hreach₄, htracks⟩

end Tracks

/-! ### Every run of the process is one of the threads -/

/-- The context `cl` is `k` without its bytes, and nobody is at work on it. -/
structure Abstracts (k : Client.ClientContext UInt8) (cl : ClientContext) : Prop where
  socket : cl.m_socket.isSome = k.link.m_socket
  count : cl.m_nPendingIoCnt = k.link.m_nPendingIoCnt
  inBuf : Owns k.heap k.m_inBuf cl.m_inBuf
  outLen : cl.outLen = k.m_outBuf.getBufferLen
  queue : cl.m_outBufQueue = k.m_outBufQueue.map Buffer.getBufferLen
  recvs : cl.recvs = k.link.recvs
  sends : cl.sends = k.sends.map Client.WsaSend.len
  running : cl.running = []

structure Refines (p : Process) (s : IocpServer) : Prop where
  count : s.m_nConnClientCnt = p.m_nConnClientCnt
  limit : s.m_nMaxConnClientCnt = p.m_nMaxConnClientCnt
  free : s.m_freeClientList = p.m_freeClientList
  constructed : s.constructed = p.constructed
  accepts : s.accepts = p.accepts
  acceptors : s.acceptors = []
  context : ∀ c, Abstracts (p.context c) (s.client c)
  connected : ∀ c, c ∈ s.m_connectedClientList ↔ (p.context c).link.connected = true

theorem map_getBufferLen {h : Heap UInt8} {bufs : List Buffer} {queue : List Bytes}
    (hq : List.Forall₂ (Queued h) bufs queue) : queue.map List.length = bufs.map Buffer.getBufferLen := by
  induction hq with
  | nil => rfl
  | @cons b pData bufs queue hb _ ih =>
    have hlen : pData.length = b.getBufferLen := by
      cases hb with
      | empty hnew =>
        rw [hnew]
        rfl
      | lost a pData w _ hlen => exact hlen.symm
    rw [List.map_cons, List.map_cons, hlen, ih]

theorem At.abstracts {c : ℕ} {x : View UInt8} {s : IocpServer} {k : Client.ClientContext UInt8}
    (h : At c [] x s) (hholds : Holds none k x) : Abstracts k (s.client c) where
  socket := h.seen.socket.trans (congrArg Link.m_socket hholds.link.symm)
  count := h.seen.count.trans (congrArg Link.m_nPendingIoCnt hholds.link.symm)
  inBuf := h.seen.inBuf ▸ hholds.inBuf
  outLen := h.seen.outLen.trans hholds.outLen.symm
  queue := h.seen.queue.trans (map_getBufferLen hholds.queue)
  recvs := h.seen.recvs.trans (congrArg Link.recvs hholds.link.symm)
  sends := by
    rw [h.seen.sends, ← hholds.sends, List.map_map]
    exact List.map_congr_left fun op hop => (hholds.whole op hop).symm
  running := h.running

theorem Tracks.refines {c : ℕ} {p : Process} {s : IocpServer} {x : ℕ → View UInt8} (h : Tracks c [] p s x) :
    Refines p s where
  count := h.count
  limit := h.limit
  free := h.free
  constructed := h.constructed
  accepts := h.accepts
  acceptors := h.acceptors
  context d := (h.other d).self.abstracts (h.holds d)
  connected d := by
    rw [(h.holds d).link]
    exact (h.other d).self.connected

/-- The threads can follow the process wherever it goes. -/
theorem Tracks.step {app : App} {fuel : ℕ} {p p' : Process} {s : IocpServer} {job : Job}
    (h : ∃ c x, Tracks c [] p s x) (hp' : p.step app fuel job = some p') :
    ∃ s', Reaches (IocpServer.step app) s s' ∧ ∃ c x, Tracks c [] p' s' x := by
  obtain ⟨c, x, h⟩ := h
  cases job with
  | accept net associated reposted =>
    rw [Process.step] at hp'
    split_ifs at hp' with h0
    obtain rfl := Option.some.inj hp'
    obtain ⟨d, s', x', hreach, htracks⟩ := h.accept app h0 net associated reposted
    exact ⟨s', hreach, d, x', htracks⟩
  | completion d e =>
    obtain ⟨cl, hcl, rfl⟩ := Option.map_eq_some_iff.mp hp'
    obtain ⟨s', x', hreach, htracks⟩ := h.completion hcl
    exact ⟨s', hreach, d, x', htracks⟩

theorem Tracks.run {app : App} {fuel max : ℕ} {jobs : List Job} {p : Process}
    (hrun : run (Process.step app fuel) (.new max) jobs = some p) :
    ∃ s, Reaches (IocpServer.step app) (.new max) s ∧ ∃ c x, Tracks c [] p s x :=
  run_reaches (fun p s => ∃ c x, Tracks c [] p s x) (fun _ _ _ _ h hp' => Tracks.step h hp')
    ⟨0, _, Tracks.new max 0⟩ hrun

/-- Every run of the process with all its bytes is one of the threads on the lengths. -/
theorem process_refines {app : App} {fuel max : ℕ} {jobs : List Job} {p : Process}
    (hrun : run (Process.step app fuel) (.new max) jobs = some p) :
    ∃ s, Reaches (IocpServer.step app) (.new max) s ∧ Refines p s := by
  obtain ⟨s, hreach, c, x, htracks⟩ := Tracks.run hrun
  exact ⟨s, hreach, htracks.refines⟩

def visits : List Job :=
  [.accept (fun _ => true) true true, .completion 0 (.recv [1, 2, 3]), .completion 0 (.send 2),
    .completion 0 .recvClose, .completion 0 (.send 1), .accept (fun _ => true) true true]

theorem process_refines_visits : ∃ p s, run (Process.step .echo 0) (.new 1) visits = some p ∧
    Reaches (IocpServer.step .echo) (.new 1) s ∧ Refines p s := by
  have hvisits : (run (Process.step .echo 0) (.new 1) visits).isSome := by decide +kernel
  obtain ⟨p, hp⟩ := Option.isSome_iff_exists.mp hvisits
  obtain ⟨s, hreach, href⟩ := process_refines hp
  exact ⟨p, s, hp, hreach, href⟩

/-- What holds of the threads holds of the process: in the base server nothing is in flight for a context that
waits on `m_freeClientList`. -/
theorem still_of_free {fuel max : ℕ} {jobs : List Job} {p : Process}
    (hrun : run (Process.step .echo fuel) (.new max) jobs = some p) {c : ℕ} (hc : c ∈ p.m_freeClientList) :
    (p.context c).link.m_nPendingIoCnt = 0 ∧ (p.context c).link.recvs = 0 ∧ (p.context c).sends = [] := by
  obtain ⟨s, ⟨acts, hacts⟩, c₀, x, htracks⟩ := Tracks.run hrun
  have href := htracks.refines
  have hinv : Inv .echo False s := Inv.run (meets_of_forall (fun _ _ => trivial) _ acts) hacts
    (fun _ _ _ hno => absurd rfl hno) fun _ _ _ => False.elim
  rw [← href.free] at hc
  have hcl := href.context c
  cases hinv.phase c with
  | free hstill =>
    refine ⟨hcl.count.symm.trans hstill.count, hcl.recvs.symm.trans hstill.recvs, ?_⟩
    have hsends := hcl.sends.symm.trans hstill.sends
    exact List.map_eq_nil_iff.mp hsends
  | fresh _ _ _ hno | lost _ _ _ _ hno | opening _ _ _ hno | active _ _ _ hno | leaving _ _ _ hno =>
    exact absurd hc hno

end NetDemo.Server
