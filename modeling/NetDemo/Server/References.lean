import NetDemo.Server.Invariant

/-! When the server takes a context back, over all runs of its worker threads. -/

namespace NetDemo.Server
open Foundation Memory Http Client

/-- No context is taken back too early: the counter covers all operations that are outstanding or
being handled, and a context on the free list has none of them, nor anybody working on it. -/
structure Kept (s : IocpServer) : Prop where
  counted : ∀ c, (s.client c).overlapped ≤ (s.client c).m_nPendingIoCnt
  free : ∀ c ∈ s.m_freeClientList, (s.client c).overlapped = 0 ∧ (s.client c).running = [] ∧
    (s.client c).m_nPendingIoCnt = 0
  lists : (s.m_connectedClientList ++ s.m_freeClientList).Nodup

/-- Every reference is given back: a context without a socket that nothing is under way for is on the
free list. -/
def NothingLost (s : IocpServer) : Prop :=
  ∀ c < s.constructed, (s.client c).m_socket = none → (s.client c).recvs = 0 → (s.client c).sends = [] →
    (s.client c).running = [] →
      (s.client c).m_nPendingIoCnt = 0 ∧ c ∈ s.m_freeClientList ∧ c ∉ s.m_connectedClientList

theorem Still.overlapped {cl : ClientContext} (h : Still cl) : cl.overlapped = 0 := by
  rw [ClientContext.overlapped, ClientContext.recvRefs, ClientContext.sendRefs, h.running, h.recvs, h.sends]
  rfl

namespace Inv
variable {app : App} {tight : Prop} {s : IocpServer}

theorem overlapped_le (h : Inv app tight s) (c : ℕ) :
    (s.client c).overlapped ≤ (s.client c).m_nPendingIoCnt := by
  cases h.phase c with
  | fresh hnew =>
    rw [hnew]
    exact Nat.zero_le _
  | free hstill | lost hstill =>
    rw [hstill.overlapped]
    exact Nat.zero_le _
  | opening hopening =>
    obtain ⟨hrecvs, hsends, ⟨hcount, hrun, -⟩ | ⟨hcount, hrun⟩ | ⟨hcount, hrun⟩ | ⟨hcount, hrun⟩⟩ := hopening
    all_goals
      rw [hcount, ClientContext.overlapped, ClientContext.recvRefs, ClientContext.sendRefs, hrecvs, hsends,
        hrun]
      decide
  | active hactive => exact hactive.balanced.low
  | leaving hleaving =>
    rw [ClientContext.overlapped, ClientContext.recvRefs, ClientContext.sendRefs, hleaving.recvs,
      hleaving.sends, hleaving.running]
    exact Nat.zero_le _

theorem kept (h : Inv app tight s) : Kept s where
  counted := h.overlapped_le
  free c hc := by
    cases h.phase c with
    | free hstill => exact ⟨hstill.overlapped, hstill.running, hstill.count⟩
    | fresh _ _ _ hno | lost _ _ _ _ hno | opening _ _ _ hno | active _ _ _ hno | leaving _ _ _ hno =>
      exact absurd hc hno
  lists := h.nodup

theorem nothingLost (h : Inv app True s) : NothingLost s := by
  intro c hbuilt hsocket hrecvs hsends hrun
  cases h.phase c with
  | free hstill _ hconn hfree => exact ⟨hstill.count, hfree, hconn⟩
  | fresh _ hno => exact absurd hbuilt hno
  | lost _ hsome =>
    rw [hsocket] at hsome
    cases hsome
  | opening hopening =>
    obtain ⟨-, -, ⟨-, hrun', -⟩ | ⟨-, hrun'⟩ | ⟨-, hrun'⟩ | ⟨-, hrun'⟩⟩ := hopening <;> simp [hrun] at hrun'
  | active hactive =>
    have hexact := hactive.balanced.exact trivial
    have hpos := hactive.pos
    rw [ClientContext.recvRefs, ClientContext.sendRefs, hrecvs, hsends, hrun] at hexact
    exact absurd hexact.symm (Nat.ne_of_gt hpos)
  | leaving hleaving =>
    have hrun' := hleaving.running
    simp [hrun] at hrun'

end Inv

def connect : List Act :=
  [.accept, .acceptor 0 true, .acceptor 0 true, .acceptor 0 true, .exec 0 0 true, .exec 0 0 true,
    .exec 0 0 true, .exec 0 0 true, .exec 0 0 true]

/-- `n` instructions of the only handler of the first client, and the system does what it is asked. -/
def execs (n : ℕ) : List Act := List.replicate n (.exec 0 0 true)

def visit : List Act :=
  connect ++ .recv 0 (some [1, 2]) :: execs 5 ++ .send 0 0 (some 1) :: execs 2 ++
    .send 0 0 (some 1) :: execs 1 ++ .recv 0 none :: execs 4

theorem exists_run_visit :
    ∃ s, run (IocpServer.step .echo) (.new 1) visit = some s ∧ s.m_freeClientList = [0] := by
  have hend : (run (IocpServer.step .echo) (.new 1) visit).any fun s => decide (s.m_freeClientList = [0]) := by
    decide +kernel
  obtain ⟨s, hs, hfree⟩ := exists_of_any hend
  exact ⟨s, hs, of_decide_eq_true hfree⟩

def asked : List Act :=
  connect ++ .recv 0 (some (ascii "GET / HTTP/1.1\r\nHost: a\r\n\r\n")) :: execs 7 ++
    .send 0 0 (some 66) :: execs 1 ++ .recv 0 none :: execs 4

theorem exists_run_asked :
    ∃ s, run (IocpServer.step (.http 64)) (.new 1) asked = some s ∧ s.m_freeClientList = [0] := by
  have hend : (run (IocpServer.step (.http 64)) (.new 1) asked).any fun s =>
      decide (s.m_freeClientList = [0]) := by
    decide +kernel
  obtain ⟨s, hs, hfree⟩ := exists_of_any hend
  exact ⟨s, hs, of_decide_eq_true hfree⟩

/-- In the base server no context is ever taken back too early. -/
theorem echo_kept {max : ℕ} {acts : List Act} {s : IocpServer}
    (hrun : run (IocpServer.step .echo) (.new max) acts = some s) : Kept s := by
  have hinv : Inv .echo False s := Inv.run (meets_of_forall (fun _ _ => trivial) _ acts) hrun
    (fun _ _ _ hno => absurd rfl hno) fun _ _ _ => False.elim
  exact hinv.kept

theorem echo_kept_visit :
    ∃ s, run (IocpServer.step .echo) (.new 1) visit = some s ∧ s.m_freeClientList = [0] ∧ Kept s := by
  obtain ⟨s, hs, hfree⟩ := exists_run_visit
  exact ⟨s, hs, hfree, echo_kept hs⟩

/-- In the base server no reference is lost as long as no `postSend` finds its socket closed. -/
theorem echo_nothingLost {max : ℕ} {acts : List Act}
    (hmeets : Meets (IocpServer.step .echo) PostsOpen (.new max) acts) {s : IocpServer}
    (hrun : run (IocpServer.step .echo) (.new max) acts = some s) : NothingLost s := by
  have hinv : Inv .echo True s :=
    Inv.run hmeets hrun (fun _ _ _ hno => absurd rfl hno) fun _ _ h _ => h
  exact hinv.nothingLost

theorem echo_nothingLost_visit :
    ∃ s, run (IocpServer.step .echo) (.new 1) visit = some s ∧ s.m_freeClientList = [0] ∧ NothingLost s := by
  obtain ⟨s, hs, hfree⟩ := exists_run_visit
  exact ⟨s, hs, hfree, echo_nothingLost (by decide +kernel) hs⟩

/-- A byte is echoed, the peer closes, and the completion of the send comes with a byte left, or with
none. -/
theorem echo_not_nothingLost :
    ∃ acts s, run (IocpServer.step .echo) (.new 1) acts = some s ∧ ¬ NothingLost s := by
  have hlost : (run (IocpServer.step .echo) (.new 1) (connect ++ [.recv 0 (some [1, 2]), .exec 0 0 true,
      .exec 0 0 true, .exec 0 0 true, .exec 0 0 true, .exec 0 0 true, .recv 0 none, .exec 0 0 true,
      .exec 0 0 true, .exec 0 0 true, .send 0 0 (some 1), .exec 0 0 true, .exec 0 0 true])).any fun s =>
        decide (0 < s.constructed ∧ (s.client 0).m_socket = none ∧ (s.client 0).recvs = 0 ∧
          (s.client 0).sends = [] ∧ (s.client 0).running = [] ∧ (s.client 0).m_nPendingIoCnt = 1) := by
    decide +kernel
  obtain ⟨s, hs, hend⟩ := exists_of_any hlost
  obtain ⟨hbuilt, hsocket, hrecvs, hsends, hrun, hcount⟩ := of_decide_eq_true hend
  refine ⟨_, s, hs, fun h => ?_⟩
  have hzero := (h 0 hbuilt hsocket hrecvs hsends hrun).1
  rw [hcount] at hzero
  cases hzero

/-- In the HTTP server no context is taken back too early as long as every request is accepted. -/
theorem http_kept {w max : ℕ} {acts : List Act}
    (hmeets : Meets (IocpServer.step (.http w)) Decodes (.new max) acts) {s : IocpServer}
    (hrun : run (IocpServer.step (.http w)) (.new max) acts = some s) : Kept s := by
  have hinv : Inv (.http w) False s :=
    Inv.run hmeets hrun (fun _ _ h _ => h) fun _ _ _ => False.elim
  exact hinv.kept

theorem http_kept_asked :
    ∃ s, run (IocpServer.step (.http 64)) (.new 1) asked = some s ∧ s.m_freeClientList = [0] ∧ Kept s := by
  obtain ⟨s, hs, hfree⟩ := exists_run_asked
  exact ⟨s, hs, hfree, http_kept (by decide +kernel) hs⟩

/-- A request is refused while its receive is still being handled. -/
theorem http_not_kept :
    ∃ acts s, run (IocpServer.step (.http 64)) (.new 1) acts = some s ∧ ¬ Kept s := by
  have hfree : (run (IocpServer.step (.http 64)) (.new 1) (connect ++
      [.recv 0 (some [88, 13, 10, 13, 10])] ++ List.replicate 12 (.exec 0 0 true))).any fun s =>
        decide (0 ∈ s.m_freeClientList ∧ (s.client 0).sends ≠ []) := by
    decide +kernel
  obtain ⟨s, hs, hend⟩ := exists_of_any hfree
  obtain ⟨hmem, hsends⟩ := of_decide_eq_true hend
  refine ⟨_, s, hs, fun h => hsends ?_⟩
  have hzero := (h.free 0 hmem).1
  exact List.eq_nil_of_length_eq_zero (by
    rw [ClientContext.overlapped, ClientContext.sendRefs] at hzero
    omega)

end NetDemo.Server
