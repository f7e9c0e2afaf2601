import NetDemo.Server.Contexts

/-! `handleAccept` from its first to its last instruction, and what is left when one of the calls in it
fails. -/

namespace NetDemo.Server
open Foundation Memory Http Client

/-- How the calls in one `handleAccept` end. -/
structure Outcome where
  associated : Bool
  /-- `postAccept` -/
  reposted : Bool
  /-- Another thread closes the client before `postRecv`. -/
  taken : Bool
  /-- `WSARecv` -/
  received : Bool
  /-- `setLinger` and `CancelIoEx` in `CloseClient` -/
  lingered : Bool

namespace IocpServer
variable {s : IocpServer} {o : Outcome}

def closeClient (s : IocpServer) (c : ℕ) (lingered : Bool) : IocpServer :=
  match (s.client c).m_socket with
  | none => s
  | some socket => (s.setClient c { s.client c with m_socket := none }).closesocket socket lingered

def releaseClientContext (s : IocpServer) (c : ℕ) : IocpServer :=
  let s := s.setClient c (s.client c).exitIoLoop.1
  if int32 (s.client c).m_nPendingIoCnt ≤ 0 then s.removeClient c else s

def postRecv (s : IocpServer) (c : ℕ) (ok : Bool) : PostResult × IocpServer :=
  (((s.client c).postRecv ok).1, s.setClient c ((s.client c).postRecv ok).2)

def enterIoLoop (s : IocpServer) (c : ℕ) : IocpServer := s.setClient c (s.client c).enterIoLoop

/-- `handleAccept` from `associateWithCompletionPort` on. -/
def openClient (s : IocpServer) (c : ℕ) (o : Outcome) : IocpServer :=
  if o.associated = false then s else
    let s := ((s.enterIoLoop c).postAccept o.reposted).addClient c
    let s := if o.taken then s.closeClient c o.lingered else s
    let (result, s) := s.postRecv c o.received
    if result = .failed ∨ result = .invalidSocket then
      (s.closeClient c o.lingered).releaseClientContext c
    else s

def handleAccept (s : IocpServer) (o : Outcome) : IocpServer :=
  let socket := s.sockets
  let s := { s with accepts := s.accepts - 1, sockets := s.sockets + 1 }
  if s.m_nConnClientCnt ≥ s.m_nMaxConnClientCnt then
    { s with closed := s.closed ++ [socket] }.postAccept o.reposted
  else
    let s := { s with
      m_nConnClientCnt := (s.m_nConnClientCnt + 1) % 2 ^ 32
      counted := s.counted ++ [socket] }
    let (c, s) := s.allocateClientContext socket
    s.openClient c o

/-! ### All or nothing -/

/-- The connection is there: the receive is outstanding, and it and the sends have their references. -/
structure Established (s s' : IocpServer) : Prop where
  connected : s.allocated ∈ s'.m_connectedClientList
  socket : (s'.client s.allocated).m_socket = some s.sockets
  counted : s'.m_nConnClientCnt = s.m_nConnClientCnt + 1
  recvs : (s'.client s.allocated).recvs = 1
  count : (s'.client s.allocated).m_nPendingIoCnt = 1 + (s'.client s.allocated).sends.length

structure RolledBack (s s' : IocpServer) : Prop where
  closed : s'.closed = s.closed ++ [s.sockets]
  counted : s'.m_nConnClientCnt = s.m_nConnClientCnt
  connected : s'.m_connectedClientList = s.m_connectedClientList
  context : s'.client = s.client ∧ s'.constructed = s.constructed ∧
      s'.m_freeClientList = s.m_freeClientList ∨
    s.allocated ∈ s'.m_freeClientList ∧ (s'.client s.allocated).m_socket = none

structure AllOrNothing (s s' : IocpServer) : Prop where
  accepts : s'.accepts = s.accepts
  outcome : Established s s' ∨ RolledBack s s'

/-- The state at a completion of `AcceptEx`. -/
structure Ready (s : IocpServer) : Prop where
  spread : s.Spread
  accepts : 0 < s.accepts
  limit : s.m_nMaxConnClientCnt < 2 ^ 32

/-- No receive is left from an earlier connection, and every send that is left has its reference. -/
def Unused (cl : ClientContext) : Prop :=
  cl.recvs = 0 ∧ (cl.m_nPendingIoCnt + 1) % 2 ^ 32 = 1 + cl.sends.length

instance (cl : ClientContext) : Decidable (Unused cl) := inferInstanceAs (Decidable (_ ∧ _))

/-- The next `AcceptEx` is posted, and the new client is refused for the limit, or its socket is
associated and either the receive is posted on a context that nothing is left of, or `CloseClient` runs to
its end and no more than the one reference is there. -/
def Clean (s : IocpServer) (o : Outcome) : Prop :=
  o.reposted = true ∧ (s.m_nMaxConnClientCnt ≤ s.m_nConnClientCnt ∨ o.associated = true ∧
    if o.taken = false ∧ o.received = true then Unused (s.client s.allocated)
    else o.lingered = true ∧ int32 ((s.client s.allocated).m_nPendingIoCnt % 2 ^ 32) ≤ 0)

instance (s : IocpServer) (o : Outcome) : Decidable (Clean s o) := inferInstanceAs (Decidable (_ ∧ _))

/-! ### The stages -/

theorem allocateClientContext_eq (h : s.Built) (socket : ℕ) : s.allocateClientContext socket =
    (s.allocated, { s with
      constructed := s.constructed + if s.m_freeClientList = [] then 1 else 0
      m_freeClientList := s.m_freeClientList.tail
      client := Function.update s.client s.allocated
        { s.client s.allocated with m_socket := some socket } }) := by
  unfold allocateClientContext allocated
  cases hfree : s.m_freeClientList with
  | nil =>
    have hnew := h.fresh s.constructed le_rfl
    simp only [List.head?_nil, Option.getD_none, hnew, if_true]
    rfl
  | cons c rest => rfl

/-- The server when `handleAccept` has its context. -/
def seating (s : IocpServer) : IocpServer :=
  { s with
    accepts := s.accepts - 1
    sockets := s.sockets + 1
    m_nConnClientCnt := s.m_nConnClientCnt + 1
    counted := s.counted ++ [s.sockets]
    constructed := s.constructed + if s.m_freeClientList = [] then 1 else 0
    m_freeClientList := s.m_freeClientList.tail
    client := Function.update s.client s.allocated
      { s.client s.allocated with m_socket := some s.sockets } }

/-- The server before `postRecv`, when nobody closed the client. -/
def opened (s : IocpServer) (reposted : Bool) : IocpServer :=
  (((s.seating.enterIoLoop s.allocated).postAccept reposted).addClient s.allocated)

def refusing (s : IocpServer) (reposted : Bool) : IocpServer :=
  { s with
    accepts := s.accepts - 1
    sockets := s.sockets + 1
    closed := s.closed ++ [s.sockets] }.postAccept reposted

theorem closeClient_of_none {c : ℕ} (h : (s.client c).m_socket = none) (lingered : Bool) :
    s.closeClient c lingered = s := by rw [closeClient, h]

theorem closesocket_setClient (s : IocpServer) (c : ℕ) (cl : ClientContext) (socket : ℕ) (ok : Bool) :
    (s.setClient c cl).closesocket socket ok = (s.closesocket socket ok).setClient c cl := by
  cases ok <;> rfl

theorem closeClient_of_some {c socket : ℕ} (h : (s.client c).m_socket = some socket) (lingered : Bool) :
    s.closeClient c lingered =
      (s.setClient c { s.client c with m_socket := none }).closesocket socket lingered := by
  rw [closeClient, h]

theorem closesocket_client (s : IocpServer) (socket : ℕ) (ok : Bool) :
    (s.closesocket socket ok).client = s.client := by
  cases ok <;> rfl

theorem postAccept_client (s : IocpServer) (ok : Bool) : (s.postAccept ok).client = s.client := by
  cases ok <;> rfl

theorem opened_client (s : IocpServer) (reposted : Bool) : (s.opened reposted).client =
    Function.update s.client s.allocated { s.client s.allocated with
      m_socket := some s.sockets
      m_nPendingIoCnt := ((s.client s.allocated).m_nPendingIoCnt + 1) % 2 ^ 32 } := by
  show ((s.seating.enterIoLoop s.allocated).postAccept reposted).client = _
  rw [postAccept_client]
  simp only [enterIoLoop, setClient, seating, Function.update_self, Function.update_idem]
  rfl

theorem postRecv_of_some {c socket : ℕ} (h : (s.client c).m_socket = some socket) (ok : Bool) :
    s.postRecv c ok = if ok then
      (.successful, s.setClient c { s.client c with recvs := (s.client c).recvs + 1 }) else (.failed, s) := by
  have hcl : (s.client c).postRecv ok =
      if ok then (.successful, { s.client c with recvs := (s.client c).recvs + 1 })
      else (.failed, s.client c) := by
    unfold ClientContext.postRecv
    split
    · next hnone =>
      rw [h] at hnone
      cases hnone
    · rfl
  rw [postRecv, hcl]
  cases ok
  · simp [setClient]
  · rfl

theorem postRecv_of_none {c : ℕ} (h : (s.client c).m_socket = none) (ok : Bool) :
    s.postRecv c ok = (.invalidSocket, s) := by
  rw [postRecv, ClientContext.postRecv, h]
  simp [setClient]

theorem openClient_eq {c socket : ℕ} (h : (s.client c).m_socket = some socket) (o : Outcome) :
    s.openClient c o = if o.associated = false then s else
      let s := ((s.enterIoLoop c).postAccept o.reposted).addClient c
      if o.taken = false ∧ o.received = true then
        s.setClient c { s.client c with recvs := (s.client c).recvs + 1 }
      else (s.closeClient c o.lingered).releaseClientContext c := by
  have hsocket : ((((s.enterIoLoop c).postAccept o.reposted).addClient c).client c).m_socket = some socket := by
    show (((s.enterIoLoop c).postAccept o.reposted).client c).m_socket = _
    rw [postAccept_client]
    simp only [enterIoLoop, setClient, Function.update_self]
    exact h
  rw [openClient]
  by_cases ha : o.associated = false
  · rw [if_pos ha, if_pos ha]
  rw [if_neg ha, if_neg ha]
  simp only
  generalize ((s.enterIoLoop c).postAccept o.reposted).addClient c = s₁ at hsocket ⊢
  cases o.taken with
  | true =>
    -- `postRecv` finds no socket, and the second `CloseClient` does nothing.
    have hclosed : ((s₁.closeClient c o.lingered).client c).m_socket = none := by
      rw [closeClient_of_some hsocket, closesocket_client]
      simp only [setClient, Function.update_self]
    simp [postRecv_of_none hclosed, closeClient_of_none hclosed]
  | false =>
    simp only [Bool.false_eq_true, if_false, true_and, postRecv_of_some hsocket]
    cases o.received <;> simp

theorem handleAccept_eq (h : s.Ready) (o : Outcome) : s.handleAccept o =
    if s.m_nMaxConnClientCnt ≤ s.m_nConnClientCnt then s.refusing o.reposted
    else if o.associated = false then s.seating
    else if o.taken = false ∧ o.received = true then
      (s.opened o.reposted).setClient s.allocated
        { (s.opened o.reposted).client s.allocated with
          recvs := ((s.opened o.reposted).client s.allocated).recvs + 1 }
    else ((s.opened o.reposted).closeClient s.allocated o.lingered).releaseClientContext s.allocated := by
  have hlimit := h.limit
  rw [handleAccept]
  simp only [ge_iff_le]
  by_cases hmax : s.m_nMaxConnClientCnt ≤ s.m_nConnClientCnt
  · rw [if_pos hmax, if_pos hmax]
    rfl
  have hbuilt : ({ s with
      accepts := s.accepts - 1
      sockets := s.sockets + 1
      m_nConnClientCnt := (s.m_nConnClientCnt + 1) % 2 ^ 32
      counted := s.counted ++ [s.sockets] } : IocpServer).Built := ⟨h.spread.built.fresh, h.spread.built.free⟩
  have hcnt : (s.m_nConnClientCnt + 1) % 2 ^ 32 = s.m_nConnClientCnt + 1 := Nat.mod_eq_of_lt (by omega)
  have hsocket : (s.seating.client s.allocated).m_socket = some s.sockets := by
    simp only [seating, Function.update_self]
  rw [if_neg hmax, if_neg hmax, allocateClientContext_eq hbuilt]
  simp only [hcnt]
  exact openClient_eq hsocket o

theorem countDown_enterIoLoop (cl : ClientContext) :
    cl.enterIoLoop.countDown = cl.m_nPendingIoCnt % 2 ^ 32 := by
  unfold ClientContext.countDown ClientContext.enterIoLoop
  split_ifs with hzero <;> simp only at hzero ⊢ <;> omega

theorem Ready.not_mem (h : s.Ready) :
    s.allocated ∉ s.m_connectedClientList ∧ s.allocated ∉ s.m_freeClientList.tail := by
  rw [← List.count_eq_zero, ← List.count_eq_zero, allocated]
  cases hfree : s.m_freeClientList with
  | nil =>
    have hnone := h.spread.places_constructed
    rw [places, onLists] at hnone
    simp only [List.head?_nil, Option.getD_none, List.tail_nil, List.count_nil, and_true]
    omega
  | cons c rest =>
    have hone := h.spread.le_one c
    rw [places, onLists, hfree, List.count_cons_self] at hone
    simp only [List.head?_cons, Option.getD_some, List.tail_cons]
    omega

theorem releaseClientContext_eq {c n : ℕ} (h : (s.client c).countDown = n) :
    s.releaseClientContext c =
      if int32 n ≤ 0 then (s.setClient c { s.client c with m_nPendingIoCnt := n }).removeClient c
      else s.setClient c { s.client c with m_nPendingIoCnt := n } := by
  simp only [releaseClientContext, ClientContext.exitIoLoop, setClient, Function.update_self, h]

theorem released_eq (h : s.Ready) (reposted lingered : Bool) {n : ℕ}
    (hn : (s.client s.allocated).m_nPendingIoCnt % 2 ^ 32 = n) :
    ((s.opened reposted).closeClient s.allocated lingered).releaseClientContext s.allocated =
      { s with
        accepts := s.accepts - 1 + if reposted then 1 else 0
        sockets := s.sockets + 1
        m_nConnClientCnt := if lingered then s.m_nConnClientCnt else s.m_nConnClientCnt + 1
        counted := s.counted ++ [s.sockets]
        uncounted := s.uncounted ++ if lingered then [s.sockets] else []
        disconnected := s.disconnected ++ [s.sockets]
        closed := s.closed ++ if lingered then [s.sockets] else []
        constructed := s.constructed + if s.m_freeClientList = [] then 1 else 0
        m_connectedClientList := s.m_connectedClientList ++ if int32 n ≤ 0 then [] else [s.allocated]
        m_freeClientList := s.m_freeClientList.tail ++ if int32 n ≤ 0 then [s.allocated] else []
        client := Function.update s.client s.allocated
          { s.client s.allocated with m_socket := none, m_nPendingIoCnt := n } } := by
  have hsocket : ((s.opened reposted).client s.allocated).m_socket = some s.sockets := by
    rw [opened_client, Function.update_self]
  have hdown : ((((s.opened reposted).setClient s.allocated
      { (s.opened reposted).client s.allocated with m_socket := none }).closesocket s.sockets lingered).client
        s.allocated).countDown = n := by
    rw [closesocket_client, setClient, opened_client]
    simp only [Function.update_self]
    exact (countDown_enterIoLoop (s.client s.allocated)).trans hn
  have hne : ∀ a ∈ s.m_connectedClientList, ¬ a = s.allocated := fun a ha he => h.not_mem.1 (he ▸ ha)
  rw [closeClient_of_some hsocket, releaseClientContext_eq hdown]
  by_cases hlast : int32 n ≤ 0
  · -- The only reference is given back, so the context goes from one list to the other.
    cases reposted <;> cases lingered <;>
      simp [opened, addClient, postAccept, enterIoLoop, setClient, seating, closesocket,
        ClientContext.enterIoLoop, hlast, removeClient] <;> exact hne
  · cases reposted <;> cases lingered <;>
      simp [opened, addClient, postAccept, enterIoLoop, setClient, seating, closesocket,
        ClientContext.enterIoLoop, hlast]

theorem received_eq (s : IocpServer) (reposted : Bool) :
    (s.opened reposted).setClient s.allocated { (s.opened reposted).client s.allocated with
        recvs := ((s.opened reposted).client s.allocated).recvs + 1 } =
      { s with
        accepts := s.accepts - 1 + if reposted then 1 else 0
        sockets := s.sockets + 1
        m_nConnClientCnt := s.m_nConnClientCnt + 1
        counted := s.counted ++ [s.sockets]
        constructed := s.constructed + if s.m_freeClientList = [] then 1 else 0
        m_connectedClientList := s.m_connectedClientList ++ [s.allocated]
        m_freeClientList := s.m_freeClientList.tail
        client := Function.update s.client s.allocated { s.client s.allocated with
          m_socket := some s.sockets
          m_nPendingIoCnt := ((s.client s.allocated).m_nPendingIoCnt + 1) % 2 ^ 32
          recvs := (s.client s.allocated).recvs + 1 } } := by
  cases reposted <;>
    simp [opened, addClient, postAccept, enterIoLoop, setClient, seating, ClientContext.enterIoLoop]

/-! ### Exactly when -/

theorem accepts_iff (h : 0 < s.accepts) (reposted : Bool) :
    s.accepts - 1 + (if reposted then 1 else 0) = s.accepts ↔ reposted = true := by
  cases reposted
  · simp
    omega
  · simp
    omega

theorem refusing_allOrNothing (h : 0 < s.accepts) (reposted : Bool) :
    AllOrNothing s (s.refusing reposted) ↔ reposted = true := by
  have hrefuse : (s.refusing reposted).accepts = s.accepts - 1 + if reposted then 1 else 0 := by
    cases reposted <;> rfl
  constructor
  · intro hall
    exact (accepts_iff h reposted).mp (hrefuse.symm.trans hall.accepts)
  · intro hrep
    refine ⟨hrefuse.trans ((accepts_iff h reposted).mpr hrep), .inr ?_⟩
    rw [hrep]
    exact ⟨rfl, rfl, rfl, .inl ⟨rfl, rfl, rfl⟩⟩

/-- The early return keeps the socket and the count, and posts no accept. -/
theorem seating_not_allOrNothing (h : 0 < s.accepts) : ¬ AllOrNothing s s.seating := by
  intro hall
  have hlost : s.accepts - 1 = s.accepts := hall.accepts
  omega

theorem received_allOrNothing (h : 0 < s.accepts) (reposted : Bool) :
    AllOrNothing s ((s.opened reposted).setClient s.allocated { (s.opened reposted).client s.allocated with
      recvs := ((s.opened reposted).client s.allocated).recvs + 1 }) ↔
        reposted = true ∧ Unused (s.client s.allocated) := by
  rw [received_eq]
  constructor
  · rintro ⟨hacc, hest | hback⟩
    · have hrecvs := hest.recvs
      have hcount := hest.count
      simp only [Function.update_self] at hrecvs hcount
      exact ⟨(accepts_iff h reposted).mp hacc, Nat.succ.inj hrecvs, hcount⟩
    · exact absurd hback.counted (Nat.succ_ne_self _)
  · rintro ⟨hrep, hrecvs, hcount⟩
    refine ⟨(accepts_iff h reposted).mpr hrep, .inl ⟨?_, ?_, rfl, ?_, ?_⟩⟩
    · exact List.mem_append_right _ (List.mem_singleton.mpr rfl)
    all_goals simp only [Function.update_self]
    · rw [hrecvs]
    · exact hcount

theorem released_allOrNothing (h : s.Ready) (reposted lingered : Bool) :
    AllOrNothing s (((s.opened reposted).closeClient s.allocated lingered).releaseClientContext s.allocated) ↔
      reposted = true ∧ lingered = true ∧ int32 ((s.client s.allocated).m_nPendingIoCnt % 2 ^ 32) ≤ 0 := by
  rw [released_eq h reposted lingered rfl]
  constructor
  · rintro ⟨hacc, hest | hback⟩
    · have hsocket := hest.socket
      simp only [Function.update_self] at hsocket
      cases hsocket
    · refine ⟨(accepts_iff h.accepts reposted).mp hacc, ?_, ?_⟩
      · have hclosed := hback.closed
        by_contra hno
        simp [hno] at hclosed
      · have hconnected := hback.connected
        by_contra hno
        rw [if_neg hno, List.append_right_eq_self] at hconnected
        cases hconnected
  · rintro ⟨hrep, hling, hlast⟩
    refine ⟨(accepts_iff h.accepts reposted).mpr hrep, .inr ⟨?_, ?_, ?_, .inr ⟨?_, ?_⟩⟩⟩
    · simp only [hling, if_true]
    · simp only [hling, if_true]
    · simp only [hlast, if_true, List.append_nil]
    · simp only [hlast, if_true]
      exact List.mem_append_right _ (List.mem_singleton.mpr rfl)
    · simp only [Function.update_self]

theorem ready_of_run {app : App} {max : ℕ} (hmax : max < 2 ^ 32) {acts : List Act}
    (hrun : run (step app) (.new max) acts = some s) (haccepts : 0 < s.accepts) : s.Ready where
  spread := run_preserves Spread (.new max) (fun _ _ _ h hs' => h.step hs') hrun
  accepts := haccepts
  limit := (Booked.run hrun).limit.trans_lt hmax

/-- In whatever state the server comes to a completion of `AcceptEx`, `handleAccept` establishes the
connection or undoes all of it just when the next accept is posted, every socket that was taken on is
associated and, if need be, closed, and the context is not in use any more. -/
theorem handleAccept_allOrNothing_iff {app : App} {max : ℕ} (hmax : max < 2 ^ 32) {acts : List Act}
    (hrun : run (step app) (.new max) acts = some s) (haccepts : 0 < s.accepts) (o : Outcome) :
    AllOrNothing s (s.handleAccept o) ↔ s.Clean o := by
  have h := ready_of_run hmax hrun haccepts
  rw [handleAccept_eq h, Clean]
  by_cases hfull : s.m_nMaxConnClientCnt ≤ s.m_nConnClientCnt
  · rw [if_pos hfull, refusing_allOrNothing haccepts]
    simp only [hfull, true_or, and_true]
  rw [if_neg hfull]
  simp only [hfull, false_or]
  by_cases ha : o.associated = false
  · rw [if_pos ha]
    exact iff_of_false (seating_not_allOrNothing haccepts) (by simp [ha])
  rw [if_neg ha]
  rw [Bool.not_eq_false] at ha
  by_cases hr : o.taken = false ∧ o.received = true
  · rw [if_pos hr, received_allOrNothing haccepts]
    simp only [ha, hr, and_self, if_true, true_and]
  · rw [if_neg hr, released_allOrNothing h]
    simp only [ha, hr, if_false, true_and]

/-- The second connection, on the context that the first one left. -/
theorem handleAccept_allOrNothing_visit :
    ∃ s, run (step .echo) (new 1) visit = some s ∧ s.m_freeClientList = [0] ∧
      AllOrNothing s (s.handleAccept ⟨true, true, false, true, true⟩) := by
  have hend : (run (step .echo) (new 1) visit).any fun s => decide (s.m_freeClientList = [0] ∧
      0 < s.accepts ∧ s.Clean ⟨true, true, false, true, true⟩) := by decide +kernel
  obtain ⟨s, hs, hend⟩ := exists_of_any hend
  obtain ⟨hfree, haccepts, hclean⟩ := of_decide_eq_true hend
  exact ⟨s, hs, hfree, (handleAccept_allOrNothing_iff (by decide) hs haccepts _).mpr hclean⟩

/-- `associateWithCompletionPort` fails: nine accepts are left, and the socket is never closed. -/
theorem handleAccept_unassociated :
    ¬ AllOrNothing (new 2) ((new 2).handleAccept ⟨false, true, false, true, true⟩) := fun h =>
  absurd h.accepts (by decide)

/-! ### The same as steps of a worker -/

theorem eraseIdx_concat_length {α : Type} (l : List α) (a : α) : (l ++ [a]).eraseIdx l.length = l := by
  rw [List.eraseIdx_append_of_length_le le_rfl, Nat.sub_self]
  exact List.append_nil l

theorem run_refuse (app : App) (h0 : 0 < s.accepts) (hmax : s.m_nMaxConnClientCnt ≤ s.m_nConnClientCnt)
    (reposted : Bool) : run (step app) s [.accept, .acceptor s.acceptors.length true,
      .acceptor s.acceptors.length reposted] = some (s.refusing reposted) := by
  cases reposted <;>
    simp [run_cons, step, h0, acceptStep, hmax, refusing, postAccept, eraseIdx_concat_length]

theorem resume_last (codes : List Code) (code code' : Code) :
    resume (codes ++ [code]) codes.length code' = codes ++ if code' = [] then [] else [code'] := by
  unfold resume
  split_ifs
  · rw [eraseIdx_concat_length, List.append_nil]
  · rw [List.set_append_right _ _ le_rfl, Nat.sub_self]
    rfl

theorem run_seat (app : App) (h : s.Ready) (hmax : ¬ s.m_nMaxConnClientCnt ≤ s.m_nConnClientCnt) :
    run (step app) s [.accept, .acceptor s.acceptors.length true, .acceptor s.acceptors.length true,
      .acceptor s.acceptors.length true] = some (s.seating.setClient s.allocated
        { s.seating.client s.allocated with
          running := (s.client s.allocated).running ++ [[.associate]] }) := by
  have hlimit := h.limit
  have hcnt : (s.m_nConnClientCnt + 1) % 2 ^ 32 = s.m_nConnClientCnt + 1 := Nat.mod_eq_of_lt (by omega)
  have hbuilt : ({ s with
      accepts := s.accepts - 1
      sockets := s.sockets + 1
      m_nConnClientCnt := s.m_nConnClientCnt + 1
      counted := s.counted ++ [s.sockets] } : IocpServer).Built := ⟨h.spread.built.fresh, h.spread.built.free⟩
  have hlast (a : Stage × ℕ) : (s.acceptors ++ [a])[s.acceptors.length]? = some a := by simp
  have hset (a b : Stage × ℕ) : (s.acceptors ++ [a]).set s.acceptors.length b = s.acceptors ++ [b] := by simp
  have halloc := allocateClientContext_eq hbuilt s.sockets
  simp only [run_cons, run_nil, step, h.accepts, if_true, Option.bind_some, hlast, Option.map_some, acceptStep,
    ge_iff_le, hmax, if_false, hset, hcnt, eraseIdx_concat_length]
  rw [halloc]
  refine congrArg some ?_
  show ({ s.seating with acceptors := s.acceptors } : IocpServer).setClient s.allocated
    { s.seating.client s.allocated with running := (s.seating.client s.allocated).running ++ [[.associate]] } = _
  rw [show (s.seating.client s.allocated).running = (s.client s.allocated).running by
    simp only [seating, Function.update_self]]
  rfl

theorem outside_setClient (t : IocpServer) (c : ℕ) (cl : ClientContext) (ok : Bool) (instr : Instr) :
    (t.setClient c cl).outside c ok instr = (t.outside c ok instr).setClient c cl := by
  cases instr with
  | postAccept | closesocket => cases ok <;> rfl
  | removeClient =>
    by_cases h : c ∈ t.m_connectedClientList <;> simp only [outside, removeClient, setClient, h] <;> rfl
  | _ => rfl

section
variable {codes : List Code}

theorem run_last (app : App) {t : IocpServer} {c : ℕ} {cl : ClientContext} {instr : Instr} {code more : Code}
    (hrun : cl.running = codes ++ [instr :: code]) {ok : Bool} (hmore : (cl.exec app ok instr).2 = more)
    (acts : List Act) :
    run (step app) (t.setClient c cl) (.exec c codes.length ok :: acts) =
      run (step app) ((t.outside c ok instr).setClient c { (cl.exec app ok instr).1 with
        running := codes ++ if more ++ code = [] then [] else [more ++ code] }) acts := by
  subst hmore
  have hself : (t.setClient c cl).client c = cl := Function.update_self ..
  have hlast : (codes ++ [instr :: code])[codes.length]? = some (instr :: code) := by simp
  simp only [run_cons, step, hself, hrun, hlast, Option.bind_some, outside_setClient,
    cl.exec_running app ok instr, resume_last]
  simp only [setClient, Function.update_idem]

theorem run_done (app : App) {t : IocpServer} {c : ℕ} {cl : ClientContext} {instr : Instr}
    (hrun : cl.running = codes ++ [[instr]]) {ok : Bool} (hdone : (cl.exec app ok instr).2 = []) :
    run (step app) (t.setClient c cl) [.exec c codes.length ok] =
      some ((t.outside c ok instr).setClient c { (cl.exec app ok instr).1 with running := codes }) := by
  rw [run_last app hrun hdone]
  simp

theorem run_open (app : App) (s : IocpServer) (reposted : Bool) (acts : List Act) :
    run (step app) (s.seating.setClient s.allocated
        { s.seating.client s.allocated with running := codes ++ [[.associate]] })
      (.exec s.allocated codes.length true :: .exec s.allocated codes.length true ::
        .exec s.allocated codes.length reposted :: .exec s.allocated codes.length true :: acts) =
      run (step app) ((s.opened reposted).setClient s.allocated
        { (s.opened reposted).client s.allocated with running := codes ++ [[.postRecv]] }) acts := by
  rw [run_last app rfl rfl, run_last app rfl rfl, run_last app rfl rfl, run_last app rfl rfl]
  cases reposted <;>
    simp only [outside, opened, addClient, postAccept, enterIoLoop, setClient, Function.update_idem,
      Function.update_self, Bool.false_eq_true, if_false, if_true] <;> rfl

theorem opened_running (h : (s.client s.allocated).running = codes) (reposted : Bool) :
    ((s.opened reposted).client s.allocated).running = codes := by
  rw [opened_client, Function.update_self]
  exact h

theorem run_receive (app : App) (h : (s.client s.allocated).running = codes) (reposted : Bool) :
    run (step app) ((s.opened reposted).setClient s.allocated
        { (s.opened reposted).client s.allocated with running := codes ++ [[.postRecv]] })
      [.exec s.allocated codes.length true] = some ((s.opened reposted).setClient s.allocated
        { (s.opened reposted).client s.allocated with
          recvs := ((s.opened reposted).client s.allocated).recvs + 1 }) := by
  have hrun := opened_running h reposted
  have hsocket : ((s.opened reposted).client s.allocated).m_socket = some s.sockets := by
    rw [opened_client, Function.update_self]
  generalize (s.opened reposted).client s.allocated = cl at hrun hsocket ⊢
  cases cl
  subst hrun hsocket
  rw [run_done app rfl rfl]
  rfl

theorem run_exitIoLoop (app : App) (t : IocpServer) (c : ℕ) (cl : ClientContext) (of : Ref) :
    ∃ acts, run (step app) (t.setClient c { cl with running := cl.running ++ [[.exitIoLoop of]] }) acts =
      some ((t.setClient c cl).releaseClientContext c) := by
  have hself : (t.setClient c cl).client c = cl := Function.update_self ..
  have hidem (cl' : ClientContext) : (t.setClient c cl).setClient c cl' = t.setClient c cl' := by
    simp only [setClient, Function.update_idem]
  rw [releaseClientContext_eq rfl, hself, hidem]
  by_cases hlast : int32 cl.countDown ≤ 0
  · refine ⟨[.exec c cl.running.length true, .exec c cl.running.length true], ?_⟩
    have hmore (running : List Code) :
        (({ cl with running := running } : ClientContext).exec app true (.exitIoLoop of)).2 = [.removeClient] :=
      if_pos hlast
    rw [if_pos hlast, run_last app rfl (hmore _)]
    refine (run_done app (by rfl) (by rfl)).trans (congrArg some ?_)
    exact (outside_setClient t c _ true .removeClient).symm
  · refine ⟨[.exec c cl.running.length true], ?_⟩
    have hmore (running : List Code) :
        (({ cl with running := running } : ClientContext).exec app true (.exitIoLoop of)).2 = [] := if_neg hlast
    rw [if_neg hlast]
    exact run_done app (by rfl) (hmore _)

theorem run_release (app : App) (h : (s.client s.allocated).running = codes) (reposted lingered : Bool) :
    ∃ acts, run (step app) ((s.opened reposted).setClient s.allocated
        { (s.opened reposted).client s.allocated with running := codes ++ [[.postRecv]] }) acts =
      some (((s.opened reposted).closeClient s.allocated lingered).releaseClientContext s.allocated) := by
  have hrun := opened_running h reposted
  have hsocket : ((s.opened reposted).client s.allocated).m_socket = some s.sockets := by
    rw [opened_client, Function.update_self]
  rw [closeClient_of_some hsocket, closesocket_setClient]
  generalize (s.opened reposted).client s.allocated = cl at hrun hsocket ⊢
  generalize s.opened reposted = t
  obtain ⟨m_socket, m_nPendingIoCnt, m_inBuf, outLen, m_outBufQueue, recvs, sends, running⟩ := cl
  subst hrun hsocket
  obtain ⟨acts, hacts⟩ := run_exitIoLoop app (t.closesocket s.sockets lingered) s.allocated
    { m_socket := none, m_nPendingIoCnt := m_nPendingIoCnt, m_inBuf := m_inBuf, outLen := outLen,
      m_outBufQueue := m_outBufQueue, recvs := recvs, sends := sends, running := running } .recv
  refine ⟨.exec s.allocated running.length false :: .exec s.allocated running.length true ::
    .exec s.allocated running.length lingered :: acts, ?_⟩
  rw [run_last app rfl rfl, run_last app rfl rfl, run_last app rfl rfl]
  exact hacts

theorem run_drop (app : App) (h : (s.client s.allocated).running = codes) :
    run (step app) (s.seating.setClient s.allocated
        { s.seating.client s.allocated with running := codes ++ [[.associate]] })
      [.exec s.allocated codes.length false] = some s.seating := by
  have hrun : (s.seating.client s.allocated).running = codes := by
    simp only [seating, Function.update_self, h]
  have hsame : s.seating.setClient s.allocated (s.seating.client s.allocated) = s.seating := by
    rw [setClient, Function.update_eq_self]
  refine Eq.trans ?_ (congrArg some hsame)
  generalize s.seating.client s.allocated = cl at hrun ⊢
  cases cl
  subst hrun
  rw [run_done app rfl rfl]
  rfl

end

/-- Nobody comes in between: the worker takes `handleAccept` from its first to its last instruction. -/
theorem run_handleAccept (app : App) (h : s.Ready) (o : Outcome) (htaken : o.taken = false) :
    ∃ acts, run (step app) s acts = some (s.handleAccept o) := by
  rw [handleAccept_eq h]
  by_cases hmax : s.m_nMaxConnClientCnt ≤ s.m_nConnClientCnt
  · rw [if_pos hmax]
    exact ⟨_, run_refuse app h.accepts hmax o.reposted⟩
  rw [if_neg hmax]
  have hseat (acts : List Act) := run_append_of_eq (run_seat app h hmax) acts
  by_cases ha : o.associated = false
  · rw [if_pos ha]
    exact ⟨_, (hseat _).trans (run_drop app rfl)⟩
  rw [if_neg ha]
  cases hr : o.received with
  | true =>
    rw [if_pos ⟨htaken, rfl⟩]
    exact ⟨_, (hseat _).trans ((run_open app s o.reposted _).trans (run_receive app rfl o.reposted))⟩
  | false =>
    rw [if_neg (by simp)]
    obtain ⟨acts, hacts⟩ := run_release app (s := s) rfl o.reposted o.lingered
    exact ⟨_, (hseat _).trans ((run_open app s o.reposted acts).trans hacts)⟩

end IocpServer
end NetDemo.Server
