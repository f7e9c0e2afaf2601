import NetDemo.Server.Ledger
import NetDemo.Server.Invariant
import Mathlib.Algebra.BigOperators.Group.Finset.Piecewise
import Mathlib.Algebra.BigOperators.Group.List.Basic
import Mathlib.Algebra.Order.Group.Multiset
import Mathlib.Data.List.Perm.Basic
import Mathlib.Tactic.Abel

/-! Every step of the server is one entry of the ledger of its sockets, in all runs of all threads. -/

namespace NetDemo.Server
open Foundation Memory Http Client

section Weights
variable {M : Type} [AddCommMonoid M] (μ : Instr → M)

/-- What the instructions of all handlers of a context weigh. -/
def ClientContext.weigh (cl : ClientContext) : M := (cl.running.flatten.map μ).sum

def IocpServer.total (s : IocpServer) (f : ClientContext → M) : M :=
  ∑ c ∈ Finset.range s.constructed, f (s.client c)

theorem Goes.weigh {cl cl' : ClientContext} {instr : Instr} {code more : Code} {pre post : List Code}
    (h : Goes cl cl' instr code more pre post) :
    cl'.weigh μ + μ instr = cl.weigh μ + (more.map μ).sum := by
  have hflat : ((if more ++ code = [] then [] else [more ++ code]).flatten.map μ).sum =
      (more.map μ).sum + (code.map μ).sum := by
    split_ifs with hnil
    · obtain ⟨rfl, rfl⟩ := List.append_eq_nil_iff.mp hnil
      simp
    · simp
  simp only [ClientContext.weigh, h.before, h.after, List.flatten_append, List.flatten_cons, List.map_append,
    List.map_cons, List.sum_append, List.sum_cons, hflat]
  abel

theorem ClientContext.weigh_concat {cl cl' : ClientContext} {code : Code}
    (hrun : cl'.running = cl.running ++ [code]) : cl'.weigh μ = cl.weigh μ + (code.map μ).sum := by
  rw [weigh, weigh, hrun]
  simp

variable {s s' : IocpServer} (f : ClientContext → M)

theorem IocpServer.total_update {c : ℕ} {cl : ClientContext} (hc : c < s.constructed)
    (hcon : s'.constructed = s.constructed) (hclient : s'.client = Function.update s.client c cl) :
    s'.total f + f (s.client c) = s.total f + f cl := by
  have hcomp : (fun d => f (Function.update s.client c cl d)) = Function.update (f ∘ s.client) c (f cl) :=
    Function.comp_update ..
  have hmem := Finset.mem_range.mpr hc
  rw [total, hcon, hclient, hcomp, Finset.sum_update_of_mem hmem, total,
    Finset.sum_eq_add_sum_sdiff_singleton_of_mem hmem]
  simp only [Function.comp_apply]
  abel

theorem IocpServer.total_construct {cl : ClientContext} (hcon : s'.constructed = s.constructed + 1)
    (hclient : s'.client = Function.update s.client s.constructed cl) : s'.total f = s.total f + f cl := by
  rw [total, hcon, Finset.sum_range_succ, hclient, Function.update_self, total]
  congr 1
  refine Finset.sum_congr rfl fun d hd => ?_
  rw [Function.update_of_ne (Nat.ne_of_lt (Finset.mem_range.mp hd))]

end Weights

/-! ### Where the sockets are -/

/-- The socket that a `CloseClient` took. -/
def Instr.closing : Instr → Multiset ℕ
  | .closesocket socket => {socket}
  | _ => 0

def seat (m_socket : Option ℕ) : Multiset ℕ := m_socket.elim 0 ({·})

def ClientContext.held (cl : ClientContext) : Multiset ℕ := seat cl.m_socket + cl.weigh Instr.closing

/-- The sockets of the workers that stand at one place in `handleAccept`. -/
def standing (acceptors : Multiset (Stage × ℕ)) (stage : Stage) : Multiset ℕ :=
  (acceptors.filter (·.1 = stage)).map Prod.snd

def ClientContext.seated (cl : ClientContext) (socket : ℕ) : ClientContext :=
  { cl with m_socket := some socket, running := cl.running ++ [[.associate]] }

theorem ClientContext.weigh_seated {M : Type} [AddCommMonoid M] (μ : Instr → M) (cl : ClientContext)
    (socket : ℕ) : (cl.seated socket).weigh μ = cl.weigh μ + μ .associate := by
  have hweigh := @weigh_concat _ _ μ cl (cl.seated socket) [.associate] rfl
  simpa using hweigh

namespace IocpServer

def allocated (s : IocpServer) : ℕ := s.m_freeClientList.head?.getD s.constructed

def ledger (s : IocpServer) : Ledger where
  arriving := standing s.acceptors .testLimit
  admitted := standing s.acceptors .countClient
  seating := standing s.acceptors .allocate
  held := s.total ClientContext.held
  closed := s.closed
  disconnected := s.disconnected
  counted := s.counted
  uncounted := s.uncounted
  sockets := s.sockets
  cnt := s.m_nConnClientCnt
  limit := s.m_nMaxConnClientCnt

/-- What a step means for the sockets. -/
def entry (s : IocpServer) : Act → Entry
  | .accept => .accept
  | .acceptor i _ =>
    match s.acceptors[i]? with
    | some (.testLimit, socket) =>
      if s.m_nConnClientCnt ≥ s.m_nMaxConnClientCnt then .refuse socket else .pass socket
    | some (.countClient, socket) => .count socket
    | some (.allocate, socket) => .seat socket (s.client s.allocated).m_socket
    | _ => .stay
  | .exec c i ok =>
    match s.next? c i with
    | some (.closesocket socket) => .close socket ok
    | _ => .stay
  | _ => .stay

/-- Contexts that were not constructed are not used. -/
structure Built (s : IocpServer) : Prop where
  fresh : ∀ c, s.constructed ≤ c → s.client c = .new
  free : ∀ c ∈ s.m_freeClientList, c < s.constructed

end IocpServer

theorem standing_cons (a : Stage × ℕ) (acceptors : Multiset (Stage × ℕ)) (stage : Stage) :
    standing (a ::ₘ acceptors) stage =
      if a.1 = stage then a.2 ::ₘ standing acceptors stage else standing acceptors stage := by
  unfold standing
  rw [Multiset.filter_cons]
  split_ifs <;> simp

theorem coe_of_getElem? {acceptors : List (Stage × ℕ)} {i : ℕ} {a : Stage × ℕ}
    (h : acceptors[i]? = some a) : (acceptors : Multiset (Stage × ℕ)) = a ::ₘ ↑(acceptors.eraseIdx i) ∧
      ∀ b, (acceptors.set i b : Multiset (Stage × ℕ)) = b ::ₘ ↑(acceptors.eraseIdx i) := by
  obtain ⟨hi, rfl⟩ := List.getElem?_eq_some_iff.mp h
  exact ⟨Multiset.coe_eq_coe.mpr (List.getElem_cons_eraseIdx_perm hi).symm,
    fun b => Multiset.coe_eq_coe.mpr (List.set_perm_cons_eraseIdx hi b)⟩

theorem add_singleton (s : Multiset ℕ) (x : ℕ) : s + {x} = x ::ₘ s := by
  rw [Multiset.add_comm, Multiset.singleton_add]

theorem coe_concat {α : Type} (l : List α) (x : α) : ((l ++ [x] : List α) : Multiset α) = x ::ₘ l :=
  Multiset.coe_eq_coe.mpr (List.perm_append_singleton x l)

/-! ### One instruction -/

/-- An instruction that neither a new connection nor the end of one comes with. -/
def Instr.plain : Instr → Bool
  | .associate | .enterIoLoop | .postAccept | .addClient | .closesocket _ => false
  | _ => true

theorem sum_plain {M : Type} [AddCommMonoid M] {μ : Instr → M} (hμ : ∀ instr, instr.plain → μ instr = 0)
    {code : Code} (h : code.all Instr.plain) : (code.map μ).sum = 0 := by
  refine List.sum_eq_zero fun a ha => ?_
  obtain ⟨instr, hmem, rfl⟩ := List.mem_map.mp ha
  exact hμ instr (List.all_eq_true.mp h instr hmem)

theorem closing_eq_zero {instr : Instr} (h : ∀ socket, instr ≠ .closesocket socket) : instr.closing = 0 := by
  cases instr with
  | closesocket socket => exact absurd rfl (h socket)
  | _ => rfl

theorem closing_plain (instr : Instr) (h : instr.plain) : instr.closing = 0 := by
  refine closing_eq_zero fun socket hinstr => ?_
  rw [hinstr] at h
  cases h

namespace ClientContext

theorem exitIoLoop_plain (cl : ClientContext) : cl.exitIoLoop.1.m_socket = cl.m_socket ∧
    cl.exitIoLoop.2.all Instr.plain := by
  unfold exitIoLoop
  split_ifs <;> exact ⟨rfl, rfl⟩

theorem reply_plain (w size : ℕ) (ret : ℤ) (codec : HttpCodec) :
    (reply w size ret codec).all Instr.plain := by
  unfold reply
  split_ifs <;> rfl

theorem exec_plain {instr : Instr} (ha : instr ≠ .associate) (he : instr ≠ .enterIoLoop)
    (hc : instr ≠ .closeClient) (app : App) (cl : ClientContext) (ok : Bool) :
    (cl.exec app ok instr).1.m_socket = cl.m_socket ∧ (cl.exec app ok instr).2.all Instr.plain := by
  cases instr with
  | associate => exact absurd rfl ha
  | enterIoLoop => exact absurd rfl he
  | closeClient => exact absurd rfl hc
  | postRecv => rcases cl.exec_postRecv app ok with hexec | hexec <;> rw [hexec] <;> exact ⟨rfl, rfl⟩
  | postSend =>
    rcases cl.exec_postSend app ok with hexec | hexec | ⟨-, hexec⟩ <;> rw [hexec] <;> exact ⟨rfl, rfl⟩
  | receive d => cases app <;> exact ⟨rfl, rfl⟩
  | decode w size codec => exact ⟨rfl, reply_plain ..⟩
  | send len =>
    simp only [exec]
    split_ifs <;> exact ⟨rfl, rfl⟩
  | handleSend n =>
    by_cases hout : 0 = cl.outLen - n
    · simp only [exec, if_pos hout]
      cases cl.m_outBufQueue with
      | nil => exact exitIoLoop_plain _
      | cons front rest => by_cases hfront : 0 ≠ front <;> simp [hfront, Instr.plain]
    · simp [exec, hout, Instr.plain]
  | exitIoLoop of => exact exitIoLoop_plain cl
  | _ => exact ⟨rfl, rfl⟩

theorem exec_socket {instr : Instr} (h : instr ≠ .closeClient) (app : App) (cl : ClientContext) (ok : Bool) :
    (cl.exec app ok instr).1.m_socket = cl.m_socket := by
  by_cases ha : instr = .associate
  · rw [ha]
    rfl
  by_cases he : instr = .enterIoLoop
  · rw [he]
    rfl
  exact (exec_plain ha he h app cl ok).1

theorem exec_seat (app : App) (cl : ClientContext) (ok : Bool) (instr : Instr) :
    seat (cl.exec app ok instr).1.m_socket + ((cl.exec app ok instr).2.map Instr.closing).sum =
      seat cl.m_socket := by
  by_cases hc : instr = .closeClient
  · rw [hc]
    cases hs : cl.m_socket <;> simp [exec, hs, seat, Instr.closing]
  rw [exec_socket hc]
  by_cases ha : instr = .associate
  · rw [ha]
    cases ok <;> exact add_zero _
  by_cases he : instr = .enterIoLoop
  · rw [he]
    exact add_zero _
  rw [sum_plain closing_plain (exec_plain ha he hc app cl ok).2, add_zero]

end ClientContext

theorem Goes.held {app : App} {cl cl' : ClientContext} {ok : Bool} {instr : Instr} {code : Code}
    {pre post : List Code} (h : Goes cl cl' instr code (cl.exec app ok instr).2 pre post)
    (hsocket : cl'.m_socket = (cl.exec app ok instr).1.m_socket) :
    cl'.held + instr.closing = cl.held := by
  rw [ClientContext.held, ClientContext.held, hsocket, ← cl.exec_seat app ok instr, add_assoc, h.weigh]
  abel

/-! ### One step -/

theorem outside_eq {instr : Instr} (h : ∀ socket, instr ≠ .closesocket socket) (s : IocpServer) (c : ℕ)
    (ok : Bool) : ∃ accepts conn free, s.outside c ok instr =
      { s with accepts := accepts, m_connectedClientList := conn, m_freeClientList := free } := by
  cases instr with
  | postAccept => cases ok <;> exact ⟨_, _, _, rfl⟩
  | addClient => exact ⟨_, _, _, rfl⟩
  | removeClient =>
    simp only [IocpServer.outside, IocpServer.removeClient]
    split_ifs <;> exact ⟨_, _, _, rfl⟩
  | closesocket socket => exact absurd rfl (h socket)
  | _ => exact ⟨s.accepts, s.m_connectedClientList, s.m_freeClientList, rfl⟩

theorem outside_client (s : IocpServer) (c : ℕ) (ok : Bool) (instr : Instr) :
    (s.outside c ok instr).client = s.client ∧ (s.outside c ok instr).constructed = s.constructed ∧
      (s.outside c ok instr).acceptors = s.acceptors := by
  by_cases h : ∀ socket, instr ≠ .closesocket socket
  · obtain ⟨accepts, conn, free, hout⟩ := outside_eq h s c ok
    rw [hout]
    exact ⟨rfl, rfl, rfl⟩
  · push Not at h
    obtain ⟨socket, rfl⟩ := h
    cases ok <;> exact ⟨rfl, rfl, rfl⟩

theorem client_setClient_outside (s : IocpServer) (c : ℕ) (ok : Bool) (instr : Instr) (cl : ClientContext) :
    ((s.outside c ok instr).setClient c cl).client = Function.update s.client c cl := by
  rw [← (outside_client s c ok instr).1]
  rfl

theorem mem_outside_free {s : IocpServer} {c d : ℕ} {ok : Bool} {instr : Instr}
    (h : d ∈ (s.outside c ok instr).m_freeClientList) : d ∈ s.m_freeClientList ∨ d = c := by
  cases instr with
  | postAccept => cases ok <;> exact .inl h
  | closesocket socket => cases ok <;> exact .inl h
  | removeClient =>
    simp only [IocpServer.outside, IocpServer.removeClient] at h
    split_ifs at h
    · exact (List.mem_append.mp h).imp_right List.mem_singleton.mp
    · exact .inl h
  | _ => exact .inl h

namespace IocpServer
variable {app : App} {s s' : IocpServer}

theorem step_exec {c i : ℕ} {ok : Bool} (h : s.step app (.exec c i ok) = some s') :
    ∃ instr code pre post cl, (s.client c).running[i]? = some (instr :: code) ∧
      Goes (s.client c) cl instr code ((s.client c).exec app ok instr).2 pre post ∧
      cl.m_socket = ((s.client c).exec app ok instr).1.m_socket ∧
      s' = (s.outside c ok instr).setClient c cl := by
  simp only [step] at h
  split at h
  swap
  · cases h
  next instr code hi =>
  obtain rfl := Option.some.inj h
  obtain ⟨pre, post, hrun, hres⟩ := resume_split hi
  refine ⟨instr, code, pre, post, { ((s.client c).exec app ok instr).1 with
    running := resume ((s.client c).exec app ok instr).1.running i
      (((s.client c).exec app ok instr).2 ++ code) }, hi, ⟨hrun, ?_⟩, rfl, rfl⟩
  rw [ClientContext.exec_running]
  exact hres _

theorem step_complete {act : Act} (hact : (∃ c d, act = .recv c d) ∨ ∃ c j n, act = .send c j n)
    (h : s.step app act = some s') : ∃ c cl code, s.client c ≠ .new ∧ s' = s.setClient c cl ∧
      cl.m_socket = (s.client c).m_socket ∧ cl.running = (s.client c).running ++ [code] ∧
      code.all Instr.plain := by
  rcases hact with ⟨c, d, rfl⟩ | ⟨c, j, n, rfl⟩
  · simp only [step] at h
    split_ifs at h with hok
    obtain rfl := Option.some.inj h
    refine ⟨c, _, _, fun hnew => ?_, rfl, rfl, rfl, by cases d <;> rfl⟩
    rw [hnew] at hok
    exact absurd hok.1 (Nat.lt_irrefl 0)
  · simp only [step] at h
    split at h
    · cases h
    next len hj =>
    split_ifs at h
    obtain rfl := Option.some.inj h
    refine ⟨c, _, _, fun hnew => ?_, rfl, rfl, rfl, by cases n <;> rfl⟩
    rw [hnew] at hj
    cases hj

/-- The contexts and the lists stay as they are. -/
structure Aside (s s' : IocpServer) : Prop where
  client : s'.client = s.client
  constructed : s'.constructed = s.constructed
  connected : s'.m_connectedClientList = s.m_connectedClientList
  free : s'.m_freeClientList = s.m_freeClientList
  disconnected : s'.disconnected = s.disconnected

/-- What a step does to the contexts. -/
inductive Effect (app : App) (s s' : IocpServer) : Act → Prop
  | aside {act : Act} : Aside s s' → Effect app s s' act
  | allocate {i socket : ℕ} {ok : Bool} : s' = s.acceptStep i ok (.allocate, socket) →
      Effect app s s' (.acceptor i ok)
  | handler {act : Act} {c : ℕ} {cl : ClientContext} {code : Code} : s.client c ≠ .new →
      s' = s.setClient c cl → cl.m_socket = (s.client c).m_socket →
      cl.running = (s.client c).running ++ [code] → code.all Instr.plain → Effect app s s' act
  | exec {c i : ℕ} {ok : Bool} {instr : Instr} {code : Code} {pre post : List Code} {cl : ClientContext} :
      (s.client c).running[i]? = some (instr :: code) →
      Goes (s.client c) cl instr code ((s.client c).exec app ok instr).2 pre post →
      cl.m_socket = ((s.client c).exec app ok instr).1.m_socket →
      s' = (s.outside c ok instr).setClient c cl → Effect app s s' (.exec c i ok)

theorem step_effect {act : Act} (h : s.step app act = some s') : Effect app s s' act := by
  cases act with
  | accept =>
    simp only [step] at h
    split_ifs at h
    obtain rfl := Option.some.inj h
    exact .aside ⟨rfl, rfl, rfl, rfl, rfl⟩
  | acceptor i ok =>
    obtain ⟨⟨stage, socket⟩, -, rfl⟩ := Option.map_eq_some_iff.mp h
    cases stage with
    | testLimit =>
      apply Effect.aside
      simp only [acceptStep]
      split_ifs <;> exact ⟨rfl, rfl, rfl, rfl, rfl⟩
    | countClient => exact .aside ⟨rfl, rfl, rfl, rfl, rfl⟩
    | allocate => exact .allocate rfl
    | postAccept => cases ok <;> exact .aside ⟨rfl, rfl, rfl, rfl, rfl⟩
  | recv c d =>
    obtain ⟨c, cl, code, hne, hs', hsocket, hrun, hcode⟩ := step_complete (.inl ⟨c, d, rfl⟩) h
    exact .handler hne hs' hsocket hrun hcode
  | send c j n =>
    obtain ⟨c, cl, code, hne, hs', hsocket, hrun, hcode⟩ := step_complete (.inr ⟨c, j, n, rfl⟩) h
    exact .handler hne hs' hsocket hrun hcode
  | exec c i ok =>
    obtain ⟨instr, code, pre, post, cl, hi, hgo, hsocket, hs'⟩ := step_exec h
    exact .exec hi hgo hsocket hs'

namespace Built

theorem new (max : ℕ) : Built (.new max) := ⟨fun _ _ => rfl, by simp [IocpServer.new]⟩

theorem lt_of_ne (h : s.Built) {c : ℕ} (hc : s.client c ≠ .new) : c < s.constructed :=
  not_le.mp fun hle => hc (h.fresh c hle)

theorem lt_of_running (h : s.Built) {c i : ℕ} {code : Code} (hi : (s.client c).running[i]? = some code) :
    c < s.constructed := by
  refine h.lt_of_ne fun hnew => ?_
  rw [hnew] at hi
  cases hi

theorem update (h : s.Built) {c : ℕ} {cl : ClientContext} (hc : c < s'.constructed)
    (hcon : s.constructed ≤ s'.constructed) (hclient : s'.client = Function.update s.client c cl)
    (hfree : ∀ d ∈ s'.m_freeClientList, d ∈ s.m_freeClientList ∨ d = c) : s'.Built where
  fresh d hd := by
    rw [hclient, Function.update_of_ne (by omega)]
    exact h.fresh d (by omega)
  free d hd := by
    rcases hfree d hd with hmem | rfl
    · exact (h.free d hmem).trans_le hcon
    · exact hc

theorem allocate (h : s.Built) (i socket : ℕ) (ok : Bool) : s.acceptStep i ok (.allocate, socket) = { s with
    acceptors := s.acceptors.eraseIdx i
    constructed := s.constructed + if s.m_freeClientList = [] then 1 else 0
    m_freeClientList := s.m_freeClientList.tail
    client := Function.update s.client s.allocated ((s.client s.allocated).seated socket) } := by
  cases hfree : s.m_freeClientList with
  | nil =>
    have hnew := h.fresh s.constructed le_rfl
    rw [acceptStep_allocate_nil hfree, allocated, hfree, List.head?_nil, Option.getD_none, hnew, if_pos rfl]
    rfl
  | cons c rest =>
    rw [acceptStep_allocate_cons hfree, allocated, hfree]
    rfl

theorem allocated_lt (h : s.Built) :
    s.allocated < s.constructed + if s.m_freeClientList = [] then 1 else 0 := by
  unfold allocated
  cases hfree : s.m_freeClientList with
  | nil => exact Nat.lt_succ_self _
  | cons c rest => exact h.free c (by rw [hfree]; exact List.mem_cons_self)

theorem step (h : s.Built) {act : Act} (hs' : s.step app act = some s') : s'.Built := by
  cases step_effect hs' with
  | aside haside =>
    refine ⟨?_, ?_⟩
    · rw [haside.client, haside.constructed]
      exact h.fresh
    · rw [haside.free, haside.constructed]
      exact h.free
  | allocate hs =>
    rw [hs, h.allocate]
    exact h.update h.allocated_lt (Nat.le_add_right ..) rfl fun d hd => .inl (List.mem_of_mem_tail hd)
  | handler hne hs =>
    rw [hs]
    exact h.update (h.lt_of_ne hne) le_rfl rfl fun d hd => .inl hd
  | @exec c i ok instr code pre post cl hi hgo hsocket hs =>
    have hcon := (outside_client s c ok instr).2.1
    rw [hs]
    exact h.update ((h.lt_of_running hi).trans_eq hcon.symm) (le_of_eq hcon.symm)
      (client_setClient_outside s c ok instr cl) fun d hd => mem_outside_free hd

end Built

/-! ### The refinement -/

theorem mem_held (h : s.Built) {c x : ℕ} (hx : (s.client c).m_socket = some x) : x ∈ s.ledger.held := by
  have hmem : x ∈ (s.client c).held := by
    rw [ClientContext.held, hx]
    exact Multiset.mem_add.mpr (.inl (Multiset.mem_singleton_self x))
  have hc : c < s.constructed := h.lt_of_ne fun hnew => by
    rw [hnew] at hx
    cases hx
  exact Multiset.mem_sum.mpr ⟨c, Finset.mem_range.mpr hc, hmem⟩

theorem total_exec {M : Type} [AddCommMonoid M] (f : ClientContext → M) {c : ℕ} (hc : c < s.constructed)
    (ok : Bool) (instr : Instr) (cl : ClientContext) :
    ((s.outside c ok instr).setClient c cl).total f + f (s.client c) = s.total f + f cl :=
  total_update f hc (outside_client s c ok instr).2.1 (client_setClient_outside s c ok instr cl)

theorem total_handler {M : Type} [AddCommMonoid M] [IsRightCancelAdd M] {μ : Instr → M}
    (hμ : ∀ instr, instr.plain → μ instr = 0) (h : s.Built) {c : ℕ} {cl : ClientContext} {code : Code}
    (hne : s.client c ≠ .new)
    (hrun : cl.running = (s.client c).running ++ [code]) (hcode : code.all Instr.plain) :
    (s.setClient c cl).total (ClientContext.weigh μ) = s.total (ClientContext.weigh μ) := by
  have htotal := @total_update _ _ s (s.setClient c cl) (ClientContext.weigh μ) c cl (h.lt_of_ne hne) rfl rfl
  rw [ClientContext.weigh_concat μ hrun, sum_plain hμ hcode, add_zero] at htotal
  exact add_right_cancel htotal

theorem held_exec (h : s.Built) {c i : ℕ} {ok : Bool} {instr : Instr} {code : Code} {pre post : List Code}
    {cl : ClientContext} (hi : (s.client c).running[i]? = some (instr :: code))
    (hgo : Goes (s.client c) cl instr code ((s.client c).exec app ok instr).2 pre post)
    (hsocket : cl.m_socket = ((s.client c).exec app ok instr).1.m_socket) :
    ((s.outside c ok instr).setClient c cl).ledger.held + instr.closing = s.ledger.held := by
  have htotal := total_exec ClientContext.held (h.lt_of_running hi) ok instr cl
  rw [← hgo.held hsocket, ← add_assoc, add_right_comm] at htotal
  exact add_right_cancel htotal

theorem step_ledger_exec (h : s.Built) {c i : ℕ} {ok : Bool} (hs' : s.step app (.exec c i ok) = some s') :
    s.ledger.Fits (s.entry (.exec c i ok)) ∧ s'.ledger = s.ledger.next (s.entry (.exec c i ok)) := by
  obtain ⟨instr, code, pre, post, cl, hi, hgo, hsocket, rfl⟩ := step_exec hs'
  have hheld := held_exec h hi hgo hsocket
  have hnext : s.next? c i = some instr := next?_eq_some.mpr ⟨code, hi⟩
  -- All other instructions leave the ledger alone.
  by_cases hclose : ∀ socket, instr ≠ .closesocket socket
  · obtain ⟨accepts, conn, free, hout⟩ := outside_eq hclose s c ok
    have hentry : s.entry (.exec c i ok) = .stay := by
      cases instr with
      | closesocket socket => exact absurd rfl (hclose socket)
      | _ => simp only [entry, hnext]
    rw [closing_eq_zero hclose, add_zero, hout] at hheld
    rw [hentry, hout]
    exact ⟨trivial, Ledger.ext rfl rfl rfl hheld rfl rfl rfl rfl rfl rfl rfl⟩
  · push Not at hclose
    obtain ⟨socket, rfl⟩ := hclose
    have hentry : s.entry (.exec c i ok) = .close socket ok := by simp only [entry, hnext]
    have hcons : s.ledger.held = socket ::ₘ
        ((s.outside c ok (.closesocket socket)).setClient c cl).ledger.held := by
      rw [← add_singleton]
      exact hheld.symm
    have herase := congrArg (Multiset.erase · socket) hcons
    rw [Multiset.erase_cons_head] at herase
    rw [hentry]
    refine ⟨?_, ?_⟩
    · show socket ∈ s.ledger.held
      rw [hcons]
      exact Multiset.mem_cons_self ..
    · cases ok with
      | false => exact Ledger.ext rfl rfl rfl herase.symm rfl (coe_concat ..) rfl rfl rfl rfl rfl
      | true =>
        exact Ledger.ext rfl rfl rfl herase.symm (coe_concat ..) (coe_concat ..) rfl (coe_concat ..) rfl rfl rfl

theorem step_ledger_complete (h : s.Built) {act : Act}
    (hact : (∃ c d, act = .recv c d) ∨ ∃ c j n, act = .send c j n) (hs' : s.step app act = some s') :
    s'.ledger = s.ledger := by
  obtain ⟨c, cl, code, hne, rfl, hsocket, hrun, hcode⟩ := step_complete hact hs'
  have hheld : cl.held = (s.client c).held := by
    rw [ClientContext.held, ClientContext.held, hsocket, ClientContext.weigh_concat _ hrun,
      sum_plain closing_plain hcode, add_zero]
  have htotal := @total_update _ _ s (s.setClient c cl) ClientContext.held c cl (h.lt_of_ne hne) rfl rfl
  rw [hheld] at htotal
  exact Ledger.ext rfl rfl rfl (add_right_cancel htotal) rfl rfl rfl rfl rfl rfl rfl

theorem total_allocate {M : Type} [AddCommMonoid M] (h : s.Built) {f : ClientContext → M} (hf : f .new = 0)
    (i socket : ℕ) (ok : Bool) :
    (s.acceptStep i ok (.allocate, socket)).total f + f (s.client s.allocated) =
      s.total f + f ((s.client s.allocated).seated socket) := by
  rw [h.allocate]
  by_cases hfree : s.m_freeClientList = []
  · have hnew : s.allocated = s.constructed := by
      rw [allocated, hfree]
      rfl
    rw [hnew, h.fresh _ le_rfl, hf, add_zero]
    exact total_construct f (congrArg (s.constructed + ·) (if_pos hfree)) rfl
  · have hlt := h.allocated_lt
    rw [if_neg hfree] at hlt
    exact total_update f hlt (congrArg (s.constructed + ·) (if_neg hfree)) rfl

theorem held_allocate (h : s.Built) (i socket : ℕ) (ok : Bool) :
    (s.acceptStep i ok (.allocate, socket)).ledger.held + seat (s.client s.allocated).m_socket =
      s.ledger.held + {socket} := by
  have htotal := total_allocate h (f := ClientContext.held) rfl i socket ok
  have hweigh : ((s.client s.allocated).seated socket).weigh Instr.closing =
      (s.client s.allocated).weigh Instr.closing :=
    (ClientContext.weigh_seated ..).trans (add_zero _)
  rw [ClientContext.held, ClientContext.held, hweigh, ← add_assoc, ← add_assoc] at htotal
  exact add_right_cancel htotal

theorem standing_acceptors {i socket : ℕ} {stage : Stage} (hi : s.acceptors[i]? = some (stage, socket))
    (stage' : Stage) : standing s.acceptors stage' =
      if stage = stage' then socket ::ₘ standing ↑(s.acceptors.eraseIdx i) stage'
      else standing ↑(s.acceptors.eraseIdx i) stage' := by
  rw [(coe_of_getElem? hi).1, standing_cons]

theorem standing_set {i socket : ℕ} {stage : Stage} (hi : s.acceptors[i]? = some (stage, socket))
    (next stage' : Stage) : standing ↑(s.acceptors.set i (next, socket)) stage' =
      if next = stage' then socket ::ₘ standing ↑(s.acceptors.eraseIdx i) stage'
      else standing ↑(s.acceptors.eraseIdx i) stage' := by
  rw [(coe_of_getElem? hi).2, standing_cons]

theorem step_ledger_acceptor (h : s.Built) {i : ℕ} {ok : Bool}
    (hs' : s.step app (.acceptor i ok) = some s') :
    s.ledger.Fits (s.entry (.acceptor i ok)) ∧ s'.ledger = s.ledger.next (s.entry (.acceptor i ok)) := by
  obtain ⟨⟨stage, socket⟩, hi, rfl⟩ := Option.map_eq_some_iff.mp hs'
  have hstand := standing_acceptors hi
  have hset := standing_set hi
  -- The worker leaves its place with the socket, and the others stay.
  have hmem : socket ∈ standing s.acceptors stage := by
    rw [hstand, if_pos rfl]
    exact Multiset.mem_cons_self ..
  have herase : standing ↑(s.acceptors.eraseIdx i) stage = (standing s.acceptors stage).erase socket := by
    rw [hstand, if_pos rfl, Multiset.erase_cons_head]
  have hother {stage' : Stage} (hne : stage ≠ stage') :
      standing ↑(s.acceptors.eraseIdx i) stage' = standing s.acceptors stage' := by
    rw [hstand, if_neg hne]
  cases stage with
  | testLimit =>
    by_cases hfull : s.m_nConnClientCnt ≥ s.m_nMaxConnClientCnt
    · have hentry : s.entry (.acceptor i ok) = .refuse socket := by simp only [entry, hi, if_pos hfull]
      rw [hentry, acceptStep, if_pos hfull]
      refine ⟨⟨hmem, hfull⟩, Ledger.ext ?_ ?_ ?_ rfl (coe_concat ..) rfl rfl rfl rfl rfl rfl⟩
      · exact (hset .postAccept .testLimit).trans herase
      · exact (hset .postAccept .countClient).trans (hother (by decide))
      · exact (hset .postAccept .allocate).trans (hother (by decide))
    · have hentry : s.entry (.acceptor i ok) = .pass socket := by simp only [entry, hi, if_neg hfull]
      rw [hentry, acceptStep, if_neg hfull]
      refine ⟨⟨hmem, not_le.mp hfull⟩, Ledger.ext ?_ ?_ ?_ rfl rfl rfl rfl rfl rfl rfl rfl⟩
      · exact (hset .countClient .testLimit).trans herase
      · exact (hset .countClient .countClient).trans (congrArg (socket ::ₘ ·) (hother (by decide)))
      · exact (hset .countClient .allocate).trans (hother (by decide))
  | countClient =>
    have hentry : s.entry (.acceptor i ok) = .count socket := by simp only [entry, hi]
    rw [hentry]
    refine ⟨hmem, Ledger.ext ?_ ?_ ?_ rfl rfl rfl (coe_concat ..) rfl rfl rfl rfl⟩
    · exact (hset .allocate .testLimit).trans (hother (by decide))
    · exact (hset .allocate .countClient).trans herase
    · exact (hset .allocate .allocate).trans (congrArg (socket ::ₘ ·) (hother (by decide)))
  | allocate =>
    have hheld := held_allocate h i socket ok
    have hentry : s.entry (.acceptor i ok) = .seat socket (s.client s.allocated).m_socket := by
      simp only [entry, hi]
    have hold : ∀ y ∈ (s.client s.allocated).m_socket, y ∈ s.ledger.held := fun y hy => mem_held h hy
    rw [hentry]
    generalize hm : (s.client s.allocated).m_socket = old at hheld hold ⊢
    refine ⟨⟨hmem, hold⟩, ?_⟩
    -- `allocateClientContext` overwrites the socket that the context had, if any.
    have hseat : (s.acceptStep i ok (.allocate, socket)).ledger.held =
        socket ::ₘ old.elim s.ledger.held s.ledger.held.erase := by
      cases old with
      | none => exact (add_zero _).symm.trans (hheld.trans (add_singleton ..))
      | some y =>
        refine add_right_cancel (b := {y}) (hheld.trans ?_)
        rw [Option.elim_some, add_singleton, add_singleton, Multiset.cons_swap,
          Multiset.cons_erase (hold y rfl)]
    rw [h.allocate] at hseat ⊢
    exact Ledger.ext (hother (by decide)) (hother (by decide)) herase hseat rfl rfl rfl rfl rfl rfl rfl
  | postAccept =>
    have hentry : s.entry (.acceptor i ok) = .stay := by simp only [entry, hi]
    rw [hentry]
    refine ⟨trivial, ?_⟩
    cases ok
    all_goals
      exact Ledger.ext (hother (by decide)) (hother (by decide)) (hother (by decide)) rfl rfl rfl rfl rfl rfl rfl rfl

theorem step_ledger (h : s.Built) {act : Act} (hs' : s.step app act = some s') :
    s.ledger.Fits (s.entry act) ∧ s'.ledger = s.ledger.next (s.entry act) := by
  cases act with
  | accept =>
    simp only [step] at hs'
    split_ifs at hs'
    obtain rfl := Option.some.inj hs'
    have hstand (stage : Stage) : standing ↑(s.acceptors ++ [(Stage.testLimit, s.sockets)]) stage =
        if Stage.testLimit = stage then s.sockets ::ₘ standing s.acceptors stage
        else standing s.acceptors stage := by
      rw [coe_concat, standing_cons]
    exact ⟨trivial, Ledger.ext (hstand .testLimit) (hstand .countClient) (hstand .allocate)
      rfl rfl rfl rfl rfl rfl rfl rfl⟩
  | acceptor i ok => exact step_ledger_acceptor h hs'
  | recv c d => exact ⟨trivial, step_ledger_complete h (.inl ⟨c, d, rfl⟩) hs'⟩
  | send c j n => exact ⟨trivial, step_ledger_complete h (.inr ⟨c, j, n, rfl⟩) hs'⟩
  | exec c i ok => exact step_ledger_exec h hs'

end IocpServer

/-! ### All runs -/

theorem Ledger.next_limit (l : Ledger) (e : Entry) : (l.next e).limit = l.limit := by
  cases e with
  | close x ok => cases ok <;> rfl
  | _ => rfl

/-- What holds of the ledger in every state, whatever the steps are. -/
structure Booked (max : ℕ) (s : IocpServer) : Prop where
  built : s.Built
  sound : s.ledger.Sound
  limit : s.m_nMaxConnClientCnt = max

namespace Booked
variable {app : App} {max : ℕ} {s s' : IocpServer}

theorem new (max : ℕ) : Booked max (.new max) where
  built := .new max
  sound := by
    refine ⟨fun x => ?_, rfl, Nat.pow_pos (by decide)⟩
    constructor <;> exact Nat.zero_le _
  limit := rfl

theorem step (h : Booked max s) {act : Act} (hs' : s.step app act = some s') : Booked max s' := by
  obtain ⟨hfit, hnext⟩ := IocpServer.step_ledger h.built hs'
  refine ⟨h.built.step hs', ?_, ?_⟩
  · rw [hnext]
    exact h.sound.next hfit
  · exact (congrArg Ledger.limit hnext).trans ((Ledger.next_limit ..).trans h.limit)

theorem run {acts : List Act} (hrun : run (IocpServer.step app) (.new max) acts = some s) : Booked max s :=
  run_preserves (Booked max) (.new max) (fun _ _ _ h hs' => h.step hs') hrun

end Booked

end NetDemo.Server
