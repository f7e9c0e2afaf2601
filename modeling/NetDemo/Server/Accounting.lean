import NetDemo.Server.Limit
import Mathlib.Algebra.Order.BigOperators.Group.Finset

/-! What becomes of every accepted socket, and whether `m_nConnClientCnt` stands for the open ones. -/

namespace NetDemo.Server
open Foundation Memory Http Client

/-! ### At most once -/

/-- No socket is closed, reported, counted or counted down twice, nor counted down before it is
counted. -/
structure ClosedOnce (s : IocpServer) : Prop where
  closed : s.closed.Nodup
  disconnected : s.disconnected.Nodup
  counted : s.counted.Nodup
  uncounted : s.uncounted.Nodup
  after : ∀ x ∈ s.uncounted, x ∈ s.counted

theorem Booked.closedOnce {max : ℕ} {s : IocpServer} (h : Booked max s) : ClosedOnce s := by
  have hone (x : ℕ) : s.closed.count x ≤ 1 ∧ s.disconnected.count x ≤ 1 ∧ s.counted.count x ≤ 1 ∧
      s.uncounted.count x ≤ s.counted.count x := by
    simpa only [IocpServer.ledger, Multiset.coe_count] using (h.sound.placed x).le_one
  refine ⟨?_, ?_, ?_, ?_, fun x hx => ?_⟩
  · exact List.nodup_iff_count_le_one.mpr fun x => (hone x).1
  · exact List.nodup_iff_count_le_one.mpr fun x => (hone x).2.1
  · exact List.nodup_iff_count_le_one.mpr fun x => (hone x).2.2.1
  · exact List.nodup_iff_count_le_one.mpr fun x => (hone x).2.2.2.trans (hone x).2.2.1
  · exact List.count_pos_iff.mp ((List.count_pos_iff.mpr hx).trans_le (hone x).2.2.2)

namespace IocpServer
variable {app : App} {s s' : IocpServer}

theorem mem_held_of_next? (h : s.Built) {c i x : ℕ} (hx : s.next? c i = some (.closesocket x)) :
    x ∈ s.ledger.held := by
  obtain ⟨code, hi⟩ := next?_eq_some.mp hx
  have hstep : ∃ s', s.step .echo (.exec c i true) = some s' := by
    simp only [IocpServer.step, hi]
    exact ⟨_, rfl⟩
  obtain ⟨s', hs'⟩ := hstep
  have hfit := (step_ledger_exec h hs').1
  simpa only [entry, hx, Ledger.Fits] using hfit

end IocpServer

/-- Whatever the threads do, every socket is closed and reported at most once, and the counter is
positive whenever it is about to be decremented (unless 2^32 sockets are open at once, which takes a
limit of that size). -/
theorem closedOnce_run {app : App} {max : ℕ} {acts : List Act} {s : IocpServer}
    (hrun : run (IocpServer.step app) (.new max) acts = some s) :
    ClosedOnce s ∧
      (max + POST_ACCEPT_CNT ≤ 2 ^ 32 ∨ s.counted.length - s.uncounted.length < 2 ^ 32 →
        ∀ c i x, s.next? c i = some (.closesocket x) → 0 < s.m_nConnClientCnt) := by
  have hbooked := Booked.run hrun
  refine ⟨hbooked.closedOnce, fun hopen c i x hx => ?_⟩
  have hlt := hbooked.sound.card_lt (IocpServer.mem_held_of_next? hbooked.built hx)
  rcases hopen with hmax | hlive
  · have hexact := (IocpServer.counted_run hmax hrun).within.exact
    show 0 < s.ledger.cnt
    omega
  · have hcnt : s.ledger.cnt = s.ledger.live := hbooked.sound.cnt_eq hlive
    show 0 < s.ledger.cnt
    unfold Ledger.live at hcnt
    omega

/-- The peer closes the connection, and the worker took the socket out of the context. -/
theorem closedOnce_run_connect : ∃ s,
    run (IocpServer.step .echo) (.new 1) (connect ++ [.recv 0 none, .exec 0 0 true]) = some s ∧
      ClosedOnce s ∧ 0 < s.m_nConnClientCnt := by
  have hclose : (run (IocpServer.step .echo) (.new 1) (connect ++ [.recv 0 none, .exec 0 0 true])).any
      fun s => decide (s.next? 0 0 = some (.closesocket 0)) := by
    decide +kernel
  obtain ⟨s, hs, hnext⟩ := exists_of_any hclose
  obtain ⟨honce, hpos⟩ := closedOnce_run hs
  exact ⟨s, hs, honce, hpos (.inl (by decide)) 0 0 0 (of_decide_eq_true hnext)⟩

/-! ### The contexts of the sockets -/

/-- `addClient` is still to come. -/
def Instr.adds : Instr → ℕ
  | .associate | .enterIoLoop | .addClient => 1
  | _ => 0

theorem adds_plain (instr : Instr) (h : instr.plain) : instr.adds = 0 := by
  cases instr with
  | associate | enterIoLoop | addClient => cases h
  | _ => rfl

/-- What the system answers is what it is asked for, and a context that is taken back has no socket. -/
def Instr.Granted (s : IocpServer) (c : ℕ) (ok : Bool) : Instr → Prop
  | .associate => ok = true
  | .closesocket _ => ok = true
  | .removeClient => c ∈ s.m_connectedClientList → (s.client c).m_socket = none
  | _ => True

instance (s : IocpServer) (c : ℕ) (ok : Bool) : DecidablePred (Instr.Granted s c ok)
  | .associate | .closesocket _ => inferInstanceAs (Decidable (ok = true))
  | .removeClient =>
    inferInstanceAs (Decidable (c ∈ s.m_connectedClientList → (s.client c).m_socket = none))
  | .enterIoLoop | .postAccept | .addClient | .postRecv | .receive _ | .decode .. | .send _ | .removeAll
  | .postSend | .handleSend _ | .closeClient | .exitIoLoop _ => .isTrue trivial

/-- Besides, the counter does not wrap above. -/
def Granted (s : IocpServer) : Act → Prop
  | .acceptor i _ => ∀ x, s.acceptors[i]? = some (.countClient, x) → s.m_nConnClientCnt + 1 < 2 ^ 32
  | .exec c i ok => ∀ instr, s.next? c i = some instr → instr.Granted s c ok
  | _ => True

instance (s : IocpServer) : DecidablePred (Granted s)
  | .acceptor i _ => decidable_of_iff ((s.acceptors[i]?).all fun
      | (.countClient, _) => s.m_nConnClientCnt + 1 < 2 ^ 32
      | _ => true) <| by
    rw [Option.all_eq_true]
    refine ⟨fun h x hi => of_decide_eq_true (h _ hi), fun h a hi => ?_⟩
    obtain ⟨stage, x⟩ := a
    cases stage with
    | countClient => exact decide_eq_true (h x hi)
    | _ => rfl
  | .exec c i ok => decidable_of_iff ((s.next? c i).all fun instr => instr.Granted s c ok) <| by
    rw [Option.all_eq_true]
    exact ⟨fun h instr hi => of_decide_eq_true (h instr hi), fun h instr hi => decide_eq_true (h instr hi)⟩
  | .accept | .recv .. | .send .. => .isTrue trivial

def IocpServer.onLists (s : IocpServer) (c : ℕ) : ℕ :=
  s.m_connectedClientList.count c + s.m_freeClientList.count c

/-- Every context is on one of the lists or on its way to the first, and on the free list without a
socket. -/
structure Listed (s : IocpServer) : Prop where
  once : ∀ c, s.onLists c + (s.client c).weigh Instr.adds = if c < s.constructed then 1 else 0
  empty : ∀ c ∈ s.m_freeClientList, (s.client c).m_socket = none

theorem ClientContext.exec_empty {cl : ClientContext} (h : cl.m_socket = none) (app : App) (ok : Bool)
    (instr : Instr) : (cl.exec app ok instr).1.m_socket = none := by
  have hseat := cl.exec_seat app ok instr
  rw [h] at hseat
  cases hs : (cl.exec app ok instr).1.m_socket with
  | none => rfl
  | some x =>
    have hmem : x ∈ seat (cl.exec app ok instr).1.m_socket + ((cl.exec app ok instr).2.map Instr.closing).sum := by
      rw [hs]
      exact Multiset.mem_add.mpr (.inl (Multiset.mem_singleton_self x))
    rw [hseat] at hmem
    exact absurd hmem (Multiset.notMem_zero x)

namespace Listed
variable {app : App} {s s' : IocpServer}

theorem new (max : ℕ) : Listed (.new max) := ⟨fun _ => rfl, by simp [IocpServer.new]⟩

theorem update (h : Listed s) {c : ℕ} {cl : ClientContext}
    (hclient : s'.client = Function.update s.client c cl)
    (hother : ∀ d, d ≠ c → s'.onLists d = s.onLists d ∧ (d < s'.constructed ↔ d < s.constructed))
    (hfree : ∀ d ∈ s'.m_freeClientList, d ∈ s.m_freeClientList ∨ d = c)
    (honce : s'.onLists c + cl.weigh Instr.adds = if c < s'.constructed then 1 else 0)
    (hempty : c ∈ s'.m_freeClientList → cl.m_socket = none) : Listed s' where
  once d := by
    rw [hclient]
    by_cases hd : d = c
    · rw [hd, Function.update_self]
      exact honce
    · obtain ⟨hlists, hbuilt⟩ := hother d hd
      rw [Function.update_of_ne hd, hlists, h.once d]
      simp only [hbuilt]
  empty d hmem := by
    rw [hclient]
    by_cases hd : d = c
    · rw [hd, Function.update_self]
      exact hempty (hd ▸ hmem)
    · rw [Function.update_of_ne hd]
      exact h.empty d ((hfree d hmem).resolve_right hd)

theorem once_le (h : Listed s) (c : ℕ) : s.onLists c + (s.client c).weigh Instr.adds ≤ 1 := by
  rw [h.once c]
  split_ifs <;> omega

theorem aside (h : Listed s) (haside : s.Aside s') : Listed s' where
  once c := by
    rw [haside.client, haside.constructed, IocpServer.onLists, haside.connected, haside.free]
    exact h.once c
  empty c := by
    rw [haside.client, haside.free]
    exact h.empty c

theorem allocate (h : Listed s) (hb : s.Built) (i x : ℕ) (ok : Bool) :
    Listed (s.acceptStep i ok (.allocate, x)) := by
  have honce := h.once s.allocated
  rw [hb.allocate]
  cases hlist : s.m_freeClientList with
  | nil =>
    -- A context that is constructed was on no list.
    have hnew : s.allocated = s.constructed := by
      rw [IocpServer.allocated, hlist]
      rfl
    rw [hnew, if_neg (lt_irrefl _)] at honce
    rw [hnew]
    refine h.update rfl (fun d hd => ⟨?_, ?_⟩) (fun d hd => by cases hd) ?_ fun hd => by cases hd
    · simp only [IocpServer.onLists, hlist, List.tail_nil]
    · simp only [if_true]
      omega
    · rw [ClientContext.weigh_seated]
      simp only [IocpServer.onLists, hlist, List.tail_nil, if_true] at honce ⊢
      rw [if_pos (Nat.lt_succ_self _)]
      show _ + (_ + 1) = 1
      omega
  | cons c rest =>
    have hhead : s.allocated = c := by
      rw [IocpServer.allocated, hlist]
      rfl
    have hlt : c < s.constructed := hb.free c (by rw [hlist]; exact List.mem_cons_self)
    -- It was on the free list once, and on no other one.
    rw [hhead, if_pos hlt] at honce
    simp only [IocpServer.onLists, hlist, List.count_cons_self] at honce
    have hrest : c ∉ rest := List.count_eq_zero.mp (by omega)
    rw [hhead]
    refine h.update rfl (fun d hd => ⟨?_, Iff.rfl⟩) (fun d hd => ?_) ?_ fun hd => absurd hd hrest
    · simp only [IocpServer.onLists, hlist, List.tail_cons, List.count_cons_of_ne hd.symm]
    · rw [hlist]
      exact .inl (List.mem_cons_of_mem _ hd)
    · rw [ClientContext.weigh_seated]
      simp only [IocpServer.onLists, List.tail_cons]
      rw [if_neg (List.cons_ne_nil c rest), if_pos (show c < s.constructed + 0 from hlt)]
      show _ + (_ + 1) = 1
      omega

theorem outside_onLists (s : IocpServer) (c : ℕ) (ok : Bool) (instr : Instr) {d : ℕ} (hd : d ≠ c) :
    (s.outside c ok instr).onLists d = s.onLists d := by
  cases instr with
  | postAccept => cases ok <;> rfl
  | closesocket x => cases ok <;> rfl
  | addClient =>
    simp only [IocpServer.outside, IocpServer.addClient, IocpServer.onLists, List.count_append,
      List.count_singleton, beq_eq_false_iff_ne.mpr hd.symm]
    rfl
  | removeClient =>
    simp only [IocpServer.outside, IocpServer.removeClient]
    split_ifs
    · simp only [IocpServer.onLists, List.count_append, List.count_singleton, beq_eq_false_iff_ne.mpr hd.symm]
      rw [List.count_filter (by simpa using hd)]
      rfl
    · rfl
  | _ => rfl

theorem outside_adds (h : Listed s) (app : App) {c : ℕ} {ok : Bool} {instr : Instr}
    (hgranted : instr.Granted s c ok) :
    (s.outside c ok instr).onLists c + (((s.client c).exec app ok instr).2.map Instr.adds).sum =
      s.onLists c + instr.adds := by
  cases instr with
  | associate =>
    obtain rfl : ok = true := hgranted
    rfl
  | enterIoLoop => rfl
  | postAccept => cases ok <;> rfl
  | addClient =>
    simp only [IocpServer.outside, IocpServer.addClient, IocpServer.onLists, List.count_append,
      List.count_singleton_self]
    show _ + 1 + _ + 0 = _ + _ + 1
    omega
  | removeClient =>
    have hle := h.once_le c
    simp only [IocpServer.outside, IocpServer.removeClient]
    split_ifs with hmem
    · have hpos := List.count_pos_iff.mpr hmem
      simp only [IocpServer.onLists] at hle
      simp only [IocpServer.onLists, List.count_append, List.count_singleton_self]
      have hzero : (s.m_connectedClientList.filter (· ≠ c)).count c = 0 :=
        List.count_eq_zero.mpr fun hc => by simpa using (List.mem_filter.mp hc).2
      rw [hzero]
      show _ + _ + 0 = _ + _ + 0
      omega
    · rfl
  | closesocket x => cases ok <;> rfl
  | closeClient =>
    cases hs : (s.client c).m_socket <;>
      simp [IocpServer.outside, ClientContext.exec, hs, Instr.adds]
  | _ =>
    rw [sum_plain adds_plain (ClientContext.exec_plain (by simp) (by simp) (by simp) app _ ok).2]
    rfl

theorem empty_of_outside (h : Listed s) {c : ℕ} {ok : Bool} {instr : Instr} (hgranted : instr.Granted s c ok)
    (hmem : c ∈ (s.outside c ok instr).m_freeClientList) : (s.client c).m_socket = none := by
  by_cases hfree : c ∈ s.m_freeClientList
  · exact h.empty c hfree
  · cases instr with
    | postAccept => cases ok <;> exact absurd hmem hfree
    | closesocket x => cases ok <;> exact absurd hmem hfree
    | removeClient =>
      by_cases hconn : c ∈ s.m_connectedClientList
      · exact hgranted hconn
      · apply absurd hmem
        simp only [IocpServer.outside, IocpServer.removeClient, if_neg hconn]
        exact hfree
    | _ => exact absurd hmem hfree

theorem step (h : Listed s) (hb : s.Built) {act : Act} (hgranted : Granted s act)
    (hs' : s.step app act = some s') : Listed s' := by
  cases IocpServer.step_effect hs' with
  | aside haside => exact h.aside haside
  | allocate hs =>
    rw [hs]
    exact h.allocate hb ..
  | @handler act c cl code hne hs hsocket hrun hcode =>
    have hweigh := ClientContext.weigh_concat Instr.adds hrun
    rw [sum_plain adds_plain hcode, add_zero] at hweigh
    rw [hs]
    refine h.update rfl (fun d _ => ⟨rfl, Iff.rfl⟩) (fun d hd => .inl hd) ?_ fun hmem => ?_
    · rw [hweigh]
      exact h.once c
    · rw [hsocket]
      exact h.empty c hmem
  | @exec c i ok instr code pre post cl hi hgo hsocket hs =>
    have hinstr := hgranted instr (IocpServer.next?_eq_some.mpr ⟨code, hi⟩)
    have hcon := (outside_client s c ok instr).2.1
    rw [hs]
    refine h.update (client_setClient_outside s c ok instr cl)
      (fun d hd => ⟨outside_onLists s c ok instr hd, by rw [← hcon]; rfl⟩) (fun d hd => mem_outside_free hd)
      ?_ fun hmem => ?_
    · -- What the context weighs less it is on the lists more.
      have hadds := h.outside_adds app hinstr
      have hweigh := hgo.weigh Instr.adds
      have honce := h.once c
      rw [if_pos (hb.lt_of_running hi)] at honce
      have hlt : c < ((s.outside c ok instr).setClient c cl).constructed :=
        (hb.lt_of_running hi).trans_eq hcon.symm
      rw [if_pos hlt]
      show (s.outside c ok instr).onLists c + _ = 1
      omega
    · rw [hsocket]
      exact ClientContext.exec_empty (h.empty_of_outside hinstr hmem) app ok instr

end Listed

/-! ### What `CloseClient` took -/

namespace IocpServer
variable {app : App} {s s' : IocpServer}

/-- The sockets that were taken out of a context in order to be closed. -/
def taken (s : IocpServer) : Multiset ℕ := s.total (ClientContext.weigh Instr.closing) + s.disconnected

theorem outside_disconnected (s : IocpServer) (c : ℕ) (ok : Bool) (instr : Instr) :
    ((s.outside c ok instr).disconnected : Multiset ℕ) = s.disconnected + instr.closing := by
  by_cases h : ∀ x, instr ≠ .closesocket x
  · obtain ⟨accepts, conn, free, hout⟩ := outside_eq h s c ok
    rw [hout, closing_eq_zero h, add_zero]
  · push Not at h
    obtain ⟨x, rfl⟩ := h
    cases ok <;> exact (coe_concat ..).trans (add_singleton ..).symm

theorem taken_exec (h : s.Built) {c i : ℕ} {ok : Bool} {instr : Instr} (hi : s.next? c i = some instr)
    (hs' : s.step app (.exec c i ok) = some s') :
    s'.taken = s.taken + (((s.client c).exec app ok instr).2.map Instr.closing).sum := by
  obtain ⟨instr', code, pre, post, cl, hi', hgo, hsocket, rfl⟩ := step_exec hs'
  obtain rfl : instr = instr' := Option.some.inj (hi.symm.trans (next?_eq_some.mpr ⟨code, hi'⟩))
  have htotal := total_exec (ClientContext.weigh Instr.closing) (h.lt_of_running hi') ok instr cl
  have hweigh := hgo.weigh Instr.closing
  have hdisc := outside_disconnected s c ok instr
  have htaken : ((s.outside c ok instr).setClient c cl).taken =
      ((s.outside c ok instr).setClient c cl).total (ClientContext.weigh Instr.closing) +
        (s.disconnected + instr.closing) := by
    rw [← outside_disconnected s c ok instr]
    rfl
  refine add_right_cancel (b := (s.client c).weigh Instr.closing) ?_
  rw [htaken, add_right_comm, htotal, taken, add_add_add_comm, hweigh]
  abel

theorem taken_le (h : s.Built) {act : Act} (hs' : s.step app act = some s') : s.taken ≤ s'.taken := by
  cases step_effect hs' with
  | aside haside =>
    rw [taken, taken, total, total, haside.client, haside.constructed, haside.disconnected]
  | @allocate i x ok hs =>
    have htotal := total_allocate h (f := ClientContext.weigh Instr.closing) rfl i x ok
    rw [ClientContext.weigh_seated, ← add_assoc, add_right_comm] at htotal
    have hdisc : (s.acceptStep i ok (.allocate, x)).disconnected = s.disconnected := by rw [h.allocate]
    rw [hs, taken, taken, hdisc, add_right_cancel htotal]
    exact le_of_eq (congrArg (· + _) (add_zero _).symm)
  | handler hne hs hsocket hrun hcode =>
    rw [hs, taken, taken, total_handler closing_plain h hne hrun hcode]
    exact le_rfl
  | exec hi =>
    rw [taken_exec h (next?_eq_some.mpr ⟨_, hi⟩) hs']
    exact Multiset.le_add_right ..

theorem mem_taken_of_closeClient (h : s.Built) {c i x : ℕ} {ok : Bool}
    (hi : s.next? c i = some .closeClient) (hx : (s.client c).m_socket = some x)
    (hs' : s.step app (.exec c i ok) = some s') : x ∈ s'.taken := by
  rw [taken_exec h hi hs']
  refine Multiset.mem_add.mpr (.inr ?_)
  simp [ClientContext.exec, hx, Instr.closing]

end IocpServer

/-! ### When no handler is executing -/

namespace IocpServer

structure Idle (s : IocpServer) : Prop where
  acceptors : s.acceptors = []
  running : ∀ c < s.constructed, (s.client c).running = []

instance (s : IocpServer) : Decidable s.Idle :=
  decidable_of_iff (s.acceptors = [] ∧ ∀ c < s.constructed, (s.client c).running = [])
    ⟨fun h => ⟨h.1, h.2⟩, fun h => ⟨h.1, h.2⟩⟩

theorem Idle.weigh {s : IocpServer} (h : s.Idle) {M : Type} [AddCommMonoid M] (μ : Instr → M) {c : ℕ}
    (hc : c < s.constructed) : (s.client c).weigh μ = 0 := by
  rw [ClientContext.weigh, h.running c hc]
  rfl

theorem Idle.total_weigh {s : IocpServer} (h : s.Idle) {M : Type} [AddCommMonoid M] (μ : Instr → M) :
    s.total (ClientContext.weigh μ) = 0 :=
  Finset.sum_eq_zero fun _ hc => h.weigh μ (Finset.mem_range.mp hc)

theorem Idle.standing {s : IocpServer} (h : s.Idle) (stage : Stage) : standing s.acceptors stage = 0 := by
  rw [h.acceptors]
  rfl

end IocpServer

theorem mem_seat {m_socket : Option ℕ} {x : ℕ} : x ∈ seat m_socket ↔ m_socket = some x := by
  cases m_socket with
  | none => simp [seat]
  | some y => simp [seat, eq_comm]

theorem IocpServer.Idle.held {s : IocpServer} (h : s.Idle) :
    s.ledger.held = ∑ c ∈ Finset.range s.constructed, seat (s.client c).m_socket := by
  show ∑ c ∈ Finset.range s.constructed, (s.client c).held = _
  refine Finset.sum_congr rfl fun c hc => ?_
  rw [ClientContext.held, h.weigh Instr.closing (Finset.mem_range.mp hc), add_zero]

/-- The counter is the number of the open sockets, and each of them is the socket of one context, which
is connected. -/
structure Accounted (s : IocpServer) : Prop where
  count : s.m_nConnClientCnt = ((Finset.range s.sockets).filter (· ∉ s.closed)).card
  nodup : s.m_connectedClientList.Nodup
  seated : ∀ x < s.sockets, x ∉ s.closed →
    ∃ c ∈ s.m_connectedClientList, ∀ d, (s.client d).m_socket = some x ↔ d = c

/-- In a run to `s`, every `CloseClient` that finds a socket gets it closed and counted down. -/
def Closes (app : App) (max : ℕ) (acts : List Act) (s : IocpServer) : Prop :=
  ∀ before c i ok after s₁ x, acts = before ++ .exec c i ok :: after →
    run (IocpServer.step app) (.new max) before = some s₁ → s₁.next? c i = some .closeClient →
      (s₁.client c).m_socket = some x → x ∈ s.closed ∧ x ∈ s.uncounted

/-- What is known of the sockets as long as nothing goes wrong. -/
structure Tended (max : ℕ) (s : IocpServer) : Prop where
  booked : Booked max s
  listed : Listed s
  exact : ∀ x, s.ledger.Exact x
  tally : s.ledger.cnt + Multiset.card s.ledger.uncounted = Multiset.card s.ledger.counted

theorem Listed.granted {s : IocpServer} (h : Listed s) (hb : s.Built) {act : Act} (hgranted : Granted s act) :
    (s.entry act).Granted := by
  cases act with
  | accept | recv | send => trivial
  | acceptor i ok =>
    have hempty : (s.client s.allocated).m_socket = none := by
      cases hlist : s.m_freeClientList with
      | nil =>
        rw [IocpServer.allocated, hlist]
        exact congrArg ClientContext.m_socket (hb.fresh s.constructed le_rfl)
      | cons c rest =>
        rw [IocpServer.allocated, hlist]
        exact h.empty c (by rw [hlist]; exact List.mem_cons_self)
    simp only [IocpServer.entry]
    split
    · split_ifs <;> trivial
    · trivial
    · exact hempty
    · trivial
  | exec c i ok =>
    simp only [IocpServer.entry]
    split
    · next x hx => exact hgranted (.closesocket x) hx
    · trivial

theorem lt_of_entry_count {s : IocpServer} {act : Act} (hgranted : Granted s act) {x : ℕ}
    (h : s.entry act = .count x) : s.m_nConnClientCnt + 1 < 2 ^ 32 := by
  cases act with
  | accept | recv | send => cases h
  | acceptor i ok =>
    simp only [IocpServer.entry] at h
    split at h
    · split_ifs at h
    · next x hx => exact hgranted x hx
    · cases h
    · cases h
  | exec c i ok =>
    simp only [IocpServer.entry] at h
    split at h <;> cases h

namespace Tended
variable {app : App} {max : ℕ} {s s' : IocpServer}

theorem new (max : ℕ) : Tended max (.new max) where
  booked := .new max
  listed := .new max
  exact _ := ⟨rfl, rfl, rfl⟩
  tally := rfl

theorem step (h : Tended max s) {act : Act} (hgranted : Granted s act) (hs' : s.step app act = some s') :
    Tended max s' := by
  obtain ⟨hfit, hnext⟩ := IocpServer.step_ledger h.booked.built hs'
  refine ⟨h.booked.step hs', h.listed.step h.booked.built hgranted hs', fun x => ?_, ?_⟩
  · rw [hnext]
    exact (h.exact x).next hfit (h.listed.granted h.booked.built hgranted)
  · rw [hnext]
    exact Ledger.exact_next h.tally h.booked.sound hfit fun x hx => lt_of_entry_count hgranted hx

theorem count_held (h : Tended max s) (hidle : s.Idle) (x : ℕ) :
    s.ledger.held.count x = if x ∈ (Finset.range s.sockets).filter (· ∉ s.closed) then 1 else 0 := by
  have honce := (h.exact x).once
  have hstand (stage : Stage) : (standing s.acceptors stage).count x = 0 := by
    rw [hidle.standing]
    rfl
  have hclosed : s.ledger.closed.count x = s.closed.count x := Multiset.coe_count ..
  have harriving : s.ledger.arriving.count x = 0 := hstand .testLimit
  have hadmitted : s.ledger.admitted.count x = 0 := hstand .countClient
  have hseating : s.ledger.seating.count x = 0 := hstand .allocate
  have hgiven : s.ledger.given x = if x < s.sockets then 1 else 0 := rfl
  rw [Ledger.alive, harriving, hadmitted, hseating, hclosed, hgiven] at honce
  simp only [Finset.mem_filter, Finset.mem_range]
  by_cases hmem : x ∈ s.closed
  · have hpos := List.count_pos_iff.mpr hmem
    rw [if_neg fun hx => hx.2 hmem]
    split_ifs at honce <;> omega
  · rw [List.count_eq_zero.mpr hmem] at honce
    simp only [hmem, not_false_eq_true, and_true]
    omega

theorem held_eq (h : Tended max s) (hidle : s.Idle) :
    s.ledger.held = ((Finset.range s.sockets).filter (· ∉ s.closed)).val := by
  ext x
  rw [h.count_held hidle, Multiset.count_eq_of_nodup (Finset.nodup _)]
  rfl

theorem cnt_eq_card_held (h : Tended max s) (hidle : s.Idle) :
    s.m_nConnClientCnt = Multiset.card s.ledger.held := by
  have hpaired : s.ledger.held + s.ledger.uncounted = s.ledger.counted := by
    ext x
    have hx := (h.exact x).paired
    have hseating : s.ledger.seating.count x = 0 := by
      show (standing s.acceptors .allocate).count x = 0
      rw [hidle.standing]
      rfl
    rw [Multiset.count_add]
    omega
  have hcard := congrArg Multiset.card hpaired
  have htally := h.tally
  rw [Multiset.card_add] at hcard
  show s.ledger.cnt = _
  omega

theorem socket_unique (h : Tended max s) (hidle : s.Idle) {c d x : ℕ} (hc : (s.client c).m_socket = some x)
    (hd : (s.client d).m_socket = some x) : d = c := by
  have hbuilt {c : ℕ} (hc : (s.client c).m_socket = some x) : c ∈ Finset.range s.constructed :=
    Finset.mem_range.mpr <| h.booked.built.lt_of_ne fun hnew => by
      rw [hnew] at hc
      cases hc
  by_contra hne
  have hone : s.ledger.held.count x ≤ 1 := by
    rw [h.count_held hidle]
    split_ifs <;> omega
  -- Two contexts would hold the socket twice.
  have hsub : ({d, c} : Finset ℕ) ⊆ Finset.range s.constructed := by
    intro e he
    rcases Finset.mem_insert.mp he with rfl | he
    · exact hbuilt hd
    · rw [Finset.mem_singleton.mp he]
      exact hbuilt hc
  have hle := Finset.sum_le_sum_of_subset (f := fun c => (seat (s.client c).m_socket).count x) hsub
  rw [Finset.sum_pair hne, hc, hd, ← Multiset.count_sum', ← hidle.held] at hle
  have htwo : (seat (some x)).count x = 1 := Multiset.count_singleton_self x
  omega

theorem mem_connected (h : Tended max s) (hidle : s.Idle) {c x : ℕ} (hc : (s.client c).m_socket = some x) :
    c ∈ s.m_connectedClientList := by
  have hbuilt : c < s.constructed := h.booked.built.lt_of_ne fun hnew => by
    rw [hnew] at hc
    cases hc
  have honce := h.listed.once c
  rw [hidle.weigh _ hbuilt, if_pos hbuilt, IocpServer.onLists] at honce
  have hfree : c ∉ s.m_freeClientList := fun hfree => by
    rw [h.listed.empty c hfree] at hc
    cases hc
  rw [List.count_eq_zero.mpr hfree] at honce
  exact List.count_pos_iff.mp (by omega)

theorem accounted (h : Tended max s) (hidle : s.Idle) : Accounted s where
  count := by
    rw [h.cnt_eq_card_held hidle, h.held_eq hidle]
    rfl
  nodup := List.nodup_iff_count_le_one.mpr fun c => by
    have hle := h.listed.once_le c
    unfold IocpServer.onLists at hle
    omega
  seated x hx hopen := by
    have hheld : x ∈ s.ledger.held := by
      rw [h.held_eq hidle]
      exact Finset.mem_filter.mpr ⟨Finset.mem_range.mpr hx, hopen⟩
    rw [hidle.held] at hheld
    obtain ⟨c, -, hc⟩ := Multiset.mem_sum.mp hheld
    have hsocket := mem_seat.mp hc
    refine ⟨c, h.mem_connected hidle hsocket, fun d => ⟨fun hd => h.socket_unique hidle hsocket hd, ?_⟩⟩
    rintro rfl
    exact hsocket

theorem closed_of_taken (h : Tended max s) (hidle : s.Idle) {x : ℕ} (hx : x ∈ s.taken) :
    x ∈ s.closed ∧ x ∈ s.uncounted := by
  have hdisc : x ∈ s.disconnected := by
    rw [IocpServer.taken, hidle.total_weigh, zero_add] at hx
    exact hx
  have hpos : 0 < s.ledger.disconnected.count x := Multiset.count_pos.mpr hdisc
  have hexact := h.exact x
  have htold := (h.booked.sound.placed x).told
  have honce := hexact.once
  have hgiven : s.ledger.given x ≤ 1 := by
    unfold Ledger.given
    split_ifs <;> omega
  have hclosed : 0 < s.ledger.closed.count x := by omega
  have huncounted : 0 < s.ledger.uncounted.count x := hexact.told ▸ hpos
  exact ⟨Multiset.count_pos.mp hclosed, Multiset.count_pos.mp huncounted⟩

end Tended

/-- As long as the system does what it is asked for, no context is taken back with its socket and the
counter does not wrap above, the server accounts for every socket. -/
theorem accounted_of_granted {app : App} {max : ℕ} {acts : List Act}
    (hmeets : Meets (IocpServer.step app) Granted (.new max) acts) {s : IocpServer}
    (hrun : run (IocpServer.step app) (.new max) acts = some s) (hidle : s.Idle) :
    Accounted s ∧ Closes app max acts s := by
  have htended : Tended max s :=
    run_invariant (Tended max) (.new max) (fun _ _ _ h hgranted hs' => h.step hgranted hs') hmeets hrun
  refine ⟨htended.accounted hidle, fun before c i ok after s₁ x hacts hbefore hnext hsocket => ?_⟩
  have hbooked := Booked.run hbefore
  rw [hacts, run_append, hbefore, Option.bind_some, run_cons, Option.bind_eq_some_iff] at hrun
  obtain ⟨s₂, hs₂, hafter⟩ := hrun
  -- The socket is taken right after this step, and stays so until the end of the run.
  have hmem := IocpServer.mem_taken_of_closeClient hbooked.built hnext hsocket hs₂
  have htaken : s.Built ∧ x ∈ s.taken :=
    run_preserves (fun s => s.Built ∧ x ∈ s.taken) ⟨hbooked.built.step hs₂, hmem⟩
      (fun _ _ _ h hs' => ⟨h.1.step hs', Multiset.mem_of_le (IocpServer.taken_le h.1 hs') h.2⟩) hafter
  exact htended.closed_of_taken hidle htaken.2

/-- One connection comes and goes, another one stays. -/
theorem accounted_of_granted_connect : ∃ acts s, run (IocpServer.step .echo) (.new 2) acts = some s ∧
    Accounted s ∧ Closes .echo 2 acts s := by
  let acts := connect ++ [.recv 0 none, .exec 0 0 true, .exec 0 0 true, .exec 0 0 true, .exec 0 0 true] ++ connect
  have hidle : (run (IocpServer.step .echo) (.new 2) acts).any fun s => decide s.Idle := by decide +kernel
  obtain ⟨s, hs, hend⟩ := exists_of_any hidle
  exact ⟨acts, s, hs, accounted_of_granted (by decide +kernel) hs (of_decide_eq_true hend)⟩

/-- `associateWithCompletionPort` fails for the first connection. -/
theorem exists_not_accounted : ∃ acts s, run (IocpServer.step .echo) (.new 1) acts = some s ∧ s.Idle ∧
    ¬ Accounted s := by
  have hlost : (run (IocpServer.step .echo) (.new 1) [.accept, .acceptor 0 true, .acceptor 0 true,
      .acceptor 0 true, .exec 0 0 false]).any fun s =>
        decide (s.Idle ∧ 0 < s.sockets ∧ 0 ∉ s.closed ∧ s.m_connectedClientList = []) := by
    decide +kernel
  obtain ⟨s, hs, hend⟩ := exists_of_any hlost
  obtain ⟨hidle, hsockets, hopen, hlist⟩ := of_decide_eq_true hend
  refine ⟨_, s, hs, hidle, fun h => ?_⟩
  obtain ⟨c, hmem, -⟩ := h.seated 0 hsockets hopen
  rw [hlist] at hmem
  cases hmem

end NetDemo.Server
