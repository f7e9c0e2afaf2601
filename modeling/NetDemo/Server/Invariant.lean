import NetDemo.Server.Active
import NetDemo.Foundation.Transition

/-! Where every context of the server stands, in every state that the server reaches. -/

namespace NetDemo.Server
open Foundation Memory Http Client

/-- Nothing is under way for the context. -/
structure Still (cl : ClientContext) : Prop where
  running : cl.running = []
  recvs : cl.recvs = 0
  sends : cl.sends = []
  count : cl.m_nPendingIoCnt = 0

/-- `handleAccept` is at work on the context, and nobody else. -/
structure Opening (cl : ClientContext) : Prop where
  recvs : cl.recvs = 0
  sends : cl.sends = []
  stage : cl.m_nPendingIoCnt = 0 ∧ cl.running = [[.associate]] ∧ cl.m_socket.isSome ∨
    cl.m_nPendingIoCnt = 0 ∧ cl.running = [[.enterIoLoop]] ∨
    cl.m_nPendingIoCnt = 1 ∧ cl.running = [[.postAccept, .addClient, .postRecv]] ∨
    cl.m_nPendingIoCnt = 1 ∧ cl.running = [[.addClient, .postRecv]]

/-- What becomes of a context, where `built`, `conn` and `free` say whether it was constructed and
on which list it is. -/
inductive Phase (app : App) (tight : Prop) (cl : ClientContext) (built conn free : Prop) : Prop
  | fresh : cl = .new → ¬ built → ¬ conn → ¬ free → Phase app tight cl built conn free
  | free : Still cl → built → ¬ conn → free → Phase app tight cl built conn free
  /-- `associateWithCompletionPort` failed. -/
  | lost : Still cl → cl.m_socket.isSome → built → ¬ conn → ¬ free → Phase app tight cl built conn free
  | opening : Opening cl → built → ¬ conn → ¬ free → Phase app tight cl built conn free
  | active : Active app tight cl → built → conn → ¬ free → Phase app tight cl built conn free
  | leaving : Leaving cl → built → conn → ¬ free → Phase app tight cl built conn free

structure Inv (app : App) (tight : Prop) (s : IocpServer) : Prop where
  nodup : (s.m_connectedClientList ++ s.m_freeClientList).Nodup
  queue : ∀ c, ∀ n ∈ (s.client c).m_outBufQueue, 0 < n
  phase : ∀ c, Phase app tight (s.client c) (c < s.constructed) (c ∈ s.m_connectedClientList)
    (c ∈ s.m_freeClientList)

/-- No loop finds a request that it does not accept. -/
def Decodes (s : IocpServer) : Act → Prop
  | .exec c i _ => ∀ w size codec code, (s.client c).running[i]? = some (.decode w size codec :: code) →
      0 ≤ (HttpCodec.tryDecode w codec ((s.client c).m_inBuf.mem.take size)).1
  | _ => True

/-- No `postSend` finds its socket closed. -/
def PostsOpen (s : IocpServer) : Act → Prop
  | .exec c i _ => ∀ code, (s.client c).running[i]? = some (.postSend :: code) →
      (s.client c).m_socket.isSome
  | _ => True

/-- The instruction that the `i`th handler of client `c` is at. -/
def IocpServer.next? (s : IocpServer) (c i : ℕ) : Option Instr := (s.client c).running[i]?.bind List.head?

theorem IocpServer.next?_eq_some {s : IocpServer} {c i : ℕ} {instr : Instr} :
    s.next? c i = some instr ↔ ∃ code, (s.client c).running[i]? = some (instr :: code) := by
  simp only [next?, Option.bind_eq_some_iff, List.head?_eq_some_iff]
  exact ⟨fun ⟨_, hrun, code, hcode⟩ => ⟨code, hcode ▸ hrun⟩, fun ⟨code, hrun⟩ => ⟨_, hrun, code, rfl⟩⟩

instance (s : IocpServer) : DecidablePred (Decodes s)
  | .exec c i _ => decidable_of_iff ((s.next? c i).all fun
      | .decode w size codec => 0 ≤ (HttpCodec.tryDecode w codec ((s.client c).m_inBuf.mem.take size)).1
      | _ => true) <| by
    rw [Option.all_eq_true]
    refine ⟨fun h w size codec code hrun => ?_, fun h instr hinstr => ?_⟩
    · exact of_decide_eq_true (h _ (IocpServer.next?_eq_some.mpr ⟨code, hrun⟩))
    · obtain ⟨code, hrun⟩ := IocpServer.next?_eq_some.mp hinstr
      cases instr with
      | decode w size codec => exact decide_eq_true (h w size codec code hrun)
      | _ => rfl
  | .accept | .acceptor .. | .recv .. | .send .. => .isTrue trivial

instance (s : IocpServer) : DecidablePred (PostsOpen s)
  | .exec c i _ => decidable_of_iff (s.next? c i = some .postSend → (s.client c).m_socket.isSome) <| by
    rw [IocpServer.next?_eq_some]
    exact ⟨fun h code hrun => h ⟨code, hrun⟩, fun h ⟨code, hrun⟩ => h code hrun⟩
  | .accept | .acceptor .. | .recv .. | .send .. => .isTrue trivial

namespace IocpServer
variable {s : IocpServer}

theorem acceptStep_allocate_nil (hfree : s.m_freeClientList = []) (i socket : ℕ) (ok : Bool) :
    s.acceptStep i ok (.allocate, socket) = { s with
      acceptors := s.acceptors.eraseIdx i
      constructed := s.constructed + 1
      client := Function.update s.client s.constructed
        { ClientContext.new with m_socket := some socket, running := [[.associate]] } } := by
  simp only [acceptStep, allocateClientContext, hfree, setClient, Function.update_self, Function.update_idem]
  rfl

theorem acceptStep_allocate_cons {c : ℕ} {rest : List ℕ} (hfree : s.m_freeClientList = c :: rest)
    (i socket : ℕ) (ok : Bool) : s.acceptStep i ok (.allocate, socket) = { s with
      acceptors := s.acceptors.eraseIdx i
      m_freeClientList := rest
      client := Function.update s.client c { s.client c with
        m_socket := some socket, running := (s.client c).running ++ [[.associate]] } } := by
  simp only [acceptStep, allocateClientContext, hfree, setClient, Function.update_self, Function.update_idem]

end IocpServer

namespace Inv
variable {app : App} {tight : Prop} {s : IocpServer}

theorem new (app : App) (tight : Prop) (max : ℕ) : Inv app tight (.new max) where
  nodup := List.nodup_nil
  queue _ n hn := by cases hn
  phase c := .fresh rfl (Nat.not_lt_zero c) List.not_mem_nil List.not_mem_nil

theorem update (h : Inv app tight s) {s' : IocpServer} {c : ℕ} {cl : ClientContext}
    (hclient : s'.client = Function.update s.client c cl)
    (hnodup : (s'.m_connectedClientList ++ s'.m_freeClientList).Nodup)
    (hbuilt : ∀ d, d ≠ c → (d < s'.constructed ↔ d < s.constructed))
    (hconn : ∀ d, d ≠ c → (d ∈ s'.m_connectedClientList ↔ d ∈ s.m_connectedClientList))
    (hfree : ∀ d, d ≠ c → (d ∈ s'.m_freeClientList ↔ d ∈ s.m_freeClientList))
    (hqueue : ∀ n ∈ cl.m_outBufQueue, 0 < n)
    (hphase : Phase app tight cl (c < s'.constructed) (c ∈ s'.m_connectedClientList)
      (c ∈ s'.m_freeClientList)) : Inv app tight s' where
  nodup := hnodup
  queue d := by
    rw [hclient]
    by_cases hd : d = c
    · rw [hd, Function.update_self]
      exact hqueue
    · rw [Function.update_of_ne hd]
      exact h.queue d
  phase d := by
    rw [hclient]
    by_cases hd : d = c
    · rw [hd, Function.update_self]
      exact hphase
    · rw [Function.update_of_ne hd, hbuilt d hd, hconn d hd, hfree d hd]
      exact h.phase d

theorem setClient (h : Inv app tight s) {c : ℕ} {cl : ClientContext} (hqueue : ∀ n ∈ cl.m_outBufQueue, 0 < n)
    (hphase : Phase app tight cl (c < s.constructed) (c ∈ s.m_connectedClientList)
      (c ∈ s.m_freeClientList)) : Inv app tight (s.setClient c cl) :=
  h.update rfl h.nodup (fun _ _ => .rfl) (fun _ _ => .rfl) (fun _ _ => .rfl) hqueue hphase

theorem allocate (h : Inv app tight s) (i socket : ℕ) (ok : Bool) :
    Inv app tight (s.acceptStep i ok (.allocate, socket)) := by
  cases hfree : s.m_freeClientList with
  | nil =>
    have hnew : s.client s.constructed = .new ∧ s.constructed ∉ s.m_connectedClientList ∧
        s.constructed ∉ s.m_freeClientList := by
      cases h.phase s.constructed with
      | fresh hnew _ hconn hfree => exact ⟨hnew, hconn, hfree⟩
      | free _ hbuilt | lost _ _ hbuilt | opening _ hbuilt | active _ hbuilt | leaving _ hbuilt =>
        exact absurd hbuilt (Nat.lt_irrefl _)
    rw [IocpServer.acceptStep_allocate_nil hfree]
    refine h.update rfl h.nodup (fun d hd => ?_) (fun _ _ => .rfl) (fun _ _ => .rfl)
      (by simp [ClientContext.new])
      (.opening ⟨rfl, rfl, .inl ⟨rfl, rfl, rfl⟩⟩ (Nat.lt_succ_self _) hnew.2.1 hnew.2.2)
    show d < s.constructed + 1 ↔ d < s.constructed
    omega
  | cons c rest =>
    have hnodup := h.nodup
    rw [hfree] at hnodup
    have hrest : c ∉ rest := by
      rw [List.nodup_append] at hnodup
      exact (List.nodup_cons.mp hnodup.2.1).1
    obtain ⟨hstill, hbuilt, hconn⟩ : Still (s.client c) ∧ c < s.constructed ∧
        c ∉ s.m_connectedClientList := by
      have hmem : c ∈ s.m_freeClientList := by rw [hfree]; exact List.mem_cons_self
      cases h.phase c with
      | free hstill hbuilt hconn => exact ⟨hstill, hbuilt, hconn⟩
      | fresh _ _ _ hno | lost _ _ _ _ hno | opening _ _ _ hno | active _ _ _ hno | leaving _ _ _ hno =>
        exact absurd hmem hno
    rw [IocpServer.acceptStep_allocate_cons hfree, hstill.running]
    refine h.update rfl (hnodup.sublist ((List.sublist_cons_self c rest).append_left _)) (fun _ _ => .rfl)
      (fun _ _ => .rfl) (fun d hd => ?_) (h.queue c)
      (.opening ⟨hstill.recvs, hstill.sends, .inl ⟨hstill.count, rfl, rfl⟩⟩ hbuilt hconn hrest)
    rw [hfree, List.mem_cons]
    exact ⟨.inr, fun hmem => hmem.resolve_left hd⟩

theorem inUse (h : Inv app tight s) {c : ℕ} (hops : (s.client c).recvs ≠ 0 ∨ (s.client c).sends ≠ []) :
    Active app tight (s.client c) ∧ c < s.constructed ∧ c ∈ s.m_connectedClientList ∧
      c ∉ s.m_freeClientList := by
  have hno (hr : (s.client c).recvs = 0) (hs : (s.client c).sends = []) : False :=
    hops.elim (fun h => h hr) fun h => h hs
  cases h.phase c with
  | active hactive hbuilt hconn hfree => exact ⟨hactive, hbuilt, hconn, hfree⟩
  | fresh hnew =>
    rw [hnew] at hno
    exact (hno rfl rfl).elim
  | free hstill | lost hstill => exact (hno hstill.recvs hstill.sends).elim
  | opening hopening => exact (hno hopening.recvs hopening.sends).elim
  | leaving hleaving => exact (hno hleaving.recvs hleaving.sends).elim

theorem recv (h : Inv app tight s) {c : ℕ} (hrecvs : 0 < (s.client c).recvs) {m_recvBuf : Option Bytes}
    (hd : ∀ d ∈ m_recvBuf, d ≠ []) : Inv app tight (s.setClient c { s.client c with
      recvs := (s.client c).recvs - 1
      running := (s.client c).running ++ [IocpServer.recvCode m_recvBuf] }) := by
  obtain ⟨hactive, hbuilt, hconn, hfree⟩ := h.inUse (.inl (Nat.ne_of_gt hrecvs))
  refine h.setClient (h.queue c) (.active ?_ hbuilt hconn hfree)
  cases m_recvBuf with
  | none =>
    exact hactive.take rfl (carries_closeAndRelease (by decide)) (working_closeAndRelease (by decide) app)
      (Nat.sub_add_cancel hrecvs) rfl rfl rfl
  | some d =>
    refine hactive.take rfl ⟨[.receive d], .postRecv, rfl, .inl rfl⟩ (fun i hi => ?_)
      (Nat.sub_add_cancel hrecvs) rfl rfl rfl
    simp only [IocpServer.recvCode, List.mem_cons, List.not_mem_nil, or_false] at hi
    rcases hi with rfl | rfl
    · exact hd d rfl
    · trivial

theorem send (h : Inv app tight s) {c j len : ℕ} (hj : (s.client c).sends[j]? = some len)
    (n : Option ℕ) : Inv app tight (s.setClient c { s.client c with
      sends := (s.client c).sends.eraseIdx j
      running := (s.client c).running ++ [IocpServer.sendCode n] }) := by
  obtain ⟨hlt, -⟩ := List.getElem?_eq_some_iff.mp hj
  obtain ⟨hactive, hbuilt, hconn, hfree⟩ := h.inUse (c := c) (.inr (List.ne_nil_of_length_pos (by omega)))
  have hlen : ((s.client c).sends.eraseIdx j).length + 1 = (s.client c).sends.length := by
    rw [List.length_eraseIdx_of_lt hlt]
    omega
  refine h.setClient (h.queue c) (.active ?_ hbuilt hconn hfree)
  cases n with
  | none =>
    exact hactive.take rfl (carries_closeAndRelease (by decide)) (working_closeAndRelease (by decide) app)
      rfl hlen rfl rfl
  | some n =>
    refine hactive.take rfl ⟨[], .handleSend n, rfl, .inr rfl⟩ (fun i hi => ?_) rfl hlen rfl rfl
    obtain rfl := List.mem_singleton.mp hi
    trivial

end Inv

theorem postAccept_same (s : IocpServer) (ok : Bool) : (s.postAccept ok).client = s.client ∧
    (s.postAccept ok).constructed = s.constructed ∧
    (s.postAccept ok).m_connectedClientList = s.m_connectedClientList ∧
    (s.postAccept ok).m_freeClientList = s.m_freeClientList := by
  cases ok <;> exact ⟨rfl, rfl, rfl, rfl⟩

theorem outside_same {instr : Instr} (hadd : instr ≠ .addClient) (hremove : instr ≠ .removeClient)
    (s : IocpServer) (c : ℕ) (ok : Bool) : (s.outside c ok instr).client = s.client ∧
      (s.outside c ok instr).constructed = s.constructed ∧
      (s.outside c ok instr).m_connectedClientList = s.m_connectedClientList ∧
      (s.outside c ok instr).m_freeClientList = s.m_freeClientList := by
  cases instr with
  | addClient => exact absurd rfl hadd
  | removeClient => exact absurd rfl hremove
  | postAccept => exact postAccept_same s ok
  | closesocket socket =>
    cases ok <;> exact ⟨rfl, rfl, rfl, rfl⟩
  | _ => exact ⟨rfl, rfl, rfl, rfl⟩

theorem ClientContext.exec_queue {app : App} {cl : ClientContext} {instr : Instr} (ok : Bool)
    (hqueue : ∀ n ∈ cl.m_outBufQueue, 0 < n) (hsend : ∀ len, instr = .send len → 0 < len) :
    ∀ n ∈ (cl.exec app ok instr).1.m_outBufQueue, 0 < n := by
  cases instr with
  | send len =>
    simp only [exec]
    split_ifs
    · exact hqueue
    · intro n hn
      rcases List.mem_append.mp hn with hn | hn
      · exact hqueue n hn
      · rw [List.mem_singleton.mp hn]
        exact hsend len rfl
  | handleSend m =>
    rcases exec_handleSend app hqueue ok m with ⟨len, rest, -, hrest, hexec⟩ | hexec
    · rw [hexec]
      exact hrest
    · rw [hexec]
      exact hqueue
  | postRecv =>
    rcases cl.exec_postRecv app ok with hexec | hexec <;> rw [hexec] <;> exact hqueue
  | postSend =>
    rcases cl.exec_postSend app ok with hexec | hexec | ⟨-, hexec⟩ <;> rw [hexec] <;> exact hqueue
  | closeClient =>
    simp only [exec]
    split <;> exact hqueue
  | _ => exact hqueue

theorem of_only_handler {running : List Code} {i : ℕ} {instr first : Instr} {code rest : Code}
    (hrun : running = [first :: rest]) (hi : running[i]? = some (instr :: code)) :
    i = 0 ∧ instr = first ∧ code = rest := by
  rw [hrun] at hi
  obtain ⟨hlt, heq⟩ := List.getElem?_eq_some_iff.mp hi
  obtain rfl : i = 0 := Nat.lt_one_iff.mp hlt
  obtain ⟨rfl, rfl⟩ := List.cons.inj heq
  exact ⟨rfl, rfl, rfl⟩

namespace Inv
variable {app : App} {tight : Prop} {s : IocpServer}

theorem exec_active (h : Inv app tight s) {c i : ℕ} {ok : Bool} {instr : Instr} {code : Code}
    (hi : (s.client c).running[i]? = some (instr :: code)) (hactive : Active app tight (s.client c))
    (hbuilt : c < s.constructed) (hconn : c ∈ s.m_connectedClientList) (hfree : c ∉ s.m_freeClientList)
    (hsmooth : Smooth tight (s.client c) instr) :
    Inv app tight ((s.outside c ok instr).setClient c { ((s.client c).exec app ok instr).1 with
      running := resume (s.client c).running i (((s.client c).exec app ok instr).2 ++ code) }) := by
  have hwork : Working app instr :=
    hactive.working _ (List.mem_of_getElem? hi) instr List.mem_cons_self
  obtain ⟨hclient, hcon, hl₁, hl₂⟩ := @outside_same instr (by rintro rfl; exact hwork)
    (by rintro rfl; exact hwork) s c ok
  have hqueue : ∀ n ∈ ((s.client c).exec app ok instr).1.m_outBufQueue, 0 < n :=
    ClientContext.exec_queue ok (h.queue c) (by rintro len rfl; exact hwork)
  refine h.update (c := c) (congrArg (Function.update · c _) hclient) (by
    simp only [IocpServer.setClient, hl₁, hl₂]
    exact h.nodup) ?_ ?_ ?_ hqueue ?_
  all_goals simp only [IocpServer.setClient, hcon, hl₁, hl₂]
  · exact fun _ _ => trivial
  · exact fun _ _ => trivial
  · exact fun _ _ => trivial
  · rcases hactive.exec (h.queue c) hi ok hsmooth rfl with hactive' | hleaving
    · exact .active hactive' hbuilt hconn hfree
    · exact .leaving hleaving hbuilt hconn hfree

theorem exec_opening (h : Inv app tight s) {c i : ℕ} {ok : Bool} {instr : Instr} {code : Code}
    (hi : (s.client c).running[i]? = some (instr :: code)) (hopening : Opening (s.client c))
    (hbuilt : c < s.constructed) (hconn : c ∉ s.m_connectedClientList) (hfree : c ∉ s.m_freeClientList) :
    Inv app tight ((s.outside c ok instr).setClient c { ((s.client c).exec app ok instr).1 with
      running := resume (s.client c).running i (((s.client c).exec app ok instr).2 ++ code) }) := by
  obtain ⟨hrecvs, hsends, ⟨hcount, hrun, hsocket⟩ | ⟨hcount, hrun⟩ | ⟨hcount, hrun⟩ | ⟨hcount, hrun⟩⟩ := hopening
  · -- When `associateWithCompletionPort` fails, the context stays where it is for ever.
    obtain ⟨rfl, rfl, rfl⟩ := of_only_handler hrun hi
    refine h.setClient (h.queue c) ?_
    cases ok with
    | true => exact .opening ⟨hrecvs, hsends, .inr (.inl ⟨hcount, by rw [hrun]; rfl⟩)⟩ hbuilt hconn hfree
    | false => exact .lost ⟨by rw [hrun]; rfl, hrecvs, hsends, hcount⟩ hsocket hbuilt hconn hfree
  · obtain ⟨rfl, rfl, rfl⟩ := of_only_handler hrun hi
    refine h.setClient (h.queue c) (.opening
      ⟨hrecvs, hsends, .inr (.inr (.inl ⟨?_, by rw [hrun]; rfl⟩))⟩ hbuilt hconn hfree)
    exact congrArg (fun n => (n + 1) % 2 ^ 32) hcount
  · obtain ⟨rfl, rfl, rfl⟩ := of_only_handler hrun hi
    obtain ⟨hclient, hcon, hl₁, hl₂⟩ := postAccept_same s ok
    refine h.update (c := c) (congrArg (Function.update · c _) hclient) (by
      simp only [IocpServer.outside, IocpServer.setClient, hl₁, hl₂]
      exact h.nodup) ?_ ?_ ?_ (h.queue c) (.opening ⟨hrecvs, hsends, ?_⟩ ?_ ?_ ?_)
    all_goals simp only [IocpServer.outside, IocpServer.setClient, hcon, hl₁, hl₂]
    · exact fun _ _ => trivial
    · exact fun _ _ => trivial
    · exact fun _ _ => trivial
    · exact .inr (.inr (.inr ⟨hcount, by rw [hrun]; rfl⟩))
    · exact hbuilt
    · exact hconn
    · exact hfree
  · obtain ⟨rfl, rfl, rfl⟩ := of_only_handler hrun hi
    -- `addClient` puts the context on a list, and it was on none.
    have hnodup : (s.m_connectedClientList ++ [c] ++ s.m_freeClientList).Nodup := by
      rw [List.append_assoc, List.singleton_append, List.perm_middle.nodup_iff]
      refine List.nodup_cons.mpr ⟨?_, h.nodup⟩
      rw [List.mem_append]
      exact fun hno => hno.elim hconn hfree
    refine h.update rfl hnodup (fun _ _ => .rfl) (fun d hd => ?_) (fun _ _ => .rfl) (h.queue c)
      (.active ?_ hbuilt (List.mem_append_right _ (List.mem_singleton.mpr rfl)) hfree)
    · show d ∈ s.m_connectedClientList ++ [c] ↔ d ∈ s.m_connectedClientList
      simp [hd]
    · exact .joined app tight (by rw [hrun]; rfl) hrecvs hsends hcount

theorem exec_leaving (h : Inv app tight s) {c i : ℕ} {ok : Bool} {instr : Instr} {code : Code}
    (hi : (s.client c).running[i]? = some (instr :: code)) (hleaving : Leaving (s.client c))
    (hbuilt : c < s.constructed) (hconn : c ∈ s.m_connectedClientList) (hfree : c ∉ s.m_freeClientList) :
    Inv app tight ((s.outside c ok instr).setClient c { ((s.client c).exec app ok instr).1 with
      running := resume (s.client c).running i (((s.client c).exec app ok instr).2 ++ code) }) := by
  obtain ⟨rfl, rfl, rfl⟩ := of_only_handler hleaving.running hi
  have hlists : s.outside c ok .removeClient = { s with
      m_connectedClientList := s.m_connectedClientList.filter (· ≠ c)
      m_freeClientList := s.m_freeClientList ++ [c] } := if_pos hconn
  rw [hlists]
  have hnodup := h.nodup
  rw [List.nodup_append] at hnodup
  obtain ⟨hcon, hfr, hdisj⟩ := hnodup
  refine h.update rfl ?_ (fun _ _ => .rfl) (fun d hd => ?_) (fun d hd => ?_) (h.queue c)
    (.free ⟨by rw [hleaving.running]; rfl, hleaving.recvs, hleaving.sends, hleaving.count⟩ hbuilt ?_ ?_)
  · refine List.nodup_append.mpr ⟨hcon.filter _, List.nodup_append.mpr ⟨hfr, by simp, ?_⟩, ?_⟩
    · rintro a ha b hb rfl
      rw [List.mem_singleton.mp hb] at ha
      exact hfree ha
    · rintro a ha b hb rfl
      obtain ⟨hmem, hne⟩ := List.mem_filter.mp ha
      rcases List.mem_append.mp hb with hb | hb
      · exact hdisj a hmem a hb rfl
      · simp [List.mem_singleton.mp hb] at hne
  · show d ∈ s.m_connectedClientList.filter (· ≠ c) ↔ d ∈ s.m_connectedClientList
    simp [hd]
  · show d ∈ s.m_freeClientList ++ [c] ↔ d ∈ s.m_freeClientList
    simp [hd]
  · show c ∉ s.m_connectedClientList.filter (· ≠ c)
    simp
  · exact List.mem_append_right _ (List.mem_singleton.mpr rfl)

/-- Every step keeps the invariant, if only no loop finds what it does not accept and, when no
reference may be lost, no `postSend` finds its socket closed. -/
theorem step (h : Inv app tight s) {act : Act} {s' : IocpServer} (hs' : s.step app act = some s')
    (hdec : app ≠ .echo → Decodes s act) (hpost : tight → PostsOpen s act) : Inv app tight s' := by
  cases act with
  | accept =>
    simp only [IocpServer.step] at hs'
    split_ifs at hs'
    obtain rfl := Option.some.inj hs'
    exact ⟨h.nodup, h.queue, h.phase⟩
  | acceptor i ok =>
    obtain ⟨⟨stage, socket⟩, -, rfl⟩ := Option.map_eq_some_iff.mp hs'
    cases stage with
    | testLimit =>
      simp only [IocpServer.acceptStep]
      split_ifs <;> exact ⟨h.nodup, h.queue, h.phase⟩
    | countClient => exact ⟨h.nodup, h.queue, h.phase⟩
    | allocate => exact h.allocate i socket ok
    | postAccept => cases ok <;> exact ⟨h.nodup, h.queue, h.phase⟩
  | recv c m_recvBuf =>
    simp only [IocpServer.step] at hs'
    split_ifs at hs' with hok
    obtain rfl := Option.some.inj hs'
    exact h.recv hok.1 fun d hd => (hok.2 d hd).1
  | send c j n =>
    simp only [IocpServer.step] at hs'
    split at hs'
    · cases hs'
    next len hj =>
    split_ifs at hs'
    obtain rfl := Option.some.inj hs'
    exact h.send hj n
  | exec c i ok =>
    simp only [IocpServer.step] at hs'
    split at hs'
    swap
    · cases hs'
    next instr code hi =>
    obtain rfl := Option.some.inj hs'
    rw [ClientContext.exec_running]
    have hstill (hrun : (s.client c).running = []) : False := by
      rw [hrun] at hi
      cases hi
    cases h.phase c with
    | fresh hnew => exact (hstill (by rw [hnew]; rfl)).elim
    | free hfree | lost hfree => exact (hstill hfree.running).elim
    | opening hopening hbuilt hconn hfree => exact h.exec_opening hi hopening hbuilt hconn hfree
    | leaving hleaving hbuilt hconn hfree => exact h.exec_leaving hi hleaving hbuilt hconn hfree
    | active hactive hbuilt hconn hfree =>
      refine h.exec_active hi hactive hbuilt hconn hfree ⟨?_, ?_⟩
      · rintro w size codec rfl
        have hwork := hactive.working _ (List.mem_of_getElem? hi) _ List.mem_cons_self
        exact hdec hwork w size codec code hi
      · rintro ht rfl
        exact hpost ht code hi

theorem run {ok : IocpServer → Act → Prop} {max : ℕ} {acts : List Act}
    (hmeets : Meets (IocpServer.step app) ok (.new max) acts)
    (hrun : run (IocpServer.step app) (.new max) acts = some s)
    (hdec : ∀ s act, ok s act → app ≠ .echo → Decodes s act)
    (hpost : ∀ s act, ok s act → tight → PostsOpen s act) : Inv app tight s :=
  run_invariant (Inv app tight) (.new app tight max)
    (fun s act _ h hok hs' => h.step hs' (hdec s act hok) (hpost s act hok)) hmeets hrun

end Inv
end NetDemo.Server
