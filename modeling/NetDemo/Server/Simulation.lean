import NetDemo.Client.Loop
import NetDemo.Server.Process
import NetDemo.Server.Accept

/-! What a handler does to the bytes of a context, from its first to its last instruction, the threads can do
to the lengths. -/

namespace NetDemo.Client.View
open Http
variable {α : Type}

theorem modify_modify (x : View α) (f g : Link α → Link α) :
    (x.modify f).modify g = x.modify fun l => g (f l) := rfl

theorem modify_releaseClientContext (x : View α) : x.modify Link.releaseClientContext =
    if x.link.exitIoLoop.1 ≤ 0 then (x.modify fun l => l.exitIoLoop.2).modify Link.removeClient
    else x.modify fun l => l.exitIoLoop.2 := by
  simp only [View.modify, Link.releaseClientContext]
  split_ifs <;> rfl

theorem modify_postRecvOrClose (x : View α) : x.modify Link.postRecvOrClose =
    if x.link.postRecv.1 = .failed ∨ x.link.postRecv.1 = .invalidSocket then
      (x.modify fun l => l.postRecv.2).modify fun l => l.closeClient.releaseClientContext
    else x.modify fun l => l.postRecv.2 := by
  simp only [View.modify, Link.postRecvOrClose]
  split_ifs <;> rfl

/-- What is done with the answer of `WSASend`, in `send` and in `handleSend`. -/
def postSendOrClose (x : View α) : View α :=
  if x.postSend.1 = .failed then x.postSend.2.modify fun l => l.closeClient.releaseClientContext
  else x.postSend.2

theorem firstSend_snd (x : View α) (pData : List α) : (x.firstSend pData).2 =
    ({ x.modify Link.enterIoLoop with out := pData } : View α).postSendOrClose := by
  simp only [View.firstSend, View.postSendOrClose]
  split_ifs <;> rfl

theorem postRest_of_ne {x : View α} (h : x.out ≠ []) : x.postRest = x.postSendOrClose := by
  simp only [View.postRest, if_pos h, View.postSendOrClose]

end NetDemo.Client.View
namespace NetDemo.Server
open Foundation Memory Http Client

/-! ### One handler -/

/-- The context `cl` is in the state of the view `x`, its handlers apart. -/
structure Seen (x : View UInt8) (cl : ClientContext) : Prop where
  socket : cl.m_socket.isSome = x.link.m_socket
  count : cl.m_nPendingIoCnt = x.link.m_nPendingIoCnt
  inBuf : cl.m_inBuf = x.inBuf
  outLen : cl.outLen = x.out.length
  queue : cl.m_outBufQueue = x.queue.map List.length
  recvs : cl.recvs = x.link.recvs
  sends : cl.sends = x.sends.map List.length

/-- The only handler of the context has `code` left to do. -/
def ClientContext.goesOn (cl : ClientContext) (code : Code) : ClientContext :=
  { cl with running := if code = [] then [] else [code] }

theorem Seen.goesOn {x : View UInt8} {cl : ClientContext} (h : Seen x cl) (code : Code) :
    Seen x (cl.goesOn code) :=
  ⟨h.socket, h.count, h.inBuf, h.outLen, h.queue, h.recvs, h.sends⟩

/-- The one handler that works on the context `c` has `code` left to do. -/
structure At (c : ℕ) (code : Code) (x : View UInt8) (s : IocpServer) : Prop where
  seen : Seen x (s.client c)
  running : (s.client c).running = if code = [] then [] else [code]
  connected : c ∈ s.m_connectedClientList ↔ x.link.connected = true

/-- From `s` the threads come to `s'`, and nothing but what the change from `l` to `l'` tells of happens
outside of the context `c`. -/
structure Leads (app : App) (c : ℕ) (l l' : Link UInt8) (s s' : IocpServer) : Prop where
  reaches : Reaches (IocpServer.step app) s s'
  others : ∀ d, d ≠ c → s'.client d = s.client d ∧
    (d ∈ s'.m_connectedClientList ↔ d ∈ s.m_connectedClientList)
  free : s'.m_freeClientList =
    if l.connected && !l'.connected then s.m_freeClientList ++ [c] else s.m_freeClientList
  count : s'.m_nConnClientCnt =
    if l.m_socket && !l'.m_socket then
      if s.m_nConnClientCnt = 0 then 2 ^ 32 - 1 else s.m_nConnClientCnt - 1
    else s.m_nConnClientCnt
  removed : l'.connected = true → l.connected = true
  closed : l'.m_socket = true → l.m_socket = true
  constructed : s'.constructed = s.constructed
  accepts : s'.accepts = s.accepts
  acceptors : s'.acceptors = s.acceptors
  limit : s'.m_nMaxConnClientCnt = s.m_nMaxConnClientCnt

namespace Leads
variable {app : App} {c : ℕ} {l l' l'' : Link UInt8} {s s' s'' : IocpServer}

theorem of_setClient {cl : ClientContext} (h : Reaches (IocpServer.step app) s (s.setClient c cl))
    (hs : l'.m_socket = l.m_socket) (hc : l'.connected = l.connected) :
    Leads app c l l' s (s.setClient c cl) where
  reaches := h
  others d hd := ⟨Function.update_of_ne hd .., .rfl⟩
  free := by simp [hc, IocpServer.setClient]
  count := by simp [hs, IocpServer.setClient]
  removed := by rw [hc]; exact id
  closed := by rw [hs]; exact id
  constructed := rfl
  accepts := rfl
  acceptors := rfl
  limit := rfl

theorem refl (app : App) (c : ℕ) (l : Link UInt8) (s : IocpServer) : Leads app c l l s s where
  reaches := .refl _ s
  others _ _ := ⟨rfl, .rfl⟩
  free := by simp
  count := by simp
  removed := id
  closed := id
  constructed := rfl
  accepts := rfl
  acceptors := rfl
  limit := rfl

theorem trans (h : Leads app c l l' s s') (h' : Leads app c l' l'' s' s'') : Leads app c l l'' s s'' where
  reaches := h.reaches.trans h'.reaches
  others d hd := ⟨(h'.others d hd).1.trans (h.others d hd).1, (h'.others d hd).2.trans (h.others d hd).2⟩
  free := by
    have h₁ := h.removed
    have h₂ := h'.removed
    rw [h'.free, h.free]
    revert h₁ h₂
    cases l.connected <;> cases l'.connected <;> cases l''.connected <;> simp
  count := by
    have h₁ := h.closed
    have h₂ := h'.closed
    rw [h'.count, h.count]
    revert h₁ h₂
    cases l.m_socket <;> cases l'.m_socket <;> cases l''.m_socket <;> simp
  removed := fun hc => h.removed (h'.removed hc)
  closed := fun hs => h.closed (h'.closed hs)
  constructed := h'.constructed.trans h.constructed
  accepts := h'.accepts.trans h.accepts
  acceptors := h'.acceptors.trans h.acceptors
  limit := h'.limit.trans h.limit

end Leads

namespace At
variable {c : ℕ} {code : Code} {x : View UInt8} {s : IocpServer}

theorem of_update {f : ℕ → ClientContext} {cl : ClientContext} (hclient : s.client = Function.update f c cl)
    (hseen : Seen x cl) (hrunning : cl.running = if code = [] then [] else [code])
    (hconn : c ∈ s.m_connectedClientList ↔ x.link.connected = true) : At c code x s := by
  have hself : s.client c = cl := by rw [hclient, Function.update_self]
  exact ⟨by rwa [hself], by rwa [hself], hconn⟩

theorem of_setClient {cl : ClientContext} (h : Seen x cl)
    (hc : c ∈ s.m_connectedClientList ↔ x.link.connected = true) :
    At c code x (s.setClient c (cl.goesOn code)) := of_update rfl (h.goesOn code) rfl hc

theorem step {instr : Instr} (h : At c (instr :: code) x s) (app : App) (ok : Bool) :
    Reaches (IocpServer.step app) s ((s.outside c ok instr).setClient c
      (((s.client c).exec app ok instr).1.goesOn (((s.client c).exec app ok instr).2 ++ code))) := by
  have hrun : (s.client c).running = [] ++ [instr :: code] := by simpa using h.running
  have hself : s.setClient c (s.client c) = s := by rw [IocpServer.setClient, Function.update_eq_self]
  have hmore : ((s.client c).exec app ok instr).2 = ((s.client c).exec app ok instr).2 := rfl
  have hstep := IocpServer.run_last app (t := s) (c := c) hrun hmore []
  rw [hself] at hstep
  refine ⟨[.exec c 0 ok], hstep.trans ?_⟩
  unfold ClientContext.goesOn
  split_ifs <;> rfl

theorem exec {app : App} {instr : Instr} (h : At c (instr :: code) x s) {y : View UInt8} {more : Code}
    (ok : Bool) (hout : ∀ s : IocpServer, s.outside c ok instr = s)
    (hexec : ∀ cl, Seen x cl → (cl.exec app ok instr).2 = more ∧ Seen y (cl.exec app ok instr).1)
    (hs : y.link.m_socket = x.link.m_socket) (hc : y.link.connected = x.link.connected) :
    ∃ s', Leads app c x.link y.link s s' ∧ At c (more ++ code) y s' := by
  obtain ⟨hcode, hseen⟩ := hexec _ h.seen
  have hreach := h.step app ok
  rw [hout, hcode] at hreach
  exact ⟨_, .of_setClient hreach hs hc, .of_setClient hseen (by rw [hc]; exact h.connected)⟩

end At

/-- A handler that has `code` to do makes `x'` of `x`. -/
def Does (app : App) (c : ℕ) (code : Code) (x x' : View UInt8) : Prop :=
  ∀ rest s, At c (code ++ rest) x s → ∃ s', Leads app c x.link x'.link s s' ∧ At c rest x' s'

namespace Does
variable {app : App} {c : ℕ} {x y x' : View UInt8}

theorem nil (app : App) (c : ℕ) (x : View UInt8) : Does app c [] x x :=
  fun _ s h => ⟨s, .refl app c x.link s, h⟩

theorem append {code code' : Code} (h : Does app c code x y) (h' : Does app c code' y x') :
    Does app c (code ++ code') x x' := by
  intro rest s hat
  rw [List.append_assoc] at hat
  obtain ⟨s₁, hleads, hat⟩ := h _ s hat
  obtain ⟨s₂, hleads', hat⟩ := h' rest s₁ hat
  exact ⟨s₂, hleads.trans hleads', hat⟩

theorem cons {instr : Instr} {code : Code} (h : Does app c [instr] x y) (h' : Does app c code y x') :
    Does app c (instr :: code) x x' := h.append h'

theorem exec {instr : Instr} (y : View UInt8) (more : Code) (ok : Bool)
    (hout : ∀ s : IocpServer, s.outside c ok instr = s)
    (hexec : ∀ cl, Seen x cl → (cl.exec app ok instr).2 = more ∧ Seen y (cl.exec app ok instr).1)
    (hs : y.link.m_socket = x.link.m_socket) (hc : y.link.connected = x.link.connected)
    (hmore : Does app c more y x') : Does app c [instr] x x' := by
  intro rest s hat
  obtain ⟨s₁, hleads, hat₁⟩ := At.exec hat ok hout hexec hs hc
  obtain ⟨s', hleads', hat'⟩ := hmore rest s₁ hat₁
  exact ⟨s', hleads.trans hleads', hat'⟩

theorem closeClient (app : App) (c : ℕ) (x : View UInt8) :
    Does app c [.closeClient] x (x.modify Link.closeClient) := by
  by_cases hopen : x.link.m_socket = true
  · intro rest s hat
    -- The threads need two steps: the socket is taken out of the context, and then it is closed.
    have hlink : x.link.closeClient = { x.link with m_socket := false }.note .closed := if_pos hopen
    obtain ⟨k, hk⟩ := Option.isSome_iff_exists.mp (hat.seen.socket.trans hopen)
    have hexec : (s.client c).exec app true .closeClient =
        ({ s.client c with m_socket := none }, [.closesocket k]) := by
      simp only [ClientContext.exec, hk]
    have hreach := At.step hat app true
    rw [hexec] at hreach
    have hseen : Seen (x.modify Link.closeClient) { s.client c with m_socket := none } := by
      have hx := hat.seen
      constructor <;> simp only [View.modify_link, View.modify_inBuf, View.modify_out, View.modify_queue,
        View.modify_sends, hlink]
      · rfl
      · exact hx.count
      · exact hx.inBuf
      · exact hx.outLen
      · exact hx.queue
      · exact hx.recvs
      · exact hx.sends
    have hconn : c ∈ s.m_connectedClientList ↔ (x.modify Link.closeClient).link.connected = true := by
      rw [View.modify_link, hlink]
      exact hat.connected
    have hat₁ : At c (.closesocket k :: rest) (x.modify Link.closeClient)
      (s.setClient c (ClientContext.goesOn { s.client c with m_socket := none } (.closesocket k :: rest))) :=
        .of_setClient hseen hconn
    have hreach₁ := hat₁.step app true
    generalize hs₁ : s.setClient c _ = s₁ at hat₁ hreach₁
    have hothers : ∀ d, d ≠ c → s₁.client d = s.client d := fun d hd => by
      rw [← hs₁]
      exact Function.update_of_ne hd ..
    refine ⟨(s₁.closesocket k true).setClient c ((s₁.client c).goesOn rest), ?_,
      .of_setClient hat₁.seen hat₁.connected⟩
    subst hs₁
    exact {
      reaches := hreach.trans hreach₁
      others := fun d hd => ⟨(Function.update_of_ne hd ..).trans (hothers d hd), .rfl⟩
      free := by
        show s.m_freeClientList = _
        rw [View.modify_link, hlink]
        simp [Link.note]
      count := by
        rw [View.modify_link, hlink, hopen]
        rfl
      removed := by
        rw [View.modify_link, hlink]
        exact id
      closed := fun _ => hopen
      constructed := rfl
      accepts := rfl
      acceptors := rfl
      limit := rfl }
  · have hsame : x.link.closeClient = x.link := if_neg hopen
    have hx : x.modify Link.closeClient = x := by rw [View.modify, hsame]
    rw [hx]
    refine exec x [] true (fun _ => rfl) (fun cl hseen => ?_) rfl rfl (nil app c x)
    have hnone : cl.m_socket = none := by
      rw [← Option.not_isSome_iff_eq_none, hseen.socket]
      exact hopen
    simp only [ClientContext.exec, hnone]
    exact ⟨trivial, hseen⟩

theorem removeClient (app : App) (c : ℕ) (x : View UInt8) :
    Does app c [.removeClient] x (x.modify Link.removeClient) := by
  intro rest s hat
  have hreach := At.step hat app true
  have hseen : Seen (x.modify Link.removeClient) (s.client c) := by
    have hx := hat.seen
    have hlink : x.link.removeClient.m_socket = x.link.m_socket ∧
        x.link.removeClient.m_nPendingIoCnt = x.link.m_nPendingIoCnt ∧
        x.link.removeClient.recvs = x.link.recvs := by
      unfold Link.removeClient
      split_ifs <;> exact ⟨rfl, rfl, rfl⟩
    exact ⟨hx.socket.trans hlink.1.symm, hx.count.trans hlink.2.1.symm, hx.inBuf, hx.outLen, hx.queue,
      hx.recvs.trans hlink.2.2.symm, hx.sends⟩
  by_cases hconn : x.link.connected = true
  · have hlink : x.link.removeClient = { x.link with connected := false, free := true } := if_pos hconn
    have hremove : s.removeClient c = { s with
        m_connectedClientList := s.m_connectedClientList.filter (· ≠ c)
        m_freeClientList := s.m_freeClientList ++ [c] } := if_pos (hat.connected.mpr hconn)
    have hgone : c ∈ (s.removeClient c).m_connectedClientList ↔
        (x.modify Link.removeClient).link.connected = true := by
      rw [hremove, View.modify_link, hlink]
      simp
    refine ⟨_, ?_, .of_setClient hseen hgone⟩
    rw [View.modify_link, hlink]
    refine {
      reaches := hreach
      others := fun d hd => ⟨?_, ?_⟩
      free := ?_
      count := ?_
      removed := fun hno => absurd hno Bool.false_ne_true
      closed := id
      constructed := ?_
      accepts := ?_
      acceptors := ?_
      limit := ?_ }
    · refine (Function.update_of_ne hd ..).trans ?_
      show (s.removeClient c).client d = _
      rw [hremove]
    · rw [hremove]
      simp [IocpServer.setClient, hd]
    · rw [hremove, hconn]
      rfl
    · rw [hremove]
      simp [IocpServer.setClient]
    all_goals rw [hremove]; rfl
  · have hlink : x.link.removeClient = x.link := if_neg hconn
    have hremove : s.removeClient c = s := if_neg fun hmem => hconn (hat.connected.mp hmem)
    have hsame : x.modify Link.removeClient = x := by rw [View.modify, hlink]
    change Reaches _ s ((s.removeClient c).setClient c _) at hreach
    rw [hremove] at hreach
    rw [hsame] at hseen ⊢
    exact ⟨_, .of_setClient hreach rfl rfl, .of_setClient hseen hat.connected⟩

theorem release (app : App) (c : ℕ) (x : View UInt8) (n : ℤ) :
    Does app c (if n ≤ 0 then [.removeClient] else []) x
      (if n ≤ 0 then x.modify Link.removeClient else x) := by
  split_ifs
  · exact removeClient app c x
  · exact nil app c x

end Does

theorem Seen.exitIoLoop {x : View UInt8} {cl : ClientContext} (h : Seen x cl) :
    cl.exitIoLoop.2 = (if x.link.exitIoLoop.1 ≤ 0 then [.removeClient] else []) ∧
      Seen (x.modify fun l => l.exitIoLoop.2) cl.exitIoLoop.1 := by
  have hdown : cl.countDown = x.link.exitIoLoop.2.m_nPendingIoCnt := by
    rw [ClientContext.countDown, h.count]
    rfl
  have hint : x.link.exitIoLoop.1 = int32 cl.countDown := by
    rw [hdown]
    rfl
  refine ⟨by rw [hint]; rfl, ?_⟩
  exact ⟨h.socket, hdown, h.inBuf, h.outLen, h.queue, h.recvs, h.sends⟩

namespace Does
variable {app : App} {c : ℕ} {x y x' : View UInt8}

theorem exitIoLoop (app : App) (c : ℕ) (x : View UInt8) (of : Ref) :
    Does app c [.exitIoLoop of] x (x.modify Link.releaseClientContext) := by
  rw [View.modify_releaseClientContext]
  exact exec _ _ true (fun _ => rfl) (fun cl h => h.exitIoLoop) rfl rfl (release app c _ _)

theorem closeAndRelease (app : App) (c : ℕ) (x : View UInt8) (of : Ref) :
    Does app c (ClientContext.closeAndRelease of) x
      (x.modify fun l => l.closeClient.releaseClientContext) := by
  rw [← View.modify_modify x Link.closeClient Link.releaseClientContext]
  exact (closeClient app c x).cons (exitIoLoop app c _ of)

end Does

theorem Seen.postRecv {x : View UInt8} {cl : ClientContext} (h : Seen x cl) :
    (cl.postRecv (x.link.net 0)).1 = x.link.postRecv.1 ∧
      Seen (x.modify fun l => l.postRecv.2) (cl.postRecv (x.link.net 0)).2 := by
  have hsocket := h.socket
  rcases x.link.postRecv_cases with ⟨hopen, hnet, hpost⟩ | ⟨hopen, hnet, hpost⟩ | ⟨hopen, hpost⟩
  all_goals rw [hopen] at hsocket
  · obtain ⟨k, hk⟩ := Option.isSome_iff_exists.mp hsocket
    simp only [ClientContext.postRecv, hk, hnet, hpost, if_true, true_and, View.modify]
    exact ⟨hopen.symm, h.count, h.inBuf, h.outLen, h.queue, congrArg (· + 1) h.recvs, h.sends⟩
  · obtain ⟨k, hk⟩ := Option.isSome_iff_exists.mp hsocket
    simp only [ClientContext.postRecv, hk, hnet, hpost, Bool.false_eq_true, if_false, true_and, View.modify]
    exact ⟨h.socket, h.count, h.inBuf, h.outLen, h.queue, h.recvs, h.sends⟩
  · have hnone : cl.m_socket = none := by simpa using hsocket
    simp only [ClientContext.postRecv, hnone, hpost, true_and, View.modify]
    exact h

theorem Seen.postSend {x : View UInt8} {cl : ClientContext} (h : Seen x cl) :
    (cl.postSend (x.link.net 0)).1 = x.postSend.1 ∧ Seen x.postSend.2 (cl.postSend (x.link.net 0)).2 := by
  have hsocket := h.socket
  rcases x.postSend_cases with ⟨hopen, hnet, hpost⟩ | ⟨hopen, hnet, hpost⟩ | ⟨hopen, hpost⟩
  all_goals rw [hopen] at hsocket
  · obtain ⟨k, hk⟩ := Option.isSome_iff_exists.mp hsocket
    simp only [ClientContext.postSend, hk, hnet, hpost, if_true, true_and]
    exact ⟨hopen.symm, h.count, h.inBuf, h.outLen, h.queue, h.recvs,
      by simp [h.sends, h.outLen]⟩
  · obtain ⟨k, hk⟩ := Option.isSome_iff_exists.mp hsocket
    simp only [ClientContext.postSend, hk, hnet, hpost, Bool.false_eq_true, if_false, true_and]
    exact ⟨h.socket, h.count, h.inBuf, h.outLen, h.queue, h.recvs, h.sends⟩
  · have hnone : cl.m_socket = none := by simpa using hsocket
    simp only [ClientContext.postSend, hnone, hpost, true_and]
    exact h

namespace Does
variable {app : App} {c : ℕ} {x y x' : View UInt8}

theorem postRecv (app : App) (c : ℕ) (x : View UInt8) :
    Does app c [.postRecv] x (x.modify Link.postRecvOrClose) := by
  have hplace : x.link.postRecv.2.connected = x.link.connected := by
    rcases x.link.postRecv_cases with ⟨-, -, h⟩ | ⟨-, -, h⟩ | ⟨-, h⟩ <;> rw [h] <;> rfl
  rw [View.modify_postRecvOrClose]
  refine exec (x.modify fun l => l.postRecv.2) (if x.link.postRecv.1 = .failed ∨
    x.link.postRecv.1 = .invalidSocket then ClientContext.closeAndRelease .recv else [])
    (x.link.net 0) (fun _ => rfl) (fun cl h => ?_) x.link.postRecv_socket hplace ?_
  · obtain ⟨hresult, hseen⟩ := h.postRecv
    simp only [ClientContext.exec, hresult]
    exact ⟨trivial, hseen⟩
  · split_ifs
    · exact closeAndRelease app c _ .recv
    · exact nil app c _

theorem postSend (app : App) (c : ℕ) (x : View UInt8) : Does app c [.postSend] x x.postSendOrClose := by
  have hlink : x.postSend.2.link.m_socket = x.link.m_socket ∧
      x.postSend.2.link.connected = x.link.connected := by
    rcases x.postSend_cases with ⟨-, -, h⟩ | ⟨-, -, h⟩ | ⟨-, h⟩ <;> rw [h] <;> exact ⟨rfl, rfl⟩
  rw [View.postSendOrClose]
  refine exec x.postSend.2 (if x.postSend.1 = .failed then ClientContext.closeAndRelease .send else [])
    (x.link.net 0) (fun _ => rfl) (fun cl h => ?_) hlink.1 hlink.2 ?_
  · obtain ⟨hresult, hseen⟩ := h.postSend
    simp only [ClientContext.exec, hresult]
    exact ⟨trivial, hseen⟩
  · split_ifs
    · exact closeAndRelease app c _ .send
    · exact nil app c _

theorem send (app : App) (c : ℕ) (x : View UInt8) (pData : Bytes) :
    Does app c [.send pData.length] x (x.sent pData).2 := by
  by_cases hout : x.out = []
  · have hsent : (x.sent pData).2 = ({ x.modify fun l => (l.note (.send pData)).enterIoLoop with
        out := pData } : View UInt8).postSendOrClose := by
      rw [View.sent, if_pos (by exact hout), View.firstSend_snd]
      rfl
    rw [hsent]
    refine exec _ [.postSend] true (fun _ => rfl) (fun cl h => ?_) ?_ ?_ (postSend app c _)
    · have hlen : 0 = cl.outLen := by rw [h.outLen, hout]; rfl
      simp only [ClientContext.exec, if_pos hlen, true_and]
      exact ⟨h.socket, congrArg (fun n => (n + 1) % 2 ^ 32) h.count, h.inBuf, rfl, h.queue, h.recvs, h.sends⟩
    all_goals rfl
  · have hsent : (x.sent pData).2 = (x.modify fun l => l.note (.send pData)).queueSend pData := by
      rw [View.sent, if_neg (by exact hout)]
    rw [hsent]
    refine exec _ [] true (fun _ => rfl) (fun cl h => ?_) ?_ ?_ (nil app c _)
    · have hlen : ¬ 0 = cl.outLen := by
        rw [h.outLen, eq_comm, List.length_eq_zero_iff]
        exact hout
      simp only [ClientContext.exec, if_neg hlen, true_and]
      exact ⟨h.socket, h.count, h.inBuf, h.outLen, by simp [View.queueSend, h.queue], h.recvs, h.sends⟩
    all_goals rfl

theorem removeAll (app : App) (c : ℕ) (x : View UInt8) :
    Does app c [.removeAll] x { x with inBuf := x.inBuf.remove x.inBuf.len } := by
  refine exec _ [] true (fun _ => rfl) (fun cl h => ?_) ?_ ?_ (nil app c _)
  · simp only [ClientContext.exec, h.inBuf, true_and]
    exact ⟨h.socket, h.count, rfl, h.outLen, h.queue, h.recvs, h.sends⟩
  all_goals rfl

theorem noted {code : Code} (n : Note UInt8) (h : Does app c code (x.modify fun l => l.note n) x') :
    Does app c code x x' := by
  intro rest s hat
  obtain ⟨s', hleads, hat'⟩ := h rest s ⟨⟨hat.seen.socket, hat.seen.count, hat.seen.inBuf, hat.seen.outLen,
    hat.seen.queue, hat.seen.recvs, hat.seen.sends⟩, hat.running, hat.connected⟩
  exact ⟨s', ⟨hleads.reaches, hleads.others, hleads.free, hleads.count, hleads.removed, hleads.closed,
    hleads.constructed, hleads.accepts, hleads.acceptors, hleads.limit⟩, hat'⟩

theorem reply (app : App) (c : ℕ) (x : View UInt8) (codec : HttpCodec) (ret : ℤ) :
    Does app c [.send codec.responseMessage.length, .removeAll] x (x.reply codec ret) := by
  rw [View.reply]
  split_ifs
  · exact noted (.decoded codec.m_req) ((send app c _ codec.responseMessage).cons (removeAll app c _))
  · exact (send app c x codec.responseMessage).cons (removeAll app c _)

theorem decode (w size c : ℕ) {fuel : ℕ} {codec : HttpCodec}
    (hx' : x.requestLoop w size fuel codec = some x') : Does (.http w) c [.decode w size codec] x x' := by
  induction fuel generalizing x codec with
  | zero => cases hx'
  | succ fuel ih =>
    refine exec x (ClientContext.reply w size (codec.tryDecode w (x.inBuf.mem.take size)).1
      (codec.tryDecode w (x.inBuf.mem.take size)).2) true (fun _ => rfl) (fun cl h => ?_) rfl rfl ?_
    · simp only [ClientContext.exec, h.inBuf, true_and]
      exact h
    · rw [ClientContext.reply]
      rcases lt_trichotomy 0 (codec.tryDecode w (x.inBuf.mem.take size)).1 with hpos | hzero | hneg
      · rw [View.requestLoop_more hpos, View.round_pos hpos, View.round_codec] at hx'
        simp only [if_pos (Int.ne_of_gt hpos), if_neg (Int.not_lt.mpr hpos.le), if_pos hpos, List.append_nil]
        exact (reply _ c x _ _).append (ih hx')
      · rw [View.requestLoop_last hzero.ge, View.round_zero hzero.symm] at hx'
        obtain rfl := Option.some.inj hx'
        simp only [← hzero, ne_eq, not_true, lt_irrefl, if_false, List.append_nil]
        exact nil _ c x
      · rw [View.requestLoop_last hneg.le, View.round_neg hneg] at hx'
        obtain rfl := Option.some.inj hx'
        simp only [if_pos (Int.ne_of_lt hneg), if_neg (Int.not_lt.mpr hneg.le), if_pos hneg, List.append_nil]
        exact (reply _ c x _ _).append (closeAndRelease _ c _ .stray)

theorem echo (app : App) (c : ℕ) (x : View UInt8) : Does app c [.send x.inBuf.len, .removeAll] x x.echo := by
  rw [← Cells.length_live]
  exact (send app c x x.inBuf.live).cons (removeAll app c _)

theorem nextOutBuf (hout : x.out = []) (hx' : x.nextOutBuf = some x') : x'.out = [] := by
  rw [View.nextOutBuf] at hx'
  split at hx'
  · obtain rfl := Option.some.inj hx'
    exact hout
  · obtain rfl := Option.some.inj hx'
    rfl
  · cases hx'

theorem handleSend {n : ℕ} (hx' : x.handleSend n = some x') : Does app c [.handleSend n] x x' := by
  by_cases hd : x.out.drop n = []
  · rw [View.handleSend_done hd] at hx'
    obtain ⟨y, hy, rfl⟩ := Option.map_eq_some_iff.mp hx'
    rw [View.postRest_nil (nextOutBuf rfl hy)]
    have hempty : ∀ cl, Seen x cl → 0 = cl.outLen - n := fun cl h => by
      rw [h.outLen, ← List.length_drop, hd]
      rfl
    rw [View.nextOutBuf] at hy
    split at hy
    · next hq =>
      obtain rfl := Option.some.inj hy
      rw [View.modify_releaseClientContext]
      refine exec (({ x with out := [] } : View UInt8).modify fun l => l.exitIoLoop.2) _ true (fun _ => rfl)
        (fun cl h => ?_) rfl rfl (release app c _ _)
      have hseen : Seen ({ x with out := [] } : View UInt8) { cl with outLen := 0 } :=
        ⟨h.socket, h.count, h.inBuf, rfl, h.queue, h.recvs, h.sends⟩
      have hqueue : cl.m_outBufQueue = [] := by rw [h.queue, show x.queue = [] from hq]; rfl
      have hexec : cl.exec app true (.handleSend n) = ({ cl with outLen := 0 } : ClientContext).exitIoLoop := by
        simp only [ClientContext.exec, if_pos (hempty cl h), hqueue]
        rw [← hempty cl h]
      rw [hexec]
      exact hseen.exitIoLoop
    · next rest hq =>
      obtain rfl := Option.some.inj hy
      refine exec _ [] true (fun _ => rfl) (fun cl h => ?_) ?_ ?_ (nil app c _)
      · have hqueue : cl.m_outBufQueue = 0 :: rest.map List.length := by
          rw [h.queue, show x.queue = [] :: rest from hq]
          rfl
        simp only [ClientContext.exec, if_pos (hempty cl h), hqueue, ne_eq, not_true, if_false, true_and]
        exact ⟨h.socket, h.count, h.inBuf, rfl, rfl, h.recvs, h.sends⟩
      all_goals rfl
    · cases hy
  · rw [View.handleSend_rest hd] at hx'
    obtain rfl := Option.some.inj hx'
    rw [View.postRest_of_ne hd]
    refine exec _ [.postSend] true (fun _ => rfl) (fun cl h => ?_) ?_ ?_ (postSend app c _)
    · have hleft : cl.outLen - n = (x.out.drop n).length := by rw [h.outLen, List.length_drop]
      have hne : ¬ 0 = cl.outLen - n := by
        rw [hleft, eq_comm, List.length_eq_zero_iff]
        exact hd
      simp only [ClientContext.exec, if_neg hne, true_and]
      exact ⟨h.socket, h.count, h.inBuf, hleft, h.queue, h.recvs, h.sends⟩
    all_goals rfl

end Does

/-! ### One completion -/

/-- What `App.complete` does to the view of a context. -/
def App.completeView (fuel : ℕ) (x : View UInt8) (e : Client.ClientContext.Event) : App → Option (View UInt8)
  | .http w => x.step w fuel e
  | .echo => match e with
    | .recv m_recvBuf =>
      if 0 < x.link.recvs ∧ m_recvBuf ≠ [] ∧ m_recvBuf.length ≤ Client.ClientContext.IO_BUF_SIZE then
        if x.inBuf.len + m_recvBuf.length ≤ 2 ^ 32 - 1024 then
          some (({ x.modify Link.takeRecv with
            inBuf := x.inBuf.write m_recvBuf } : View UInt8).echo.modify Link.postRecvOrClose)
        else none
      else some x
    | .recvClose | .send _ | .sendClose => x.step 0 0 e

theorem complete_echo_other {cl : Client.ClientContext UInt8} {e : Client.ClientContext.Event}
    (he : ∀ d, e ≠ .recv d) (fuel : ℕ) : App.echo.complete fuel cl e = cl.step 0 0 e := by
  cases e with
  | recv d => exact absurd rfl (he d)
  | recvClose =>
    simp only [App.complete, Echo.step, Client.ClientContext.step]
    split_ifs <;> rfl
  | send n =>
    simp only [App.complete, Echo.step, Client.ClientContext.step]
    cases cl.sendCompleted n <;> rfl
  | sendClose =>
    simp only [App.complete, Echo.step, Client.ClientContext.step]
    cases cl.sends <;> rfl

theorem complete_echo_recv {cl : Client.ClientContext UInt8} {x : View UInt8} (hx : Holds none cl x)
    (fuel : ℕ) (d : Bytes) :
    Option.Rel (Holds none) (App.echo.complete fuel cl (.recv d)) (App.echo.completeView fuel x (.recv d)) := by
  simp only [App.complete, Echo.step, App.completeView, ← hx.link]
  split_ifs with hr hroom
  · obtain ⟨s', e, hx'⟩ := (hx.modify Link.takeRecv).handleRecvEcho hroom
    rw [e]
    exact .some hx'
  · have hshort : d.length < 2 ^ 32 := by
      have hlen := hr.2.2
      rw [Client.ClientContext.IO_BUF_SIZE] at hlen
      omega
    have hfault := (hx.modify Link.takeRecv).appendToBuffer_fault hshort (Nat.lt_of_not_le hroom)
    rw [Client.ClientContext.handleRecvEcho, hfault]
    exact .none
  · exact .some hx

theorem complete_rel {cl : Client.ClientContext UInt8} {x : View UInt8} (hx : Holds none cl x) (app : App)
    (fuel : ℕ) (e : Client.ClientContext.Event) :
    Option.Rel (Holds none) (app.complete fuel cl e) (app.completeView fuel x e) := by
  cases app with
  | http w => exact hx.step w fuel e
  | echo =>
    cases e with
    | recv d => exact complete_echo_recv hx fuel d
    | recvClose | send n | sendClose =>
      rw [complete_echo_other (by simp)]
      exact hx.step 0 0 _

namespace At
variable {c : ℕ} {x : View UInt8} {s : IocpServer}

theorem goesOn (h : At c [] x s) {y : View UInt8} {cl : ClientContext} {code : Code} (hseen : Seen y cl)
    (hlink : y.link.connected = x.link.connected) (hrun : cl.running = [code]) (hcode : code ≠ []) :
    At c code y (s.setClient c cl) := by
  have hcl : cl.goesOn code = cl := by
    rw [ClientContext.goesOn, if_neg hcode, ← hrun]
  rw [← hcl]
  exact .of_setClient hseen (by rw [hlink]; exact h.connected)

theorem recv (h : At c [] x s) (app : App) (hr : 0 < x.link.recvs) {m_recvBuf : Option Bytes}
    (hd : ∀ d ∈ m_recvBuf, d ≠ [] ∧ d.length ≤ Client.ClientContext.IO_BUF_SIZE) :
    ∃ s', Leads app c x.link (x.modify Link.takeRecv).link s s' ∧
      At c (IocpServer.recvCode m_recvBuf) (x.modify Link.takeRecv) s' := by
  have hrecvs : 0 < (s.client c).recvs := by
    rw [h.seen.recvs]
    exact hr
  have hrun : (s.client c).running = [] := h.running
  have hstep : s.step app (.recv c m_recvBuf) = some (s.setClient c { s.client c with
      recvs := (s.client c).recvs - 1
      running := (s.client c).running ++ [IocpServer.recvCode m_recvBuf] }) := if_pos ⟨hrecvs, hd⟩
  refine ⟨_, .of_setClient (.of_step hstep) rfl rfl, h.goesOn ?_ rfl (by rw [hrun]; rfl) ?_⟩
  · exact ⟨h.seen.socket, h.seen.count, h.seen.inBuf, h.seen.outLen, h.seen.queue,
      congrArg (· - 1) h.seen.recvs, h.seen.sends⟩
  · cases m_recvBuf <;> exact List.cons_ne_nil _ _

theorem send (h : At c [] x s) (app : App) {bytes : Bytes} {rest : List Bytes} (hs : x.sends = bytes :: rest)
    {n : Option ℕ} (hn : ∀ k ∈ n, 0 < k ∧ k ≤ bytes.length) :
    ∃ s', Leads app c x.link x.link s s' ∧ At c (IocpServer.sendCode n) { x with sends := rest } s' := by
  have hsends : (s.client c).sends = bytes.length :: rest.map List.length := by
    rw [h.seen.sends, hs]
    rfl
  have hrun : (s.client c).running = [] := h.running
  have hstep : s.step app (.send c 0 n) = some (s.setClient c { s.client c with
      sends := (s.client c).sends.eraseIdx 0
      running := (s.client c).running ++ [IocpServer.sendCode n] }) := by
    simp only [IocpServer.step, hsends, List.getElem?_cons_zero]
    exact if_pos hn
  refine ⟨_, .of_setClient (.of_step hstep) rfl rfl, h.goesOn ?_ rfl (by rw [hrun]; rfl) ?_⟩
  · exact ⟨h.seen.socket, h.seen.count, h.seen.inBuf, h.seen.outLen, h.seen.queue, h.seen.recvs,
      by rw [hsends]; rfl⟩
  · cases n <;> exact List.cons_ne_nil _ _

end At

/-- The threads can do to the context `c`, when nobody is at work on it, what makes `x'` of `x`. -/
def Matched (app : App) (c : ℕ) (x x' : View UInt8) : Prop :=
  ∀ s, At c [] x s → ∃ s', Leads app c x.link x'.link s s' ∧ At c [] x' s'

namespace Matched
variable {app : App} {c : ℕ} {x x' : View UInt8}

theorem refl (app : App) (c : ℕ) (x : View UInt8) : Matched app c x x :=
  fun s h => ⟨s, .refl app c x.link s, h⟩

theorem recv (m_recvBuf : Option Bytes) (hr : 0 < x.link.recvs)
    (hd : ∀ d ∈ m_recvBuf, d ≠ [] ∧ d.length ≤ Client.ClientContext.IO_BUF_SIZE)
    (hdoes : Does app c (IocpServer.recvCode m_recvBuf) (x.modify Link.takeRecv) x') : Matched app c x x' := by
  intro s h
  obtain ⟨s₁, hleads, hat⟩ := h.recv app hr hd
  rw [← List.append_nil (IocpServer.recvCode m_recvBuf)] at hat
  obtain ⟨s₂, hleads', hat'⟩ := hdoes [] s₁ hat
  exact ⟨s₂, hleads.trans hleads', hat'⟩

theorem send (n : Option ℕ) {bytes : Bytes} {rest : List Bytes} (hs : x.sends = bytes :: rest)
    (hn : ∀ k ∈ n, 0 < k ∧ k ≤ bytes.length)
    (hdoes : Does app c (IocpServer.sendCode n) { x with sends := rest } x') : Matched app c x x' := by
  intro s h
  obtain ⟨s₁, hleads, hat⟩ := h.send app hs hn
  rw [← List.append_nil (IocpServer.sendCode n)] at hat
  obtain ⟨s₂, hleads', hat'⟩ := hdoes [] s₁ hat
  exact ⟨s₂, hleads.trans hleads', hat'⟩

theorem recvClose (app : App) (c : ℕ) (hr : 0 < x.link.recvs) :
    Matched app c x ((x.modify Link.takeRecv).modify Link.handleClose) :=
  recv none hr (by simp) (Does.closeAndRelease app c _ .recv)

theorem sendClose (app : App) (c : ℕ) {bytes : Bytes} {rest : List Bytes} (hs : x.sends = bytes :: rest) :
    Matched app c x (({ x with sends := rest } : View UInt8).modify Link.handleClose) :=
  send none hs (by simp) (Does.closeAndRelease app c _ .send)

theorem sendCompleted (app : App) (c : ℕ) {n : ℕ} (hx' : x.sendCompleted n = some x') : Matched app c x x' := by
  rw [View.sendCompleted] at hx'
  split at hx'
  · obtain rfl := Option.some.inj hx'
    exact refl app c x
  · next bytes rest hs =>
    split_ifs at hx' with hn
    · refine send (some n) hs (by simpa using hn) ?_
      exact (Does.handleSend hx').noted (.reported (bytes.take n))
    · obtain rfl := Option.some.inj hx'
      exact refl app c x

/-- All completions but those of receives with bytes are the same under every `notifyPackageReceived`. -/
theorem other {w fuel : ℕ} {e : Client.ClientContext.Event} (he : ∀ d, e ≠ .recv d)
    (hx' : x.step w fuel e = some x') : Matched app c x x' := by
  cases e with
  | recv d => exact absurd rfl (he d)
  | recvClose =>
    rw [View.step] at hx'
    split_ifs at hx' with hr
    · obtain rfl := Option.some.inj hx'
      exact recvClose app c hr
    · obtain rfl := Option.some.inj hx'
      exact refl app c x
  | send n => exact sendCompleted app c hx'
  | sendClose =>
    rw [View.step] at hx'
    split at hx'
    · obtain rfl := Option.some.inj hx'
      exact refl app c x
    · next bytes rest hs =>
      obtain rfl := Option.some.inj hx'
      exact sendClose app c hs

theorem http {w fuel : ℕ} {e : Client.ClientContext.Event} (hx' : x.step w fuel e = some x') :
    Matched (.http w) c x x' := by
  cases e with
  | recv d =>
    rw [View.step] at hx'
    split_ifs at hx' with hr
    · rw [View.handleRecv] at hx'
      split_ifs at hx'
      obtain ⟨y, hy, rfl⟩ := Option.map_eq_some_iff.mp hx'
      refine recv (some d) hr.1 (by simpa using hr.2) ?_
      refine Does.cons (y := y) ?_ (Does.postRecv _ c y)
      exact Does.exec { x.modify Link.takeRecv with inBuf := x.inBuf.write d } _ true (fun _ => rfl)
        (fun cl h => ⟨by rw [ClientContext.exec, h.inBuf]; rfl,
          ⟨h.socket, h.count, congrArg (Cells.write · d) h.inBuf, h.outLen, h.queue, h.recvs, h.sends⟩⟩)
        rfl rfl (Does.decode w _ c hy)
    · obtain rfl := Option.some.inj hx'
      exact refl _ c x
  | recvClose | send n | sendClose => exact other (by simp) hx'

theorem echo {d : Bytes} (hr : 0 < x.link.recvs)
    (hd : d ≠ [] ∧ d.length ≤ Client.ClientContext.IO_BUF_SIZE) : Matched .echo c x (({ x.modify Link.takeRecv with
      inBuf := x.inBuf.write d } : View UInt8).echo.modify Link.postRecvOrClose) := by
  refine recv (some d) hr (by simpa using hd) ?_
  refine Does.cons ?_ (Does.postRecv _ c _)
  exact Does.exec { x.modify Link.takeRecv with inBuf := x.inBuf.write d } _ true (fun _ => rfl)
    (fun cl h => ⟨by rw [ClientContext.exec, h.inBuf]; rfl,
      ⟨h.socket, h.count, congrArg (Cells.write · d) h.inBuf, h.outLen, h.queue, h.recvs, h.sends⟩⟩)
    rfl rfl (Does.echo _ c _)

theorem complete {fuel : ℕ} {e : Client.ClientContext.Event} (hx' : app.completeView fuel x e = some x')
    (c : ℕ) : Matched app c x x' := by
  cases app with
  | http w => exact http hx'
  | echo =>
    cases e with
    | recv d =>
      simp only [App.completeView] at hx'
      split_ifs at hx' with hr hroom
      · obtain rfl := Option.some.inj hx'
        exact echo hr.1 hr.2
      · obtain rfl := Option.some.inj hx'
        exact refl _ c x
    | recvClose | send n | sendClose =>
      simp only [App.completeView] at hx'
      exact other (by simp) hx'

end Matched

end NetDemo.Server
