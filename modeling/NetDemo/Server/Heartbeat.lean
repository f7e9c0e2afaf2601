import NetDemo.Server.Timer
import NetDemo.Server.References

/-! The heartbeat and the references: what the completions that the timer posts do to the count of a
client, and to the clients that get its context later. -/

namespace NetDemo.Server
open Foundation Memory Http Client

/-! ### Handlers and their origins -/

/-- All that is under way for a context belongs to the connection that it serves, save for a handler
that only has to put the context on the free list. -/
structure Belongs (cl : ClientContext) (o : Origin) : Prop where
  recvs : o.recvs = List.replicate cl.recvs o.connection
  sends : o.sends = List.replicate cl.sends.length o.connection
  workers : List.Forall₂ (fun code w => w.connection = o.connection ∨ code = [.removeClient])
    cl.running o.workers

namespace ClientContext

theorem recvs_le_exec (app : App) (cl : ClientContext) (ok : Bool) (instr : Instr) :
    cl.recvs ≤ (cl.exec app ok instr).1.recvs := by
  cases instr with
  | postRecv =>
    rcases cl.exec_postRecv app ok with hexec | hexec <;> rw [hexec]
    exact Nat.le_succ _
  | postSend => rcases cl.exec_postSend app ok with hexec | hexec | ⟨-, hexec⟩ <;> rw [hexec]
  | _ =>
    simp only [exec, enterIoLoop, exitIoLoop]
    repeat' (first | exact le_rfl | split)

theorem sends_length_le_exec (app : App) (cl : ClientContext) (ok : Bool) (instr : Instr) :
    cl.sends.length ≤ (cl.exec app ok instr).1.sends.length := by
  cases instr with
  | postRecv => rcases cl.exec_postRecv app ok with hexec | hexec <;> rw [hexec]
  | postSend =>
    rcases cl.exec_postSend app ok with hexec | hexec | ⟨-, hexec⟩ <;> rw [hexec]
    simp
  | _ =>
    simp only [exec, enterIoLoop, exitIoLoop]
    repeat' (first | exact le_rfl | split)

end ClientContext

namespace Belongs
variable {cl : ClientContext} {o : Origin}

theorem exec (h : Belongs cl o) (app : App) {i : ℕ} {instr : Instr} {rest : Code} {w : Worker}
    (hi : cl.running[i]? = some (instr :: rest)) (hw : o.workers[i]? = some w) (ok : Bool) :
    Belongs
      { (cl.exec app ok instr).1 with running := resume cl.running i ((cl.exec app ok instr).2 ++ rest) }
      { o with
        recvs := o.recvs ++ List.replicate ((cl.exec app ok instr).1.recvs - cl.recvs) o.connection
        sends := o.sends ++
          List.replicate ((cl.exec app ok instr).1.sends.length - cl.sends.length) o.connection
        workers := resumeWorker o.workers i instr rest (cl.exec app ok instr).2 } where
  recvs := by
    rw [h.recvs, List.replicate_append_replicate, Nat.add_sub_cancel' (cl.recvs_le_exec app ok instr)]
  sends := by
    rw [h.sends, List.replicate_append_replicate, Nat.add_sub_cancel' (cl.sends_length_le_exec app ok instr)]
  workers := by
    refine forall₂_resume h.workers _ fun w' hw' hne => .inl ?_
    obtain rfl := Option.some.inj (hw.symm.trans hw')
    rcases Forall₂.getElem? h.workers hi hw with hconn | hremove
    · exact hconn
    · -- `removeClient` is the last instruction, so nothing is left.
      obtain ⟨rfl, rfl⟩ := List.cons.inj hremove
      exact absurd rfl hne

theorem take (h : Belongs cl o) {cl' : ClientContext} {recvs sends : List ℕ} {code : Code} {connection : ℕ}
    (hrun : cl'.running = cl.running ++ [code]) (hrecvs : recvs = List.replicate cl'.recvs o.connection)
    (hsends : sends = List.replicate cl'.sends.length o.connection)
    (hconn : connection = o.connection ∨ code = [.removeClient]) : Belongs cl'
      { o with recvs := recvs, sends := sends, workers := o.workers ++ [⟨connection, none⟩] } where
  recvs := hrecvs
  sends := hsends
  workers := by
    rw [hrun]
    exact forall₂_append_one h.workers hconn

theorem release (h : Belongs cl o) (connection : ℕ) : Belongs
    { cl.exitIoLoop.1 with running := cl.running ++ if cl.exitIoLoop.2 = [] then [] else [cl.exitIoLoop.2] }
    { o with workers := o.workers ++ if cl.exitIoLoop.2 = [] then [] else [Worker.mk connection none] } where
  recvs := h.recvs
  sends := h.sends
  workers := by
    show List.Forall₂ _ (cl.running ++ if cl.exitIoLoop.2 = [] then [] else [cl.exitIoLoop.2])
      (o.workers ++ if cl.exitIoLoop.2 = [] then [] else [Worker.mk connection none])
    by_cases hnone : cl.exitIoLoop.2 = []
    · rw [if_pos hnone, if_pos hnone, List.append_nil, List.append_nil]
      exact h.workers
    · rw [if_neg hnone, if_neg hnone]
      exact forall₂_append_one h.workers (.inr (if_pos (not_not.mp fun hno => hnone (if_neg hno))))

theorem allocate (h : Belongs cl o) (hrun : cl.running = []) (hrecvs : cl.recvs = 0) (hsends : cl.sends = [])
    {cl' : ClientContext} (hrun' : cl'.running = [[.associate]]) (hrecvs' : cl'.recvs = 0)
    (hsends' : cl'.sends = []) (new : Prop) [Decidable new] : Belongs cl' { o with
      connection := o.connection + 1
      workers := (if new then [] else o.workers) ++ [⟨o.connection + 1, none⟩] } where
  recvs := by rw [h.recvs, hrecvs, hrecvs']; rfl
  sends := by rw [h.sends, hsends, hsends']; rfl
  workers := by
    have hnone := h.workers
    rw [hrun] at hnone
    rw [hrun', List.forall₂_nil_left_iff.mp hnone, ite_self]
    exact .cons (.inl rfl) .nil

end Belongs

/-! ### References that are to spare -/

namespace ClientContext

/-- No instruction uses up references that neither an operation in flight nor a handler has. -/
theorem exec_refs_le (app : App) (cl : ClientContext) (ok : Bool) {instr : Instr} (hwork : Working app instr)
    (hsmooth : Smooth False cl instr) (hpos : 0 < cl.m_nPendingIoCnt) (hlt : cl.m_nPendingIoCnt + 1 < 2 ^ 32) :
    (cl.exec app ok instr).1.recvs + (cl.exec app ok instr).1.sends.length +
        (recvIn (cl.exec app ok instr).2 + sendIn (cl.exec app ok instr).2) + cl.m_nPendingIoCnt ≤
      cl.recvs + cl.sends.length + (recvIn [instr] + sendIn [instr]) +
        (cl.exec app ok instr).1.m_nPendingIoCnt := by
  -- `releaseClientContext` takes one reference, and puts none into the handler.
  have hexit (cl' : ClientContext) (hcount : cl'.m_nPendingIoCnt = cl.m_nPendingIoCnt) :
      recvIn cl'.exitIoLoop.2 + sendIn cl'.exitIoLoop.2 = 0 ∧
        cl'.exitIoLoop.1.m_nPendingIoCnt + 1 = cl.m_nPendingIoCnt := by
    constructor
    · simp only [exitIoLoop]
      split_ifs <;> rfl
    · show cl'.countDown + 1 = _
      rw [countDown, if_neg (by omega)]
      omega
  cases instr with
  | associate | enterIoLoop | postAccept | addClient | removeClient => exact hwork.elim
  | postRecv =>
    rcases cl.exec_postRecv app ok with hexec | hexec <;> rw [hexec]
    · simp only [recvIn_nil, sendIn_nil, recvIn_cons, sendIn_cons, Instr.ownsRecv, Instr.ownsSend]
      simp
      omega
    · exact le_rfl
  | receive d => cases app <;> exact le_rfl
  | decode w size codec =>
    obtain ⟨hr, hs⟩ := owns_reply w size (hsmooth.decode w size codec rfl)
    simp only [exec, hr, hs]
    simp
  | send len =>
    by_cases hout : 0 = cl.outLen
    · simp only [exec, if_pos hout, enterIoLoop, Nat.mod_eq_of_lt hlt, recvIn_cons, sendIn_cons, recvIn_nil,
        sendIn_nil, Instr.ownsRecv, Instr.ownsSend]
      simp
      omega
    · simp only [exec, if_neg hout]
      simp
  | removeAll | closesocket s => exact le_rfl
  | postSend =>
    rcases cl.exec_postSend app ok with hexec | hexec | ⟨-, hexec⟩ <;> rw [hexec]
    · simp only [List.length_append, List.length_singleton, recvIn_nil, sendIn_nil, recvIn_cons, sendIn_cons,
        Instr.ownsRecv, Instr.ownsSend]
      simp
      omega
    · exact le_rfl
    · simp
  | handleSend n =>
    have howns : recvIn [Instr.handleSend n] + sendIn [Instr.handleSend n] = 1 := rfl
    rw [howns]
    by_cases hout : 0 = cl.outLen - n
    · cases hq : cl.m_outBufQueue with
      | nil =>
        have hexec : cl.exec app ok (.handleSend n) =
            ({ cl with outLen := cl.outLen - n } : ClientContext).exitIoLoop := by
          simp only [exec, if_pos hout, hq]
        obtain ⟨h0, hdown⟩ := hexit { cl with outLen := cl.outLen - n } rfl
        rw [hexec, h0]
        show cl.recvs + cl.sends.length + 0 + cl.m_nPendingIoCnt ≤ _
        omega
      | cons front rest =>
        simp only [exec, if_pos hout, hq]
        split_ifs <;> simp [Instr.ownsRecv, Instr.ownsSend]
    · simp only [exec, if_neg hout, recvIn_cons, sendIn_cons, recvIn_nil, sendIn_nil, Instr.ownsRecv,
        Instr.ownsSend]
      simp
  | closeClient =>
    simp only [exec]
    split
    · exact le_rfl
    · simp
  | exitIoLoop of =>
    obtain ⟨h0, hdown⟩ := hexit cl rfl
    have howns : recvIn [Instr.exitIoLoop of] + sendIn [Instr.exitIoLoop of] = 1 := by
      cases of with
      | stray => exact hwork.elim
      | recv | send => rfl
    simp only [exec, howns, h0]
    simp only [exitIoLoop] at hdown ⊢
    omega

end ClientContext

theorem Active.count_le {app : App} {tight : Prop} {cl : ClientContext} (h : Active app tight cl) :
    cl.m_nPendingIoCnt ≤ 2 := by
  have hrecv := h.balanced.recv
  have hhigh := h.balanced.high
  have hbusy := cl.busy_le
  omega

theorem Active.spare_exec {app : App} {cl : ClientContext} (h : Active app False cl) {i : ℕ} {instr : Instr}
    {code : Code} (hi : cl.running[i]? = some (instr :: code)) (ok : Bool) (hsmooth : Smooth False cl instr)
    {cl' : ClientContext} (hcl' : cl' = { (cl.exec app ok instr).1 with
      running := resume cl.running i ((cl.exec app ok instr).2 ++ code) }) :
    cl'.overlapped + cl.m_nPendingIoCnt ≤ cl.overlapped + cl'.m_nPendingIoCnt := by
  obtain ⟨pre, post, hrun, hres⟩ := resume_split hi
  have hgo : Goes cl cl' instr code (cl.exec app ok instr).2 pre post := by
    rw [hcl']
    exact ⟨hrun, hres _⟩
  have hwork := h.working _ (List.mem_of_getElem? hi) instr List.mem_cons_self
  have hrefs := ClientContext.exec_refs_le app cl ok hwork hsmooth h.pos (by have := h.count_le; omega)
  have hr := hgo.recvRefs
  have hs := hgo.sendRefs
  have hrecvs : cl'.recvs = (cl.exec app ok instr).1.recvs := by rw [hcl']
  have hsends : cl'.sends = (cl.exec app ok instr).1.sends := by rw [hcl']
  have hcount : cl'.m_nPendingIoCnt = (cl.exec app ok instr).1.m_nPendingIoCnt := by rw [hcl']
  simp only [ClientContext.overlapped, ← hrecvs, ← hsends, ← hcount] at hrefs ⊢
  omega

theorem overlapped_take {cl cl' : ClientContext} (code : Code) (hrun : cl'.running = cl.running ++ [code])
    (hrecvs : cl'.recvs + recvIn code = cl.recvs)
    (hsends : cl'.sends.length + sendIn code = cl.sends.length) : cl'.overlapped = cl.overlapped := by
  simp only [ClientContext.overlapped, ClientContext.recvRefs, ClientContext.sendRefs, hrun, ← hrecvs, ← hsends,
    List.flatten_append, List.flatten_cons, List.flatten_nil, List.append_nil, recvIn_append, sendIn_append]
  omega

namespace Inv
variable {app : App} {s : IocpServer} {c : ℕ}

theorem active_of_spare (h : Inv app False s) (hspare : (s.client c).overlapped < (s.client c).m_nPendingIoCnt) :
    Active app False (s.client c) ∧ c < s.constructed ∧ c ∈ s.m_connectedClientList ∧
      c ∉ s.m_freeClientList := by
  have hno (h0 : (s.client c).m_nPendingIoCnt = 0) : False := by omega
  cases h.phase c with
  | active hactive hbuilt hconn hfree => exact ⟨hactive, hbuilt, hconn, hfree⟩
  | fresh hnew =>
    rw [hnew] at hno
    exact (hno rfl).elim
  | free hstill | lost hstill => exact (hno hstill.count).elim
  | leaving hleaving => exact (hno hleaving.count).elim
  | opening hopening =>
    obtain ⟨-, -, ⟨hcount, -⟩ | ⟨hcount, -⟩ | ⟨hcount, hrun⟩ | ⟨hcount, hrun⟩⟩ := hopening
    · exact (hno hcount).elim
    · exact (hno hcount).elim
    all_goals
      rw [ClientContext.overlapped, ClientContext.recvRefs, hrun, hcount] at hspare
      simp [Instr.ownsRecv] at hspare

theorem count_le {tight : Prop} (h : Inv app tight s) (c : ℕ) : (s.client c).m_nPendingIoCnt ≤ 2 := by
  cases h.phase c with
  | fresh hnew =>
    rw [hnew]
    exact Nat.zero_le _
  | free hstill | lost hstill => exact hstill.count.trans_le (Nat.zero_le _)
  | opening hopening =>
    obtain ⟨-, -, ⟨hcount, -⟩ | ⟨hcount, -⟩ | ⟨hcount, -⟩ | ⟨hcount, -⟩⟩ := hopening <;> omega
  | active hactive => exact hactive.count_le
  | leaving hleaving => exact hleaving.count.trans_le (Nat.zero_le _)

theorem dropSocket (h : Inv app False s) (hspare : (s.client c).overlapped < (s.client c).m_nPendingIoCnt) :
    Inv app False (s.setClient c { s.client c with m_socket := none }) := by
  obtain ⟨hactive, hbuilt, hconn, hfree⟩ := h.active_of_spare hspare
  exact h.setClient (h.queue c)
    (.active ⟨hactive.carries, hactive.working, hactive.balanced, hactive.pos⟩ hbuilt hconn hfree)

theorem releaseSpare (h : Inv app False s) (hspare : (s.client c).overlapped < (s.client c).m_nPendingIoCnt) :
    Inv app False (s.setClient c { (s.client c).exitIoLoop.1 with
      running := (s.client c).running ++
        if (s.client c).exitIoLoop.2 = [] then [] else [(s.client c).exitIoLoop.2] }) := by
  obtain ⟨hactive, hbuilt, hconn, hfree⟩ := h.active_of_spare hspare
  refine h.setClient (h.queue c) ?_
  obtain ⟨hrecv, hsend, hlow, hhigh, -⟩ := hactive.balanced
  have hpos := hactive.pos
  have hle := (s.client c).busy_le
  rw [ClientContext.overlapped] at hspare
  have hdown : (s.client c).countDown = (s.client c).m_nPendingIoCnt - 1 := if_neg (by omega)
  have hint : int32 (s.client c).countDown = (s.client c).m_nPendingIoCnt - 1 := by
    rw [hdown, int32_of_lt (by omega)]
    omega
  by_cases hone : (s.client c).m_nPendingIoCnt = 1
  · -- It was the last one, so no operation is in flight and no handler at work.
    have hmore : (s.client c).exitIoLoop.2 = [.removeClient] := if_pos (by rw [hint, hone]; decide)
    rw [hmore, if_neg (by simp)]
    have hrefs : (s.client c).recvRefs + (s.client c).sendRefs = 0 := by omega
    rw [ClientContext.recvRefs, ClientContext.sendRefs] at hrefs
    have hrun : (s.client c).running = [] := eq_nil_of_refs hactive.carries (by omega)
    refine .leaving ⟨by rw [hrun]; rfl, ?_, ?_, ?_⟩ hbuilt hconn hfree
    · show (s.client c).recvs = 0
      omega
    · exact List.eq_nil_of_length_eq_zero (by
        show (s.client c).sends.length = 0
        omega)
    · show (s.client c).countDown = 0
      omega
  · have hmore : (s.client c).exitIoLoop.2 = [] := if_neg (by rw [hint]; omega)
    rw [hmore, if_pos rfl, List.append_nil]
    refine .active ⟨hactive.carries, hactive.working, ⟨hrecv, hsend, ?_, ?_, False.elim⟩, ?_⟩ hbuilt hconn hfree
    · show (s.client c).recvRefs + (s.client c).sendRefs ≤ (s.client c).countDown
      omega
    · show (s.client c).countDown ≤ (s.client c).recvRefs + (s.client c).busy
      omega
    · show 0 < (s.client c).countDown
      omega

end Inv

/-! ### What is claimed, and what it takes -/

/-- The counter, which is a `LONG`, covers the operations in flight, and every socket was taken for a
completion of its own connection. -/
structure Respected (s : HbServer) : Prop where
  counted : ∀ c, (((s.server.client c).recvs + (s.server.client c).sends.length : ℕ) : ℤ) ≤
    int32 (s.server.client c).m_nPendingIoCnt
  own : ∀ p ∈ s.taken, p.1 = p.2

namespace HbServer

/-- The posted completions that are queued or being handled. -/
def outstanding (s : HbServer) : List PostedClose := s.m_hComPort ++ s.closers.map Prod.fst

def closes (s : HbServer) (c : ℕ) : ℕ := s.outstanding.countP (·.client = c)

end HbServer

/-- A completion that the timer is about to post has a reference left for it: one that no operation in
flight or being handled has, nor a completion posted before. -/
def HbServer.Backs (s : HbServer) (ok : Bool) : HbTimer → Prop
  | .scanning curTime (c :: _) => timedOut curTime (s.m_nLastHeartbeatTime c) → ok →
      (s.server.client c).overlapped + s.closes c < (s.server.client c).m_nPendingIoCnt
  | _ => True

/-- Every completion that a scan posts has a reference left for it, and every request is accepted. -/
def Backed (app : App) (s : HbServer) : HbAct → Prop
  | .work act _ => app ≠ .echo → Decodes s.server act
  | .scan ok => s.Backs ok s.timer
  | _ => True

/-! ### The invariant -/

namespace HbServer

theorem connected_outside {s : IocpServer} {c d : ℕ} (ok : Bool) {instr : Instr}
    (hinstr : instr ≠ .removeClient) (h : d ∈ s.m_connectedClientList) :
    d ∈ (s.outside c ok instr).m_connectedClientList := by
  cases instr with
  | addClient => exact List.mem_append_left _ h
  | removeClient => exact absurd rfl hinstr
  | postAccept | closesocket => cases ok <;> exact h
  | _ => exact h

/-- Every posted completion that is outstanding has a reference of its own, so its client goes on with the
connection that it was posted for. -/
structure Sound (app : App) (s : HbServer) : Prop where
  inv : Inv app False s.server
  belongs : ∀ c, Belongs (s.server.client c) (s.origin c)
  reserved : ∀ c, (s.server.client c).overlapped + s.closes c ≤ (s.server.client c).m_nPendingIoCnt
  current : ∀ post ∈ s.outstanding, post.connection = (s.origin post.client).connection
  ahead : ∀ c ∈ s.timer.rest, c ∈ s.server.m_connectedClientList
  own : ∀ p ∈ s.taken, p.1 = p.2

theorem closes_pos {s : HbServer} {post : PostedClose} (h : post ∈ s.outstanding) : 0 < s.closes post.client :=
  List.countP_pos_iff.mpr ⟨post, h, decide_eq_true rfl⟩

namespace Sound
variable {app : App} {s s' : HbServer}

theorem new (app : App) (max : ℕ) : Sound app (.new max) where
  inv := .new app False max
  belongs _ := ⟨rfl, rfl, .nil⟩
  reserved _ := by simp [HbServer.new, IocpServer.new, closes, outstanding]; rfl
  current := by simp [HbServer.new, outstanding]
  ahead := by simp [HbServer.new, HbTimer.rest]
  own := by simp [HbServer.new]

theorem respected (h : Sound app s) : Respected s where
  counted c := by
    have hle := h.inv.overlapped_le c
    have hsmall : (s.server.client c).m_nPendingIoCnt ≤ 2 := h.inv.count_le c
    rw [ClientContext.overlapped, ClientContext.recvRefs, ClientContext.sendRefs] at hle
    rw [int32_of_lt (by omega)]
    omega
  own := h.own

theorem change (h : Sound app s) {c : ℕ} {cl : ClientContext} {o : Origin} (hinv : Inv app False s'.server)
    (hclient : s'.server.client = Function.update s.server.client c cl)
    (horigin : s'.origin = Function.update s.origin c o) (hbelongs : Belongs cl o)
    (hreserved : cl.overlapped + s.closes c ≤ cl.m_nPendingIoCnt)
    (hconn : 0 < s.closes c → o.connection = (s.origin c).connection)
    (hsame : s'.outstanding = s.outstanding) (htimer : s'.timer = s.timer)
    (hahead : ∀ d ∈ s.timer.rest, d ∈ s.server.m_connectedClientList → d ∈ s'.server.m_connectedClientList)
    (hown : ∀ p ∈ s'.taken, p.1 = p.2) : Sound app s' := by
  refine ⟨hinv, fun d => ?_, fun d => ?_, fun post hp => ?_, fun d hd => ?_, hown⟩
  · rw [hclient, horigin]
    by_cases hd : d = c
    · rw [hd, Function.update_self, Function.update_self]
      exact hbelongs
    · rw [Function.update_of_ne hd, Function.update_of_ne hd]
      exact h.belongs d
  · rw [hclient, closes, hsame]
    by_cases hd : d = c
    · rw [hd, Function.update_self]
      exact hreserved
    · rw [Function.update_of_ne hd]
      exact h.reserved d
  · rw [hsame] at hp
    rw [horigin]
    by_cases hd : post.client = c
    · rw [hd, Function.update_self, hconn (hd ▸ closes_pos hp), ← hd]
      exact h.current post hp
    · rw [Function.update_of_ne hd]
      exact h.current post hp
  · rw [htimer] at hd
    exact hahead d hd (h.ahead d hd)

theorem frame (h : Sound app s) (hinv : Inv app False s'.server) (hclient : s'.server.client = s.server.client)
    (horigin : s'.origin = s.origin)
    (hconnected : s'.server.m_connectedClientList = s.server.m_connectedClientList)
    (hsame : s'.outstanding = s.outstanding) (htimer : s'.timer = s.timer) (hown : s'.taken = s.taken) :
    Sound app s' :=
  h.change hinv (hclient.trans (Function.update_eq_self 0 _).symm)
    (horigin.trans (Function.update_eq_self 0 _).symm) (h.belongs 0) (h.reserved 0) (fun _ => rfl) hsame htimer
    (fun _ _ hd => hconnected ▸ hd) (hown ▸ h.own)

/-! ### The steps of the workers -/

theorem active_of_closes (h : Sound app s) {c : ℕ} (hc : 0 < s.closes c) :
    Active app False (s.server.client c) :=
  (h.inv.active_of_spare (by have := h.reserved c; omega)).1

theorem closes_allocated (h : Sound app s) : s.closes s.server.allocated = 0 ∧
    (s.server.client s.server.allocated).running = [] ∧ (s.server.client s.server.allocated).recvs = 0 ∧
    (s.server.client s.server.allocated).sends = [] := by
  have hstill : Still (s.server.client s.server.allocated) := by
    cases hfree : s.server.m_freeClientList with
    | nil =>
      have halloc : s.server.allocated = s.server.constructed := by
        rw [IocpServer.allocated, hfree]
        rfl
      rw [halloc]
      cases h.inv.phase s.server.constructed with
      | fresh hnew =>
        rw [hnew]
        exact ⟨rfl, rfl, rfl, rfl⟩
      | free _ hbuilt | lost _ _ hbuilt | opening _ hbuilt | active _ hbuilt | leaving _ hbuilt =>
        exact absurd hbuilt (Nat.lt_irrefl _)
    | cons c rest =>
      have halloc : s.server.allocated = c := by
        rw [IocpServer.allocated, hfree]
        rfl
      have hmem : c ∈ s.server.m_freeClientList := by rw [hfree]; exact List.mem_cons_self
      rw [halloc]
      cases h.inv.phase c with
      | free hstill => exact hstill
      | fresh _ _ _ hno | lost _ _ _ _ hno | opening _ _ _ hno | active _ _ _ hno | leaving _ _ _ hno =>
        exact absurd hmem hno
  have hreserved := h.reserved s.server.allocated
  rw [hstill.count] at hreserved
  exact ⟨by omega, hstill.running, hstill.recvs, hstill.sends⟩

theorem allocate (h : Sound app s) {i socket : ℕ} {ok : Bool}
    (hinv : Inv app False (s.server.acceptStep i ok (.allocate, socket)))
    (hs' : s' = ({ s with
      server := s.server.acceptStep i ok (.allocate, socket)
      m_nLastHeartbeatTime := Function.update s.m_nLastHeartbeatTime s.server.allocated (s.clock % 2 ^ 32)
    }.setOrigin s.server.allocated { s.origin s.server.allocated with
      connection := (s.origin s.server.allocated).connection + 1
      workers := (if s.server.m_freeClientList = [] then [] else (s.origin s.server.allocated).workers) ++
        [Worker.mk ((s.origin s.server.allocated).connection + 1) none] })) : Sound app s' := by
  subst hs'
  obtain ⟨hnone, hrunning, hrecvs, hsends⟩ := h.closes_allocated
  -- The server's own description of the step, for a context of either kind.
  obtain ⟨cl, hclient, hcl, hconnected⟩ : ∃ cl : ClientContext,
      (s.server.acceptStep i ok (.allocate, socket)).client =
        Function.update s.server.client s.server.allocated cl ∧
      (cl.running = [[.associate]] ∧ cl.recvs = 0 ∧ cl.sends = []) ∧
      (s.server.acceptStep i ok (.allocate, socket)).m_connectedClientList =
        s.server.m_connectedClientList := by
    cases hfree : s.server.m_freeClientList with
    | nil =>
      have halloc : s.server.allocated = s.server.constructed := by
        rw [IocpServer.allocated, hfree]
        rfl
      rw [IocpServer.acceptStep_allocate_nil hfree, halloc]
      exact ⟨_, rfl, ⟨rfl, rfl, rfl⟩, rfl⟩
    | cons c rest =>
      have halloc : s.server.allocated = c := by
        rw [IocpServer.allocated, hfree]
        rfl
      rw [halloc] at hrunning hrecvs hsends
      rw [IocpServer.acceptStep_allocate_cons hfree, halloc]
      exact ⟨_, rfl, ⟨by simp only [hrunning, List.nil_append], hrecvs, hsends⟩, rfl⟩
  have hle := hinv.overlapped_le s.server.allocated
  rw [hclient, Function.update_self] at hle
  refine h.change hinv hclient rfl ?_ (by rw [hnone]; exact hle) (fun hpos => absurd hnone hpos.ne') rfl rfl
    (fun _ _ hd => hconnected ▸ hd) h.own
  exact (h.belongs s.server.allocated).allocate hrunning hrecvs hsends hcl.1 hcl.2.1 hcl.2.2 _

theorem work (h : Sound app s) {act : Act} {j : ℕ} {server : IocpServer}
    (hstep : s.server.step app act = some server) (hdec : app ≠ .echo → Decodes s.server act)
    (hwork : s.work app server j act = some s') : Sound app s' := by
  obtain ⟨hworked, hserver⟩ := worked_of_work hstep hwork
  have hinv : Inv app False s'.server := hserver ▸ h.inv.step hstep hdec False.elim
  cases hworked with
  | aside act server hclient hconnected hfree => exact h.frame hinv hclient rfl hconnected rfl rfl rfl
  | allocate i socket ok => exact h.allocate hinv rfl
  | recv c m_recvBuf j connection hj =>
    have hrecvs := (h.belongs c).recvs
    rw [hrecvs, List.getElem?_replicate] at hj
    split_ifs at hj with hlt
    have hpos : 0 < (s.server.client c).recvs := Nat.zero_lt_of_lt hlt
    refine h.change hinv rfl rfl ((h.belongs c).take rfl ?_ (h.belongs c).sends (.inl (Option.some.inj hj).symm))
      ?_ (fun _ => rfl) rfl rfl (fun _ _ hd => hd) h.own
    · rw [hrecvs, List.eraseIdx_replicate, if_pos hlt]
    · rw [overlapped_take (IocpServer.recvCode m_recvBuf) rfl]
      · exact h.reserved c
      · cases m_recvBuf <;> exact Nat.sub_add_cancel hpos
      · cases m_recvBuf <;> rfl
  | send c k n connection hk =>
    have hsends := (h.belongs c).sends
    rw [hsends, List.getElem?_replicate] at hk
    split_ifs at hk with hlt
    have hlen : ((s.server.client c).sends.eraseIdx k).length + 1 = (s.server.client c).sends.length := by
      rw [List.length_eraseIdx_of_lt hlt]
      omega
    refine h.change hinv rfl rfl ((h.belongs c).take rfl (h.belongs c).recvs ?_ (.inl (Option.some.inj hk).symm))
      ?_ (fun _ => rfl) rfl rfl (fun _ _ hd => hd) h.own
    · rw [hsends, List.eraseIdx_replicate, if_pos hlt, List.length_eraseIdx_of_lt hlt]
    · rw [overlapped_take (IocpServer.sendCode n) rfl]
      · exact h.reserved c
      · cases n <;> rfl
      · cases n <;> exact hlen
  | exec c i ok instr rest w hi hw hblocked =>
    refine h.change hinv (client_setClient_outside ..) rfl ((h.belongs c).exec app hi hw ok) ?_ (fun _ => rfl)
      rfl rfl (fun d hd hconn => ?_) fun p hp => ?_
    · -- With no completion outstanding the counter covers the operations as it did without a timer.
      by_cases hc : s.closes c = 0
      · have hle := hinv.overlapped_le c
        rw [client_setClient_outside, Function.update_self] at hle
        rw [hc]
        exact hle
      · have hactive := h.active_of_closes (Nat.pos_of_ne_zero hc)
        have hsmooth : Smooth False (s.server.client c) instr := by
          refine ⟨?_, False.elim⟩
          rintro w size codec rfl
          have hhttp := hactive.working _ (List.mem_of_getElem? hi) _ List.mem_cons_self
          exact hdec hhttp w size codec rest hi
        have hspare := hactive.spare_exec hi ok hsmooth rfl
        have hreserved := h.reserved c
        omega
    · -- While there is somebody ahead of the timer, nobody is taken off the list.
      refine connected_outside ok (fun hremove => ?_) hconn
      have hwants : s.wants (.handler c i) = some .m_csClientList := by
        simp only [wants, IocpServer.next?, hi, hremove]
        rfl
      rw [rest_of_not_blocked (by simp) hwants hblocked] at hd
      cases hd
    · rcases List.mem_append.mp hp with hp | hp
      · exact h.own p hp
      split_ifs at hp with hclose
      · rw [List.mem_singleton.mp hp]
        refine (Forall₂.getElem? (h.belongs c).workers hi hw).resolve_right fun hremove => ?_
        have := hclose.1.symm.trans (List.cons.inj hremove).1
        cases this
      · cases hp

/-! ### The steps of the timer, and of a worker with a posted completion -/

theorem hand (h : Sound app s) (hserver : s'.server = s.server) (horigin : s'.origin = s.origin)
    (hreserved : ∀ c, (s.server.client c).overlapped + s'.closes c ≤ (s.server.client c).m_nPendingIoCnt)
    (hcurrent : ∀ post ∈ s'.outstanding, post ∈ s.outstanding ∨
      post.connection = (s.origin post.client).connection)
    (hahead : ∀ c ∈ s'.timer.rest, c ∈ s.server.m_connectedClientList) (hown : s'.taken = s.taken) :
    Sound app s' := by
  refine ⟨hserver ▸ h.inv, fun c => ?_, fun c => ?_, fun post hp => ?_, fun c hc => ?_, hown ▸ h.own⟩
  · rw [hserver, horigin]
    exact h.belongs c
  · rw [hserver]
    exact hreserved c
  · rw [horigin]
    exact (hcurrent post hp).elim (h.current post) id
  · rw [hserver]
    exact hahead c hc

theorem scan (h : Sound app s) {ok : Bool} (hbacked : Backed app s (.scan ok)) : Sound app (s.scan ok) := by
  unfold HbServer.scan
  split
  · exact h.hand rfl rfl h.reserved (fun _ hp => .inl hp) (by simp [HbTimer.rest]) rfl
  next curTime c rest htimer =>
    have hahead := h.ahead
    rw [htimer] at hahead
    split_ifs with hpost
    · simp only [Backed, htimer, Backs] at hbacked
      have hspare := hbacked hpost.1 hpost.2
      refine h.hand rfl rfl (fun d => ?_) (fun post hp => ?_) (fun d hd => hahead d (List.mem_cons_of_mem _ hd)) rfl
      · have hreserved := h.reserved d
        simp only [closes, outstanding, List.countP_append, List.countP_cons, List.countP_nil] at hspare hreserved ⊢
        by_cases hd : c = d
        · subst hd
          simp only [decide_true, if_true]
          omega
        · simp only [hd, decide_false, Bool.false_eq_true, if_false]
          omega
      · simp only [outstanding, List.mem_append, List.mem_singleton] at hp ⊢
        rcases hp with (hp | rfl) | hp
        · exact .inl (.inl hp)
        · exact .inr rfl
        · exact .inl (.inr hp)
    · exact h.hand rfl rfl h.reserved (fun _ hp => .inl hp) (by simp [HbTimer.rest]) rfl
  · exact h

theorem close (h : Sound app s) {k : ℕ} {post : PostedClose} (hk : s.m_hComPort[k]? = some post) :
    Sound app { s with
      m_hComPort := s.m_hComPort.eraseIdx k, closers := s.closers ++ [(post, .closeClient)] } := by
  obtain ⟨hlt, rfl⟩ := List.getElem?_eq_some_iff.mp hk
  have hperm : (s.m_hComPort.eraseIdx k ++ (s.closers ++ [(s.m_hComPort[k], Closing.closeClient)]).map
      Prod.fst).Perm s.outstanding := by
    rw [List.map_append, List.map_singleton, ← List.append_assoc]
    refine (List.perm_append_singleton _ _).trans ?_
    rw [← List.cons_append]
    exact (List.getElem_cons_eraseIdx_perm hlt).append_right _
  have hcount (c : ℕ) : ({ s with
      m_hComPort := s.m_hComPort.eraseIdx k
      closers := s.closers ++ [(s.m_hComPort[k], Closing.closeClient)] } : HbServer).closes c = s.closes c :=
    hperm.countP_eq _
  exact h.hand rfl rfl (fun c => by rw [hcount]; exact h.reserved c)
    (fun _ hp => .inl (hperm.mem_iff.mp hp)) h.ahead rfl

theorem map_set_closers {i : ℕ} {post : PostedClose} {stage : Closing} (hi : s.closers[i]? = some (post, stage))
    (stage' : Closing) : (s.closers.set i (post, stage')).map Prod.fst = s.closers.map Prod.fst := by
  obtain ⟨hlt, hget⟩ := List.getElem?_eq_some_iff.mp hi
  have hlt' : i < (s.closers.map Prod.fst).length := by rwa [List.length_map]
  have hthis : (s.closers.map Prod.fst)[i] = post := by rw [List.getElem_map, hget]
  rw [List.map_set, ← hthis]
  exact List.set_getElem_self hlt'

/-- The reference that is given back is the one that was left for the completion. -/
theorem release (h : Sound app s) {i : ℕ} {post : PostedClose}
    (hi : s.closers[i]? = some (post, .releaseClientContext)) (ok : Bool) :
    Sound app (s.closing i ok post .releaseClientContext) := by
  obtain ⟨hlt, hget⟩ := List.getElem?_eq_some_iff.mp hi
  have hperm : (post :: (s.m_hComPort ++ (s.closers.eraseIdx i).map Prod.fst)).Perm s.outstanding := by
    refine List.perm_middle.symm.trans (List.Perm.append_left _ ?_)
    have hmap := ((List.getElem_cons_eraseIdx_perm hlt).map Prod.fst)
    rwa [hget] at hmap
  have hmem : post ∈ s.outstanding := hperm.mem_iff.mp List.mem_cons_self
  have hspare : (s.server.client post.client).overlapped < (s.server.client post.client).m_nPendingIoCnt := by
    have hpos := closes_pos hmem
    have hreserved := h.reserved post.client
    omega
  let cl' : ClientContext := { (s.server.client post.client).exitIoLoop.1 with
    running := (s.server.client post.client).running ++
      if (s.server.client post.client).exitIoLoop.2 = [] then []
      else [(s.server.client post.client).exitIoLoop.2] }
  have hclient : (s.closing i ok post .releaseClientContext).server.client =
      Function.update s.server.client post.client cl' := rfl
  have horigin : (s.closing i ok post .releaseClientContext).origin =
      Function.update s.origin post.client { s.origin post.client with
        workers := (s.origin post.client).workers ++
          if (s.server.client post.client).exitIoLoop.2 = [] then []
          else [Worker.mk post.connection none] } := rfl
  have hleft : (s.closing i ok post .releaseClientContext).outstanding =
      s.m_hComPort ++ (s.closers.eraseIdx i).map Prod.fst := rfl
  -- `removeClient` has no reference.
  have hsame : cl'.overlapped = (s.server.client post.client).overlapped := by
    simp only [cl', ClientContext.exitIoLoop, ClientContext.overlapped, ClientContext.recvRefs,
      ClientContext.sendRefs]
    split_ifs <;> simp [Instr.ownsRecv, Instr.ownsSend]
  have hdown : cl'.m_nPendingIoCnt + 1 = (s.server.client post.client).m_nPendingIoCnt := by
    show (s.server.client post.client).countDown + 1 = _
    rw [ClientContext.countDown, if_neg (by omega)]
    omega
  have hcount (c : ℕ) : (s.closing i ok post .releaseClientContext).closes c +
      (if post.client = c then 1 else 0) = s.closes c := by
    rw [closes, closes, hleft, ← hperm.countP_eq, List.countP_cons]
    by_cases hc : post.client = c <;> simp [hc]
  refine ⟨h.inv.releaseSpare hspare, fun c => ?_, fun c => ?_, fun p hp => ?_, h.ahead, h.own⟩
  · rw [hclient, horigin]
    by_cases hc : c = post.client
    · rw [hc, Function.update_self, Function.update_self]
      exact (h.belongs post.client).release post.connection
    · rw [Function.update_of_ne hc, Function.update_of_ne hc]
      exact h.belongs c
  · have hthis := hcount c
    have hreserved := h.reserved c
    rw [hclient]
    by_cases hc : c = post.client
    · rw [if_pos hc.symm] at hthis
      rw [hc] at hthis hreserved ⊢
      rw [Function.update_self, hsame]
      omega
    · rw [if_neg (Ne.symm hc)] at hthis
      rw [Function.update_of_ne hc]
      omega
  · have hold := h.current p (hperm.mem_iff.mp (List.mem_cons_of_mem _ hp))
    rw [horigin]
    by_cases hc : p.client = post.client
    · rw [hc, Function.update_self, hold, hc]
    · rw [Function.update_of_ne hc]
      exact hold

theorem closer (h : Sound app s) {i : ℕ} {post : PostedClose} {stage : Closing}
    (hi : s.closers[i]? = some (post, stage)) (ok : Bool) : Sound app (s.closing i ok post stage) := by
  have hmem : post ∈ s.outstanding :=
    List.mem_append_right _ (List.mem_map.mpr ⟨_, List.mem_of_getElem? hi, rfl⟩)
  have hpos := closes_pos hmem
  have hreserved := h.reserved post.client
  have hbelongs := h.belongs post.client
  have hkeep (stage' : Closing) : s.m_hComPort ++ (s.closers.set i (post, stage')).map Prod.fst =
      s.outstanding := by
    rw [map_set_closers hi]
    rfl
  cases stage with
  | closeClient =>
    simp only [HbServer.closing]
    split
    · exact h.frame h.inv rfl rfl rfl (hkeep _) rfl rfl
    next socket hsocket =>
      refine h.change (h.inv.dropSocket (by omega)) rfl (Function.update_eq_self _ _).symm
        ⟨hbelongs.recvs, hbelongs.sends, hbelongs.workers⟩ hreserved (fun _ => rfl) (hkeep _) rfl
        (fun _ _ hd => hd) fun p hp => ?_
      rcases List.mem_append.mp hp with hp | hp
      · exact h.own p hp
      · rw [List.mem_singleton.mp hp]
        exact h.current post hmem
  | closesocket socket =>
    have hinv : Inv app False (s.server.closesocket socket ok) := by
      cases ok <;> exact ⟨h.inv.nodup, h.inv.queue, h.inv.phase⟩
    cases ok <;> exact h.frame hinv rfl rfl rfl (hkeep _) rfl rfl
  | releaseClientContext => exact h.release hi ok

theorem step (h : Sound app s) {act : HbAct} (hok : Backed app s act) (hs' : s.step app act = some s') :
    Sound app s' := by
  cases stepped_of_step hs' with
  | work act j server _ hstep hwork => exact h.work hstep hok hwork
  | tick ms => exact ⟨h.inv, h.belongs, h.reserved, h.current, h.ahead, h.own⟩
  | wake => exact ⟨h.inv, h.belongs, h.reserved, h.current, by simp [HbTimer.rest], h.own⟩
  | lock => exact ⟨h.inv, h.belongs, h.reserved, h.current, fun c hc => hc, h.own⟩
  | scan ok => exact h.scan hok
  | close k post hk => exact h.close hk
  | closer i ok post stage hi => exact h.closer hi ok

end Sound

/-! ### Over all runs -/

instance (s : HbServer) (ok : Bool) : DecidablePred (s.Backs ok)
  | .scanning _ (_ :: _) => inferInstanceAs (Decidable (_ → _ → _))
  | .scanning _ [] | .waiting | .woken _ => .isTrue trivial

theorem http_ne_echo (w : ℕ) : App.http w ≠ .echo := by simp

instance : (app : App) → (s : HbServer) → DecidablePred (Backed app s)
  | .echo, _, .work .. => .isTrue fun hno => absurd rfl hno
  | .http w, s, .work act _ =>
    decidable_of_iff (Decodes s.server act) ⟨fun h _ => h, fun h => h (http_ne_echo w)⟩
  | _, s, .scan ok => inferInstanceAs (Decidable (s.Backs ok s.timer))
  | _, _, .tick _ | _, _, .wake | _, _, .lock | _, _, .close _ | _, _, .closer .. => .isTrue trivial

/-- As long as every completion that the timer posts has a reference left for it, the heartbeat respects
the counts and the connections. -/
theorem respected_of_backed {app : App} {max : ℕ} {acts : List HbAct} {s : HbServer}
    (hmeets : Meets (step app) (Backed app) (.new max) acts)
    (hrun : run (step app) (.new max) acts = some s) : Respected s :=
  (run_invariant (Sound app) (.new app max) (fun _ _ _ h hok hs' => h.step hok hs') hmeets hrun).respected

/-- Two bytes are echoed, the peer closes, and the rest of the send finds no socket. The reference that
is lost so is given back when the timer posts a close. -/
def spare : List HbAct := works (connect ++ [.recv 0 (some [1, 2]), .exec 0 0 true, .exec 0 0 true, .exec 0 0 true,
    .exec 0 0 true, .exec 0 0 true, .recv 0 none, .exec 0 0 true, .exec 0 0 true, .exec 0 0 true,
    .send 0 0 (some 1), .exec 0 0 true, .exec 0 0 true]) ++
  [.tick 10001, .wake, .lock, .scan true, .close 0, .closer 0 true, .closer 0 true]

theorem respected_of_backed_spare :
    ∃ s, run (step .echo) (.new 1) spare = some s ∧ s.server.m_connectedClientList = [0] ∧ Respected s := by
  have hend : (run (step .echo) (.new 1) spare).any fun s =>
      decide (s.server.m_connectedClientList = [0]) := by decide +kernel
  obtain ⟨s, hs, hlist⟩ := exists_of_any hend
  exact ⟨s, hs, of_decide_eq_true hlist, respected_of_backed (by decide +kernel) hs⟩

/-- The first connection, and a scan of the timer more than ten seconds later. -/
def idle : List HbAct := works connect ++ [.tick 10001, .wake, .lock, .scan true, .scan true]

/-- The close that the timer posts for an idle client gives back the reference of the receive in
flight, and the one that it posts a second later takes the socket of the next client. -/
theorem not_respected_idle :
    (∃ acts s, run (step .echo) (.new 1) (idle ++ acts) = some s ∧ ¬ Respected s) ∧
    ∃ acts s, run (step .echo) (.new 1) (idle ++ acts) = some s ∧ (1, 2) ∈ s.taken := by
  have hcount : (run (step .echo) (.new 1) (idle ++
      [.close 0, .closer 0 true, .closer 0 true, .closer 0 true])).any fun s =>
        decide ((s.server.client 0).recvs = 1 ∧ (s.server.client 0).m_nPendingIoCnt = 0) := by
    decide +kernel
  have htaken : (run (step .echo) (.new 1) (idle ++ ([.tick 1000, .wake, .lock, .scan true, .scan true,
      .close 0, .closer 0 true, .closer 0 true, .closer 0 true, .work (.exec 0 0 true) 0] ++
      works connect ++ [.close 0, .closer 0 true]))).any fun s =>
        decide ((1, 2) ∈ s.taken) := by
    decide +kernel
  obtain ⟨s, hs, hend⟩ := exists_of_any hcount
  obtain ⟨s', hs', hend'⟩ := exists_of_any htaken
  obtain ⟨hrecvs, hzero⟩ := of_decide_eq_true hend
  refine ⟨⟨_, s, hs, fun h => ?_⟩, _, s', hs', of_decide_eq_true hend'⟩
  have hle := h.counted 0
  rw [hrecvs, hzero] at hle
  exact absurd hle (by rw [int32_of_lt (by decide)]; omega)

end HbServer
end NetDemo.Server
