import NetDemo.Server.Timer
import NetDemo.Server.References
import NetDemo.Foundation.Waits

/-! The order in which the threads take `m_csClientList` and the `m_csLock` of the clients. -/

namespace NetDemo.Server
open Foundation Memory Http Client

/-- What a handler does before it has called `addClient`. -/
def Instr.opens : Instr → Bool
  | .associate | .enterIoLoop | .postAccept | .addClient => true
  | _ => false

/-- The instruction gives back the last reference, so that `removeClient` comes next. -/
def ClientContext.Releases (cl : ClientContext) : Instr → Prop
  | .exitIoLoop _ => int32 cl.countDown ≤ 0
  | .handleSend n => cl.outLen ≤ n ∧ cl.m_outBufQueue = [] ∧ int32 cl.countDown ≤ 0
  | _ => False

instance (cl : ClientContext) : DecidablePred cl.Releases
  | .exitIoLoop _ => inferInstanceAs (Decidable (_ ≤ _))
  | .handleSend _ => inferInstanceAs (Decidable (_ ∧ _))
  | .associate | .enterIoLoop | .postAccept | .addClient | .postRecv | .receive _ | .decode .. | .send _
  | .removeAll | .postSend | .closeClient | .closesocket _ | .removeClient => .isFalse id

/-- The handler executes the instruction with `m_csLock` held. -/
def Worker.locked (w : Worker) : Instr → Bool
  | .handleSend _ => true
  | _ => w.guard.isSome

/-! ### What comes after an instruction -/

namespace ClientContext
variable (app : App) (cl : ClientContext) (ok : Bool)

theorem opens_reply (w size : ℕ) (ret : ℤ) (codec : HttpCodec) :
    ∀ j ∈ reply w size ret codec, j.opens = false ∧ j ≠ .removeClient := by
  intro j hj
  simp only [reply, closeAndRelease, List.mem_append] at hj
  rcases hj with (hj | hj) | hj
  all_goals
    split_ifs at hj
    · simp only [List.mem_cons, List.not_mem_nil, or_false] at hj
      rcases hj with rfl | rfl <;> exact ⟨rfl, by simp⟩
    · cases hj

theorem opens_exec {instr : Instr} (h : instr.opens = false) :
    ∀ j ∈ (cl.exec app ok instr).2, j.opens = false := by
  cases instr with
  | associate => cases h
  | enterIoLoop => cases h
  | postAccept => cases h
  | addClient => cases h
  | decode w size codec => exact fun j hj => (opens_reply w size _ _ j hj).1
  | _ =>
    simp only [exec, exitIoLoop, closeAndRelease]
    repeat' split
    all_goals simp [Instr.opens]

theorem last_of_exitIoLoop {cl : ClientContext} (h : .removeClient ∈ cl.exitIoLoop.2) :
    cl.exitIoLoop.2 = [.removeClient] ∧ int32 cl.countDown ≤ 0 := by
  simp only [exitIoLoop] at h ⊢
  by_cases hle : int32 cl.countDown ≤ 0
  · exact ⟨if_pos hle, hle⟩
  · rw [if_neg hle] at h
    cases h

theorem releases_of_exec {instr : Instr} (h : .removeClient ∈ (cl.exec app ok instr).2) :
    (cl.exec app ok instr).2 = [.removeClient] ∧ cl.Releases instr := by
  cases instr with
  | decode w size codec => exact absurd rfl (opens_reply w size _ _ _ h).2
  | exitIoLoop of => exact last_of_exitIoLoop h
  | handleSend n =>
    simp only [exec] at h ⊢
    by_cases hout : 0 = cl.outLen - n
    · rw [if_pos hout] at h ⊢
      cases hq : cl.m_outBufQueue with
      | cons front rest =>
        rw [hq] at h
        simp only at h
        split_ifs at h
        · simp at h
        · cases h
      | nil =>
        rw [hq] at h
        obtain ⟨hlast, hle⟩ := last_of_exitIoLoop h
        exact ⟨hlast, Nat.sub_eq_zero_iff_le.mp hout.symm, hq, hle⟩
    · rw [if_neg hout] at h
      simp at h
  | _ =>
    simp only [exec, closeAndRelease] at h
    repeat' split at h
    all_goals simp at h

end ClientContext

/-- What a handler has in front of it, and whether it holds `m_csLock`. The client may be one that the
timer still has to look at. -/
structure Fits (ahead : Prop) (code : Code) (w : Worker) : Prop where
  opening : (code = [.associate] ∨ code = [.enterIoLoop] ∨ code = [.postAccept, .addClient, .postRecv] ∨
    code = [.addClient, .postRecv]) ∨ ∀ instr ∈ code, instr.opens = false
  guarded : w.guard.isSome → ∀ instr ∈ code, instr.opens = false
  last : .removeClient ∉ code.tail
  order : ahead → w.guard.isSome → code.head? ≠ some .removeClient

theorem Fits.mono {ahead ahead' : Prop} {code : Code} {w : Worker} (h : Fits ahead code w)
    (himp : ahead' → ahead) : Fits ahead' code w :=
  ⟨h.opening, h.guarded, h.last, fun ha => h.order (himp ha)⟩

theorem Worker.next_guard {w : Worker} {instr : Instr} {rest more : Code}
    (h : (w.next instr rest more).guard.isSome) : w.locked instr ∨ ∃ len, instr = .send len := by
  cases instr with
  | send len => exact .inr ⟨len, rfl⟩
  | handleSend n => exact .inl rfl
  | _ =>
    left
    show w.guard.isSome
    cases hg : w.guard with
    | none =>
      simp only [Worker.next, hg] at h
      cases h
    | some g => rfl

theorem Fits.not_opens {ahead : Prop} {instr : Instr} {rest : Code} {w : Worker}
    (h : Fits ahead (instr :: rest) w) (hlock : w.locked instr ∨ ∃ len, instr = .send len) :
    ∀ j ∈ instr :: rest, j.opens = false := by
  rcases h.opening with hshape | hno
  · have hopens : instr.opens = true := by
      rcases hshape with he | he | he | he
      all_goals
        obtain ⟨rfl, -⟩ := List.cons.inj he
        rfl
    rcases hlock with hlocked | ⟨len, rfl⟩
    · refine h.guarded ?_
      cases instr with
      | handleSend n => cases hopens
      | _ => exact hlocked
    · cases hopens
  · exact hno

theorem Fits.next {ahead : Prop} {instr : Instr} {rest : Code} {w : Worker} (h : Fits ahead (instr :: rest) w)
    (app : App) (cl : ClientContext) (ok : Bool)
    (hrelease : w.locked instr → cl.Releases instr → ¬ ahead) :
    Fits ahead ((cl.exec app ok instr).2 ++ rest) (w.next instr rest (cl.exec app ok instr).2) := by
  have hrest : .removeClient ∉ rest := h.last
  have hclosed (hno : ∀ j ∈ instr :: rest, j.opens = false) :
      ∀ j ∈ (cl.exec app ok instr).2 ++ rest, j.opens = false := fun j hj => by
    rcases List.mem_append.mp hj with hj | hj
    · exact cl.opens_exec app ok (hno instr List.mem_cons_self) j hj
    · exact hno j (List.mem_cons_of_mem _ hj)
  refine ⟨?_, fun hg => hclosed (h.not_opens (Worker.next_guard hg)), fun hmem => ?_, fun ha hg hhead => ?_⟩
  · rcases h.opening with (he | he | he | he) | hno
    · obtain ⟨rfl, rfl⟩ := List.cons.inj he
      cases ok with
      | true => exact .inl (.inr (.inl rfl))
      | false => exact .inr fun j hj => by cases hj
    · obtain ⟨rfl, rfl⟩ := List.cons.inj he
      exact .inl (.inr (.inr (.inl rfl)))
    · obtain ⟨rfl, rfl⟩ := List.cons.inj he
      exact .inl (.inr (.inr (.inr rfl)))
    · obtain ⟨rfl, rfl⟩ := List.cons.inj he
      exact .inr fun j hj => by rw [List.mem_singleton.mp hj]; rfl
    · exact .inr (hclosed hno)
  · by_cases hmore : .removeClient ∈ (cl.exec app ok instr).2
    · rw [(cl.releases_of_exec app ok hmore).1] at hmem
      exact hrest hmem
    · exact (List.mem_append.mp (List.mem_of_mem_tail hmem)).elim hmore hrest
  · -- `removeClient` comes next only if the last reference was just given back.
    have hmore := (List.mem_append.mp (List.mem_of_mem_head? hhead)).resolve_right hrest
    have hreleases := (cl.releases_of_exec app ok hmore).2
    rcases Worker.next_guard hg with hlocked | ⟨len, rfl⟩
    · exact hrelease hlocked hreleases ha
    · exact hreleases

/-! ### In every state -/

namespace HbServer

/-- When a last reference is given back with `m_csLock` held, the timer is not scanning or past this
client already; and a scan does not start when a listed client is about to be removed so. -/
def InOrder (s : HbServer) : HbAct → Prop
  | .work (.exec c i _) _ => ∀ instr ∈ s.server.next? c i, ∀ w ∈ (s.origin c).workers[i]?,
      w.locked instr → (s.server.client c).Releases instr → c ∉ s.timer.rest
  | .lock => ∀ c ∈ s.server.m_connectedClientList,
      ∀ p ∈ (s.server.client c).running.zip (s.origin c).workers,
        p.2.guard.isSome → p.1.head? ≠ some .removeClient
  | _ => True

instance (s : HbServer) : DecidablePred s.InOrder
  | .work (.exec c i _) _ => inferInstanceAs (Decidable (∀ instr ∈ s.server.next? c i,
      ∀ w ∈ (s.origin c).workers[i]?, w.locked instr → (s.server.client c).Releases instr → c ∉ s.timer.rest))
  | .lock => inferInstanceAs (Decidable (∀ c ∈ s.server.m_connectedClientList,
      ∀ p ∈ (s.server.client c).running.zip (s.origin c).workers,
        p.2.guard.isSome → p.1.head? ≠ some .removeClient))
  | .work .accept _ | .work (.acceptor ..) _ | .work (.recv ..) _ | .work (.send ..) _ | .tick _ | .wake
  | .scan _ | .close _ | .closer .. => .isTrue trivial

/-- Every handler fits. With `tight` the clients ahead of the timer are not about to be removed under
their locks. -/
def Orderly (tight : Prop) (s : HbServer) : Prop :=
  ∀ c, List.Forall₂ (Fits (tight ∧ c ∈ s.timer.rest)) (s.server.client c).running (s.origin c).workers

namespace Orderly
variable {tight : Prop} {app : App} {s s' : HbServer}

theorem new (tight : Prop) (max : ℕ) : Orderly tight (.new max) := fun _ => .nil

theorem loosen (h : Orderly tight s) : Orderly False s := fun c =>
  (h c).imp fun _ _ hfits => hfits.mono fun hno => hno.1.elim

theorem change (h : Orderly tight s) (c : ℕ)
    (hclient : ∀ d, d ≠ c → (s'.server.client d).running = (s.server.client d).running)
    (horigin : ∀ d, d ≠ c → (s'.origin d).workers = (s.origin d).workers)
    (htimer : ∀ d, d ∈ s'.timer.rest → d ∈ s.timer.rest)
    (hc : List.Forall₂ (Fits (tight ∧ c ∈ s.timer.rest)) (s'.server.client c).running (s'.origin c).workers) :
    Orderly tight s' := by
  intro d
  by_cases hd : d = c
  · rw [hd]
    exact hc.imp fun _ _ hfits => hfits.mono fun ha => ⟨ha.1, htimer c ha.2⟩
  · rw [hclient d hd, horigin d hd]
    exact (h d).imp fun _ _ hfits => hfits.mono fun ha => ⟨ha.1, htimer d ha.2⟩

theorem frame (h : Orderly tight s) (hclient : ∀ d, (s'.server.client d).running = (s.server.client d).running)
    (horigin : ∀ d, (s'.origin d).workers = (s.origin d).workers)
    (htimer : ∀ d, d ∈ s'.timer.rest → d ∈ s.timer.rest) : Orderly tight s' := by
  refine h.change 0 (fun d _ => hclient d) (fun d _ => horigin d) htimer ?_
  rw [hclient 0, horigin 0]
  exact h 0

theorem fits_recv (ahead : Prop) (m_recvBuf : Option Bytes) (connection : ℕ) :
    Fits ahead (IocpServer.recvCode m_recvBuf) ⟨connection, none⟩ := by
  refine ⟨.inr ?_, by simp, ?_, by simp⟩ <;> cases m_recvBuf <;>
    simp [IocpServer.recvCode, ClientContext.closeAndRelease, Instr.opens]

theorem fits_send (ahead : Prop) (n : Option ℕ) (connection : ℕ) :
    Fits ahead (IocpServer.sendCode n) ⟨connection, none⟩ := by
  refine ⟨.inr ?_, by simp, ?_, by simp⟩ <;> cases n <;>
    simp [IocpServer.sendCode, ClientContext.closeAndRelease, Instr.opens]

theorem fits_associate (ahead : Prop) (connection : ℕ) : Fits ahead [.associate] ⟨connection, none⟩ :=
  ⟨.inl (.inl rfl), by simp, by simp, by simp⟩

theorem allocate (h : Orderly tight s) {i socket : ℕ} (ok : Bool)
    (hserver : s'.server = s.server.acceptStep i ok (.allocate, socket)) (htimer : s'.timer = s.timer)
    {o : Origin} (horigin : s'.origin = Function.update s.origin s.server.allocated o) {w : Worker}
    (hw : w.guard = none) (hworkers : o.workers =
      (if s.server.m_freeClientList = [] then [] else (s.origin s.server.allocated).workers) ++ [w]) :
    Orderly tight s' := by
  have hfits : Fits (tight ∧ s.server.allocated ∈ s.timer.rest) [.associate] w := by
    obtain ⟨connection, guard⟩ := w
    obtain rfl : guard = none := hw
    exact fits_associate _ connection
  have hclient : ∃ cl, s'.server.client = Function.update s.server.client s.server.allocated cl ∧
      cl.running = (if s.server.m_freeClientList = [] then [] else
        (s.server.client s.server.allocated).running) ++ [[.associate]] := by
    rw [hserver, IocpServer.allocated]
    cases hfree : s.server.m_freeClientList with
    | nil =>
      rw [IocpServer.acceptStep_allocate_nil hfree]
      exact ⟨_, rfl, rfl⟩
    | cons c rest =>
      rw [IocpServer.acceptStep_allocate_cons hfree]
      exact ⟨_, rfl, rfl⟩
  obtain ⟨cl, hclient, hrun⟩ := hclient
  refine h.change s.server.allocated (fun d hd => ?_) (fun d hd => ?_) (fun d hd => htimer ▸ hd) ?_
  · rw [hclient, Function.update_of_ne hd]
  · rw [horigin, Function.update_of_ne hd]
  · rw [hclient, horigin, Function.update_self, Function.update_self, hrun, hworkers]
    refine forall₂_append_one ?_ hfits
    split_ifs
    · exact .nil
    · exact h s.server.allocated

theorem start (h : Orderly tight s) {c : ℕ} {cl : ClientContext} {o : Origin} {code : Code} {w : Worker}
    (hclient : s'.server.client = Function.update s.server.client c cl)
    (horigin : s'.origin = Function.update s.origin c o) (htimer : s'.timer = s.timer)
    (hrun : cl.running = (s.server.client c).running ++ [code])
    (hworkers : o.workers = (s.origin c).workers ++ [w]) (hfits : Fits (tight ∧ c ∈ s.timer.rest) code w) :
    Orderly tight s' := by
  refine h.change c (fun d hd => ?_) (fun d hd => ?_) (fun d hd => htimer ▸ hd) ?_
  · rw [hclient, Function.update_of_ne hd]
  · rw [horigin, Function.update_of_ne hd]
  · rw [hclient, horigin, Function.update_self, Function.update_self, hrun, hworkers]
    exact forall₂_append_one (h c) hfits

theorem work (h : Orderly tight s) {act : Act} {j : ℕ} {server : IocpServer}
    (hstep : s.server.step app act = some server) (hok : tight → s.InOrder (.work act j))
    (hwork : s.work app server j act = some s') : Orderly tight s' := by
  cases (worked_of_work hstep hwork).1 with
  | aside act server hclient =>
    exact h.frame (fun d => congrArg (fun client => (client d).running) hclient) (fun _ => rfl) fun _ hd => hd
  | allocate i socket ok => exact h.allocate ok rfl rfl rfl rfl rfl
  | recv c m_recvBuf j connection => exact h.start rfl rfl rfl rfl rfl (fits_recv _ m_recvBuf connection)
  | send c k n connection => exact h.start rfl rfl rfl rfl rfl (fits_send _ n connection)
  | exec c i ok instr rest w hi hw =>
    have hfits : Fits (tight ∧ c ∈ s.timer.rest) (instr :: rest) w := Forall₂.getElem? (h c) hi hw
    have hnext : s.server.next? c i = some instr := IocpServer.next?_eq_some.mpr ⟨rest, hi⟩
    refine h.change c (fun d hd => ?_) (fun d hd => ?_) (fun d hd => hd) ?_
    · rw [client_setClient_outside, Function.update_of_ne hd]
    · exact congrArg Origin.workers (Function.update_of_ne hd ..)
    · rw [client_setClient_outside]
      simp only [Function.update_self]
      refine forall₂_resume (h c) _ fun w' hw' _ => ?_
      obtain rfl := Option.some.inj (hw.symm.trans hw')
      exact hfits.next app _ ok fun hlocked hreleases ha =>
        hok ha.1 instr hnext w hw hlocked hreleases ha.2

theorem fits_removeClient (ahead : Prop) (connection : ℕ) : Fits ahead [.removeClient] ⟨connection, none⟩ :=
  ⟨.inr fun j hj => by rw [List.mem_singleton.mp hj]; rfl, by simp, by simp, by simp⟩

theorem closing (h : Orderly tight s) (i : ℕ) (ok : Bool) (post : PostedClose) (stage : Closing) :
    Orderly tight (s.closing i ok post stage) := by
  cases stage with
  | closeClient =>
    simp only [HbServer.closing]
    split
    · exact h.frame (fun _ => rfl) (fun _ => rfl) fun _ hd => hd
    · refine h.frame (fun d => ?_) (fun _ => rfl) fun _ hd => hd
      show (Function.update s.server.client post.client _ d).running = _
      by_cases hd : d = post.client
      · rw [hd, Function.update_self]
      · rw [Function.update_of_ne hd]
  | closesocket socket => cases ok <;> exact h.frame (fun _ => rfl) (fun _ => rfl) fun _ hd => hd
  | releaseClientContext =>
    refine h.change post.client (fun d hd => ?_) (fun d hd => ?_) (fun d hd => hd) ?_
    · exact congrArg ClientContext.running (Function.update_of_ne hd ..)
    · exact congrArg Origin.workers (Function.update_of_ne hd ..)
    · simp only [HbServer.closing, setOrigin, IocpServer.setClient, Function.update_self]
      by_cases hnone : (s.server.client post.client).exitIoLoop.2 = []
      · rw [if_pos hnone, if_pos hnone, List.append_nil, List.append_nil]
        exact h post.client
      · have hremove : (s.server.client post.client).exitIoLoop.2 = [.removeClient] :=
          if_pos (not_not.mp fun hno => hnone (if_neg hno))
        rw [if_neg hnone, if_neg hnone, hremove]
        exact forall₂_append_one (h post.client) (fits_removeClient _ _)

theorem scan (h : Orderly tight s) (ok : Bool) : Orderly tight (s.scan ok) := by
  unfold HbServer.scan
  split
  · exact h.frame (fun _ => rfl) (fun _ => rfl) fun d hd => by cases hd
  next curTime c rest htimer =>
    split_ifs
    · refine h.frame (fun _ => rfl) (fun _ => rfl) fun d hd => ?_
      rw [htimer]
      exact List.mem_cons_of_mem _ hd
    · exact h.frame (fun _ => rfl) (fun _ => rfl) fun d hd => by cases hd
  · exact h

theorem lock (h : Orderly tight s) (hok : tight → s.InOrder .lock) (curTime : ℕ) :
    Orderly tight { s with timer := .scanning curTime s.server.m_connectedClientList } := by
  intro c
  refine List.forall₂_iff_zip.mpr ⟨(h c).length_eq, fun {code w} hmem => ?_⟩
  have hfits := (List.forall₂_iff_zip.mp (h c)).2 hmem
  exact ⟨hfits.opening, hfits.guarded, hfits.last, fun ha => hok ha.1 c ha.2 (code, w) hmem⟩

theorem step (h : Orderly tight s) {act : HbAct} (hok : tight → s.InOrder act)
    (hs' : s.step app act = some s') : Orderly tight s' := by
  cases stepped_of_step hs' with
  | work act j server _ hstep hwork => exact h.work hstep hok hwork
  | tick => exact h
  | wake => exact h.frame (fun _ => rfl) (fun _ => rfl) fun d hd => by cases hd
  | lock curTime => exact h.lock hok curTime
  | scan ok => exact h.scan ok
  | close => exact h
  | closer i ok post stage => exact h.closing i ok post stage

end Orderly

/-! ### Deadlocks -/

theorem mem_holders_csLock {s : HbServer} {t : Thread} {c : ℕ} : t ∈ s.holders (.m_csLock c) ↔
    ∃ i w, t = .handler c i ∧ (s.origin c).workers[i]? = some w ∧ w.guard.isSome := by
  simp only [holders, List.mem_filterMap, List.mem_range]
  constructor
  · rintro ⟨i, hi, ht⟩
    split_ifs at ht with hguard
    refine ⟨i, _, (Option.some.inj ht).symm, List.getElem?_eq_getElem hi, ?_⟩
    rwa [List.getElem?_eq_getElem hi, Option.bind_some] at hguard
  · rintro ⟨i, w, rfl, hw, hguard⟩
    refine ⟨i, (List.getElem?_eq_some_iff.mp hw).1, ?_⟩
    rw [hw, Option.bind_some, if_pos hguard]

theorem mem_holders_csClientList {s : HbServer} {t : Thread} : t ∈ s.holders .m_csClientList ↔
    t = .timer ∧ ∃ curTime rest, s.timer = .scanning curTime rest := by
  unfold holders
  cases s.timer with
  | scanning curTime rest => simp
  | _ => simp

theorem blocked_iff {s : HbServer} {t : Thread} :
    s.blocked t ↔ ∃ t', WaitsFor s.wants (fun t l => t ∈ s.holders l) t t' := by
  simp only [blocked, Option.any_eq_true, decide_eq_true_eq]
  constructor
  · rintro ⟨l, hwants, hno, hne⟩
    obtain ⟨t', ht'⟩ := List.exists_mem_of_ne_nil _ hne
    exact ⟨t', l, hwants, hno, ht'⟩
  · rintro ⟨t', l, hwants, hno, ht'⟩
    exact ⟨l, hwants, hno, List.ne_nil_of_mem ht'⟩

/-- The threads of the server wait for each other in a cycle. -/
def Stalled (s : HbServer) : Prop := Deadlocked s.wants fun t l => t ∈ s.holders l

/-- The timer waits for the `m_csLock` of a client whose handler goes on to take `m_csClientList`. -/
def Crossed (s : HbServer) : Prop :=
  ∃ c i w, s.timer.rest.head? = some c ∧ (s.origin c).workers[i]? = some w ∧ w.guard.isSome ∧
    s.server.next? c i = some .removeClient

theorem Crossed.stalled {s : HbServer} (h : Crossed s) : Stalled s := by
  obtain ⟨c, i, w, hhead, hw, hguard, hnext⟩ := h
  obtain ⟨curTime, rest, htimer⟩ : ∃ curTime rest, s.timer = .scanning curTime rest := by
    cases htimer : s.timer with
    | scanning curTime rest => exact ⟨curTime, rest, rfl⟩
    | _ =>
      rw [htimer] at hhead
      cases hhead
  have htimerWants : s.wants .timer = some (.m_csLock c) := by
    rw [htimer] at hhead
    simp only [wants, htimer]
    exact congrArg (Option.map Lock.m_csLock) hhead
  have hhandlerWants : s.wants (.handler c i) = some .m_csClientList := by
    simp only [wants, hnext]
    rfl
  have htimerFirst : WaitsFor s.wants (fun t l => t ∈ s.holders l) .timer (.handler c i) := by
    refine ⟨_, htimerWants, fun hno => ?_, mem_holders_csLock.mpr ⟨i, w, rfl, hw, hguard⟩⟩
    obtain ⟨_, _, hno, -⟩ := mem_holders_csLock.mp hno
    cases hno
  refine deadlocked_of_pair htimerFirst ⟨_, hhandlerWants, fun hno => ?_,
    mem_holders_csClientList.mpr ⟨rfl, curTime, rest, htimer⟩⟩
  cases (mem_holders_csClientList.mp hno).1

/-- The locks, lowest first: that of the client that the timer looks at next, `m_csClientList`, and
all the others. -/
def rank (s : HbServer) : Lock → ℕ
  | .m_csClientList => 1
  | .m_csLock c => if s.timer.rest.head? = some c then 0 else 2

theorem ranked {s : HbServer} (h : Orderly False s) (hno : ¬ Crossed s) :
    Ranked s.wants (fun t l => t ∈ s.holders l) s.rank := by
  intro t l l' hholds hwants hnot
  cases l with
  | m_csClientList =>
    -- The timer, which only wants the lock of its next client.
    obtain ⟨rfl, curTime, rest, htimer⟩ := mem_holders_csClientList.mp hholds
    simp only [wants, htimer] at hwants
    obtain ⟨c, hhead, rfl⟩ := Option.map_eq_some_iff.mp hwants
    have hnext : s.timer.rest.head? = some c := by rw [htimer]; exact hhead
    simp only [rank, if_pos hnext]
    exact Nat.zero_lt_one
  | m_csLock c =>
    obtain ⟨i, w, rfl, hw, hguard⟩ := mem_holders_csLock.mp hholds
    obtain ⟨instr, hinstr, hlock⟩ := Option.bind_eq_some_iff.mp hwants
    obtain ⟨rest, hi⟩ := IocpServer.next?_eq_some.mp hinstr
    have hopens : instr.opens = false :=
      (Forall₂.getElem? (h c) hi hw).guarded hguard instr List.mem_cons_self
    cases instr with
    | removeClient =>
      obtain rfl := Option.some.inj hlock
      have hother : s.timer.rest.head? ≠ some c := fun hhead => hno ⟨c, i, w, hhead, hw, hguard, hinstr⟩
      simp only [rank, if_neg hother]
      exact Nat.one_lt_two
    | addClient => cases hopens
    | postRecv | send | postSend | handleSend | closeClient =>
      -- The handler has this lock already.
      obtain rfl := Option.some.inj hlock
      exact absurd hholds hnot
    | _ => cases hlock

/-- In every state that the server reaches, its threads stall just when the timer and a handler have
crossed. -/
theorem stalled_iff_crossed {s : HbServer} (h : Orderly False s) : Stalled s ↔ Crossed s := by
  refine ⟨fun hstalled => ?_, Crossed.stalled⟩
  by_contra hno
  exact (ranked h hno).not_deadlocked hstalled

/-! ### Over all runs -/

theorem orderly_of_run {tight : Prop} {ok : HbServer → HbAct → Prop} {app : App} {max : ℕ}
    {acts : List HbAct} {s : HbServer} (hmeets : Meets (step app) ok (.new max) acts)
    (hok : ∀ s act, ok s act → tight → s.InOrder act) (hrun : run (step app) (.new max) acts = some s) :
    Orderly tight s :=
  run_invariant (Orderly tight) (.new tight max) (fun s act _ h hsa hs' => h.step (hok s act hsa) hs') hmeets hrun

/-- In every run at all the threads stall just when the timer and a handler have crossed. -/
theorem stalled_iff_crossed_of_run {app : App} {max : ℕ} {acts : List HbAct} {s : HbServer}
    (hrun : run (step app) (.new max) acts = some s) : Stalled s ↔ Crossed s :=
  stalled_iff_crossed (orderly_of_run (meets_of_forall (fun _ _ => trivial) _ acts) (fun _ _ _ => False.elim) hrun)

theorem not_crossed {s : HbServer} (h : Orderly True s) : ¬ Crossed s := by
  rintro ⟨c, i, w, hhead, hw, hguard, hnext⟩
  obtain ⟨rest, hi⟩ := IocpServer.next?_eq_some.mp hnext
  have hahead : c ∈ s.timer.rest := List.mem_of_mem_head? hhead
  exact (Forall₂.getElem? (h c) hi hw).order ⟨trivial, hahead⟩ hguard rfl

/-- As long as every last reference is given back in order, the threads never stall. -/
theorem not_stalled_of_inOrder {app : App} {max : ℕ} {acts : List HbAct} {s : HbServer}
    (hmeets : Meets (step app) InOrder (.new max) acts)
    (hrun : run (step app) (.new max) acts = some s) : ¬ Stalled s := by
  have horderly : Orderly True s := orderly_of_run hmeets (fun _ _ h _ => h) hrun
  rw [stalled_iff_crossed horderly.loosen]
  exact not_crossed horderly

/-- Two bytes are echoed, the peer closes, and the send completes. -/
def drained : List HbAct := works (connect ++ [.recv 0 (some [1, 2]), .exec 0 0 true, .exec 0 0 true,
  .exec 0 0 true, .exec 0 0 true, .exec 0 0 true, .recv 0 none, .exec 0 0 true, .exec 0 0 true,
  .exec 0 0 true, .send 0 0 (some 2)])

theorem not_stalled_of_inOrder_drained : ∃ s, run (step .echo) (.new 1)
    (drained ++ works [.exec 0 0 true, .exec 0 0 true] ++ [.wake, .lock]) = some s ∧ ¬ Stalled s := by
  have hend : (run (step .echo) (.new 1)
      (drained ++ works [.exec 0 0 true, .exec 0 0 true] ++ [.wake, .lock])).any fun _ => true := by
    decide +kernel
  obtain ⟨s, hs, -⟩ := exists_of_any hend
  exact ⟨s, hs, not_stalled_of_inOrder (by decide +kernel) hs⟩

/-- The timer starts to scan when the last bytes are sent, before the client is off the list. -/
theorem stalled_drained : ∃ acts s, run (step .echo) (.new 1) acts = some s ∧ Stalled s := by
  have hend : (run (step .echo) (.new 1) (drained ++ works [.exec 0 0 true] ++ [.wake, .lock])).any fun s =>
      decide (s.timer.rest.head? = some 0 ∧ ((s.origin 0).workers[0]?.bind Worker.guard).isSome ∧
        s.server.next? 0 0 = some .removeClient) := by
    decide +kernel
  obtain ⟨s, hs, hend⟩ := exists_of_any hend
  obtain ⟨hhead, hguard, hnext⟩ := of_decide_eq_true hend
  obtain ⟨guard, hguard⟩ := Option.isSome_iff_exists.mp hguard
  obtain ⟨w, hw, hwg⟩ := Option.bind_eq_some_iff.mp hguard
  exact ⟨_, s, hs, Crossed.stalled ⟨0, 0, w, hhead, hw, by rw [hwg]; rfl, hnext⟩⟩

end HbServer
end NetDemo.Server
