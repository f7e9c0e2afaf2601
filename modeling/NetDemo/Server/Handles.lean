import NetDemo.Server.Lifecycle

/-! The handles that an `IocpServer` knows, and how `start` adds to them. -/

namespace NetDemo.Server
namespace Lifecycle

/-! ### Which handles the server knows -/

/-- How often a handle stands in a field that is emptied when it is closed. -/
def firm (s : Lifecycle) (handle : ℕ) : ℕ :=
  s.m_hExitEvent.toList.count handle + s.m_hWriteCompletedEvent.toList.count handle +
    s.m_hComPort.toList.count handle + (sockets s.m_acceptIoCtxList).count handle +
    s.m_connectedClientList.count handle

/-- How often the server knows a handle. -/
def held (s : Lifecycle) (handle : ℕ) : ℕ :=
  s.firm handle + s.m_pListenCtx.join.toList.count handle + s.m_hWorkerThreads.count handle

/-- A handle that was given out between the two states. -/
def fresh (s s' : Lifecycle) (handle : ℕ) : ℕ := if s.issued ≤ handle ∧ handle < s'.issued then 1 else 0

/-- In every state: a handle is known once at most, and, if it is closed, only as the listen socket or
a worker. -/
structure Valid (s : Lifecycle) : Prop where
  once : ∀ handle, s.held handle ≤ 1
  lt : ∀ handle, s.issued ≤ handle → s.held handle = 0 ∧ s.closed.count handle = 0
  firm : ∀ handle, 0 < s.closed.count handle → s.firm handle = 0

/-- What every step does to the handles. -/
structure Grows (s s' : Lifecycle) : Prop where
  issued : s.issued ≤ s'.issued
  closed : ∀ handle, s.closed.count handle ≤ s'.closed.count handle
  closing : ∀ handle, s'.closed.count handle ≤ s.closed.count handle + s.held handle
  workers : ∀ handle, s.m_hWorkerThreads.count handle ≤ s'.m_hWorkerThreads.count handle
  held : ∀ handle, s'.held handle ≤ s.held handle + s.fresh s' handle
  firm : ∀ handle, s'.firm handle ≤ s.firm handle + s.fresh s' handle
  gone : ∀ handle, s.closed.count handle < s'.closed.count handle → s'.firm handle = 0
  write : s'.m_hWriteCompletedEvent = s.m_hWriteCompletedEvent

/-- Handles are added, and nothing else happens. -/
structure Adds (s s' : Lifecycle) : Prop where
  issued : s.issued ≤ s'.issued
  closed : s'.closed = s.closed
  late : s'.late = s.late
  workers : ∀ handle, s.m_hWorkerThreads.count handle ≤ s'.m_hWorkerThreads.count handle
  held : ∀ handle, s'.held handle = s.held handle + s.fresh s' handle
  firm : ∀ handle, s'.firm handle ≤ s.firm handle + s.fresh s' handle
  write : s'.m_hWriteCompletedEvent = s.m_hWriteCompletedEvent

/-- No handle gets lost, and every handle that is closed is forgotten. -/
structure Keeps (s s' : Lifecycle) : Prop where
  balance : ∀ handle, s'.closed.count handle + s'.held handle =
    s.closed.count handle + s.held handle + s.fresh s' handle
  late : s'.late = s.late

variable {s s' s'' : Lifecycle}

theorem fresh_of_issued (h : s'.issued = s.issued) (handle : ℕ) : s.fresh s' handle = 0 :=
  if_neg (by omega)

theorem fresh_self (s : Lifecycle) (handle : ℕ) : s.fresh s handle = 0 := fresh_of_issued rfl handle

theorem firm_le_held (s : Lifecycle) (handle : ℕ) : s.firm handle ≤ s.held handle := by
  rw [held, Nat.add_assoc]
  exact Nat.le_add_right ..

theorem fresh_add (h : s.issued ≤ s'.issued) (h' : s'.issued ≤ s''.issued) (handle : ℕ) :
    s.fresh s'' handle = s.fresh s' handle + s'.fresh s'' handle := by
  unfold fresh
  split_ifs <;> omega

theorem Adds.refl (s : Lifecycle) : Adds s s where
  issued := le_rfl
  closed := rfl
  late := rfl
  workers _ := le_rfl
  held handle := by rw [fresh_self, Nat.add_zero]
  firm handle := by rw [fresh_self, Nat.add_zero]
  write := rfl

theorem Adds.trans (h : Adds s s') (h' : Adds s' s'') : Adds s s'' where
  issued := h.issued.trans h'.issued
  closed := h'.closed.trans h.closed
  late := h'.late.trans h.late
  workers handle := (h.workers handle).trans (h'.workers handle)
  held handle := by rw [h'.held, h.held, fresh_add h.issued h'.issued, Nat.add_assoc]
  firm handle := by
    have h₁ := h.firm handle
    have h₂ := h'.firm handle
    rw [fresh_add h.issued h'.issued]
    omega
  write := h'.write.trans h.write

theorem Adds.grows (h : Adds s s') : Grows s s' where
  issued := h.issued
  closed _ := by rw [h.closed]
  closing _ := by rw [h.closed]; omega
  workers := h.workers
  held handle := (h.held handle).le
  firm := h.firm
  gone _ hlt := by
    rw [h.closed] at hlt
    exact absurd hlt (Nat.lt_irrefl _)
  write := h.write

theorem Valid.lt_of_held (h : Valid s) {handle : ℕ} (hheld : 0 < s.held handle) : handle < s.issued := by
  by_contra hle
  rw [(h.lt handle (Nat.not_lt.mp hle)).1] at hheld
  exact Nat.lt_irrefl 0 hheld

theorem Valid.lt_of_closed (h : Valid s) {handle : ℕ} (hclosed : 0 < s.closed.count handle) :
    handle < s.issued := by
  by_contra hle
  rw [(h.lt handle (Nat.not_lt.mp hle)).2] at hclosed
  exact Nat.lt_irrefl 0 hclosed

theorem Valid.grows (h : Valid s) (hg : Grows s s') : Valid s' where
  once handle := by
    have hlt := h.lt handle
    have hone := h.once handle
    have hheld := hg.held handle
    unfold fresh at hheld
    split_ifs at hheld <;> omega
  lt handle hle := by
    have hlt := h.lt handle (hg.issued.trans hle)
    have hheld := hg.held handle
    have hclosing := hg.closing handle
    unfold fresh at hheld
    split_ifs at hheld <;> omega
  firm handle hpos := by
    by_cases hold : 0 < s.closed.count handle
    · have hlt := h.lt_of_closed hold
      have hfirm := hg.firm handle
      rw [h.firm handle hold, fresh, if_neg (by omega)] at hfirm
      omega
    · exact hg.gone handle (by omega)

/-- Every handle is known or was closed, and nothing was waited for too late. -/
structure Sound (s : Lifecycle) : Prop where
  all : ∀ handle < s.issued, s.closed.count handle + s.held handle = 1
  late : s.late = []

/-- It is too late for some handle: it was lost, it was closed twice, or it was closed and will be closed
again. -/
inductive Damaged (s : Lifecycle) : Prop
  | lost (handle : ℕ) : handle < s.issued → s.closed.count handle = 0 → s.held handle = 0 → Damaged s
  | twice (handle : ℕ) : 2 ≤ s.closed.count handle → Damaged s
  | worker (handle : ℕ) : 0 < s.closed.count handle → 0 < s.m_hWorkerThreads.count handle → Damaged s

/-- The listen socket is closed and still in its context. It will be closed again, or be forgotten
together with the completion port. -/
structure HalfClosed (s : Lifecycle) (socket port : ℕ) : Prop where
  closed : 0 < s.closed.count socket
  listen : s.m_pListenCtx.join = some socket
  port : s.m_hComPort = some port

theorem Sound.keeps (h : Sound s) (hv : Valid s) (hk : Keeps s s') : Sound s' where
  all handle hlt := by
    rw [hk.balance, fresh]
    by_cases hold : handle < s.issued
    · rw [if_neg (by omega)]
      exact h.all handle hold
    · have hnew := hv.lt handle (Nat.not_lt.mp hold)
      rw [if_pos ⟨Nat.not_lt.mp hold, hlt⟩]
      omega
  late := hk.late.trans h.late

theorem Adds.keeps (ha : Adds s s') : Keeps s s' where
  balance handle := by rw [ha.closed, ha.held, Nat.add_assoc]
  late := ha.late

theorem Damaged.grows (h : Damaged s) (hg : Grows s s') : Damaged s' := by
  cases h with
  | lost handle hlt hclosed hheld =>
    have hclosing := hg.closing handle
    have hmore := hg.held handle
    rw [fresh, if_neg (by omega)] at hmore
    exact .lost handle (hlt.trans_le hg.issued) (by omega) (by omega)
  | twice handle htwo => exact .twice handle (htwo.trans (hg.closed handle))
  | worker handle hclosed hworker =>
    exact .worker handle (hclosed.trans_le (hg.closed handle)) (hworker.trans_le (hg.workers handle))

/-! ### The steps of `start` -/

def setListen (s : Lifecycle) (ok : Bool) : Lifecycle :=
  { (s.acquire ok).2 with m_pListenCtx := some (s.acquire ok).1 }

def setPort (s : Lifecycle) (ok : Bool) : Lifecycle :=
  { (s.acquire ok).2 with m_hComPort := (s.acquire ok).1 }

theorem count_some (a b : ℕ) : (some a).toList.count b = if a = b then 1 else 0 := by
  simp [List.count_singleton]

theorem held_setListen (s : Lifecycle) (ok : Bool) (handle : ℕ) :
    (s.setListen ok).held handle + s.m_pListenCtx.join.toList.count handle =
      s.held handle + s.fresh (s.setListen ok) handle := by
  cases ok with
  | true =>
    simp only [held, firm, setListen, acquire, if_true, Option.join_some, count_some, fresh]
    split_ifs <;> omega
  | false =>
    simp only [held, firm, setListen, acquire, Bool.false_eq_true, if_false, Option.join_some,
      Option.toList_none, List.count_nil, fresh]
    split_ifs <;> omega

theorem held_setPort (s : Lifecycle) (ok : Bool) (handle : ℕ) :
    (s.setPort ok).held handle + s.m_hComPort.toList.count handle =
      s.held handle + s.fresh (s.setPort ok) handle := by
  cases ok with
  | true =>
    simp only [held, firm, setPort, acquire, if_true, count_some, fresh]
    split_ifs <;> omega
  | false =>
    simp only [held, firm, setPort, acquire, Bool.false_eq_true, if_false, Option.toList_none,
      List.count_nil, fresh]
    split_ifs <;> omega

theorem firm_setPort (s : Lifecycle) (ok : Bool) (handle : ℕ) :
    (s.setPort ok).firm handle + s.m_hComPort.toList.count handle =
      s.firm handle + s.fresh (s.setPort ok) handle := by
  have h := held_setPort s ok handle
  have hworkers : (s.setPort ok).m_hWorkerThreads = s.m_hWorkerThreads := by cases ok <;> rfl
  have hlisten : (s.setPort ok).m_pListenCtx = s.m_pListenCtx := by cases ok <;> rfl
  simp only [held, hworkers, hlisten] at h
  omega

theorem grows_setListen (s : Lifecycle) (ok : Bool) : Grows s (s.setListen ok) where
  issued := by cases ok <;> simp [setListen, acquire]
  closed _ := by cases ok <;> exact le_rfl
  closing _ := by cases ok <;> exact Nat.le_add_right ..
  workers _ := by cases ok <;> exact le_rfl
  held handle := by
    have := held_setListen s ok handle
    omega
  firm _ := by cases ok <;> exact Nat.le_add_right ..
  gone _ hlt := by cases ok <;> exact absurd hlt (Nat.lt_irrefl _)
  write := by cases ok <;> rfl

theorem grows_setPort (s : Lifecycle) (ok : Bool) : Grows s (s.setPort ok) where
  issued := by cases ok <;> simp [setPort, acquire]
  closed _ := by cases ok <;> exact le_rfl
  closing _ := by cases ok <;> exact Nat.le_add_right ..
  workers _ := by cases ok <;> exact le_rfl
  held handle := by
    have := held_setPort s ok handle
    omega
  firm handle := by
    have := firm_setPort s ok handle
    omega
  gone _ hlt := by cases ok <;> exact absurd hlt (Nat.lt_irrefl _)
  write := by cases ok <;> rfl

/-- What `start` has made when it comes to `listen` and so on. -/
def opened (s : Lifecycle) (o : Starting) : Lifecycle := (s.setListen o.socket).setPort o.port

theorem m_hComPort_setListen (s : Lifecycle) (ok : Bool) : (s.setListen ok).m_hComPort = s.m_hComPort := by
  cases ok <;> rfl

theorem closed_opened (s : Lifecycle) (o : Starting) : (s.opened o).closed = s.closed := by
  rw [opened]
  cases o.socket <;> cases o.port <;> rfl

theorem late_opened (s : Lifecycle) (o : Starting) : (s.opened o).late = s.late := by
  rw [opened]
  cases o.socket <;> cases o.port <;> rfl

theorem createListenClient_snd (s : Lifecycle) (o : Starting) : (s.createListenClient o).2 =
    if Starting.closesListen o then (s.opened o).close (s.opened o).m_pListenCtx.join else s.opened o := by
  have hopened : s.opened o = { ((s.setListen o.socket).acquire o.port).2 with
    m_hComPort := ((s.setListen o.socket).acquire o.port).1 } := rfl
  obtain ⟨_, socket, port, associated, bound, listening, ptr, addrs, _, _⟩ := o
  cases socket <;> cases port <;> cases associated <;> cases bound <;> cases listening <;> cases ptr <;>
    cases addrs <;> rfl

theorem createListenClient_fst {s : Lifecycle} {o : Starting} (h : (s.createListenClient o).1 = true) :
    ¬ Starting.closesListen o := by
  rintro ⟨hsocket, hport, hassociated, hbound, hlistening, hno⟩
  simp only [createListenClient, acquire, hsocket, hport, hassociated, hbound, hlistening, if_true] at h
  by_cases hptr : o.acceptExPtr
  · have haddrs : o.acceptExSockaddrs = false := by simpa [hptr] using hno
    simp [hptr, haddrs] at h
  · simp [hptr] at h

theorem createIocpWorker_adds (s : Lifecycle) (threads : List Bool) :
    Adds s (s.createIocpWorker threads).2 := by
  induction threads generalizing s with
  | nil => exact .refl s
  | cons ok threads ih =>
    cases ok with
    | false => exact .refl s
    | true =>
      have hpush : Adds s { s with
          issued := s.issued + 1
          m_hWorkerThreads := s.m_hWorkerThreads ++ [s.issued]
          m_nWorkerCnt := s.m_nWorkerCnt + 1 } := by
        refine ⟨Nat.le_succ _, rfl, rfl, fun handle => ?_, fun handle => ?_, fun handle => ?_, rfl⟩
        · simp [List.count_append]
        · simp only [held, firm, fresh, List.count_append, List.count_singleton, beq_iff_eq]
          split_ifs <;> omega
        · exact Nat.le_add_right ..
      exact hpush.trans (ih _)

theorem count_sockets_cons (ctx : AcceptIoContext) (list : List AcceptIoContext) (handle : ℕ) :
    (sockets (ctx :: list)).count handle =
      ctx.m_acceptSocket.toList.count handle + (sockets list).count handle := by
  cases hctx : ctx.m_acceptSocket with
  | none => simp [sockets, hctx]
  | some socket =>
    simp only [sockets, List.filterMap_cons, hctx, List.count_cons, Option.toList_some, List.count_nil]
    omega

theorem count_sockets_set {list : List AcceptIoContext} {k : ℕ} {ctx : AcceptIoContext}
    (h : list[k]? = some ctx) (ctx' : AcceptIoContext) (handle : ℕ) :
    (sockets (list.set k ctx')).count handle + ctx.m_acceptSocket.toList.count handle =
      (sockets list).count handle + ctx'.m_acceptSocket.toList.count handle := by
  induction list generalizing k with
  | nil => cases h
  | cons a list ih =>
    cases k with
    | zero =>
      obtain rfl := Option.some.inj h
      simp only [List.set_cons_zero, count_sockets_cons]
      omega
    | succ k =>
      have hrest := ih h
      simp only [List.set_cons_succ, count_sockets_cons]
      omega

theorem count_acquire (s : Lifecycle) (ok : Bool) (handle : ℕ) :
    (s.acquire ok).1.toList.count handle = s.fresh (s.acquire ok).2 handle := by
  cases ok with
  | true =>
    simp only [acquire, if_true, count_some, fresh]
    split_ifs <;> omega
  | false =>
    simp only [acquire, Bool.false_eq_true, if_false, Option.toList_none, List.count_nil]
    exact (fresh_self s handle).symm

/-- What `postAccept` leaves as it is. -/
structure Reposts (s s' : Lifecycle) : Prop where
  issued : s.issued ≤ s'.issued
  closed : s'.closed = s.closed
  late : s'.late = s.late
  workers : s'.m_hWorkerThreads = s.m_hWorkerThreads
  listen : s'.m_pListenCtx = s.m_pListenCtx
  port : s'.m_hComPort = s.m_hComPort
  write : s'.m_hWriteCompletedEvent = s.m_hWriteCompletedEvent

theorem reposts_postAccept (s : Lifecycle) (k : ℕ) (o : Posting) : Reposts s (s.postAccept k o).2 := by
  cases hs : o.socket <;> simp only [postAccept, hs] <;>
    exact ⟨by simp [acquire], rfl, rfl, rfl, rfl, rfl, rfl⟩

theorem firm_postAccept {k : ℕ} {ctx : AcceptIoContext} (h : s.m_acceptIoCtxList[k]? = some ctx) (o : Posting)
    (handle : ℕ) : (s.postAccept k o).2.firm handle + ctx.m_acceptSocket.toList.count handle =
      s.firm handle + s.fresh (s.postAccept k o).2 handle := by
  have hset := count_sockets_set h ⟨(s.acquire o.socket).1, o.socket && o.acceptEx⟩ handle
  have hnew := count_acquire s o.socket handle
  have hfirm : (s.postAccept k o).2.firm handle = s.m_hExitEvent.toList.count handle +
      s.m_hWriteCompletedEvent.toList.count handle + s.m_hComPort.toList.count handle +
      (sockets (s.m_acceptIoCtxList.set k
        ⟨(s.acquire o.socket).1, o.socket && o.acceptEx⟩)).count handle +
      s.m_connectedClientList.count handle := by
    cases hs : o.socket <;> simp only [postAccept, hs] <;> rfl
  have hfresh : s.fresh (s.postAccept k o).2 handle = s.fresh (s.acquire o.socket).2 handle := rfl
  rw [hfirm, hfresh, ← hnew, firm]
  simp only at hset
  omega

theorem postAccept_adds {k : ℕ} {ctx : AcceptIoContext} (h : s.m_acceptIoCtxList[k]? = some ctx)
    (hnone : ctx.m_acceptSocket = none) (o : Posting) : Adds s (s.postAccept k o).2 := by
  have hr := reposts_postAccept s k o
  have hfirm (handle : ℕ) : (s.postAccept k o).2.firm handle =
      s.firm handle + s.fresh (s.postAccept k o).2 handle := by
    have := firm_postAccept h o handle
    rw [hnone] at this
    exact this
  refine ⟨hr.issued, hr.closed, hr.late, fun handle => by rw [hr.workers], fun handle => ?_,
    fun handle => (hfirm handle).le, hr.write⟩
  rw [held, held, hfirm, hr.listen, hr.workers]
  omega

theorem addAcceptIoContext_adds (s : Lifecycle) : Adds s s.addAcceptIoContext := by
  have hsockets : sockets s.addAcceptIoContext.m_acceptIoCtxList = sockets s.m_acceptIoCtxList := by
    simp [sockets, addAcceptIoContext]
  have hfirm (handle : ℕ) : s.addAcceptIoContext.firm handle = s.firm handle := by
    rw [firm, hsockets]
    rfl
  refine ⟨le_rfl, rfl, rfl, fun _ => le_rfl, fun handle => ?_, fun handle => ?_, rfl⟩
  · rw [held, hfirm, show s.fresh s.addAcceptIoContext handle = 0 from fresh_self s handle]
    rfl
  · rw [hfirm]
    exact Nat.le_add_right ..

theorem initAcceptIoContext_adds (s : Lifecycle) (accepts : List Posting) :
    Adds s (s.initAcceptIoContext accepts).2 := by
  induction accepts generalizing s with
  | nil => exact .refl s
  | cons o accepts ih =>
    have hlast : s.addAcceptIoContext.m_acceptIoCtxList[s.m_acceptIoCtxList.length]? = some ⟨none, false⟩ := by
      simp [addAcceptIoContext]
    have hpost := s.addAcceptIoContext_adds.trans (postAccept_adds hlast rfl o)
    simp only [initAcceptIoContext]
    split_ifs
    · exact hpost.trans (ih _)
    · exact hpost

theorem start_adds {o : Starting} (hinit : o.init = true) : Adds (s.createListenClient o).2 (s.start o).2 := by
  simp only [start, hinit, Bool.true_eq_false, if_false]
  split_ifs
  · exact .refl _
  · exact createIocpWorker_adds _ _
  · exact (createIocpWorker_adds _ _).trans (initAcceptIoContext_adds _ _)

theorem start_of_closesListen {o : Starting} (hinit : o.init = true) (h : Starting.closesListen o) :
    (s.start o).2 = (s.opened o).close (s.opened o).m_pListenCtx.join := by
  have hfst : (s.createListenClient o).1 = false := by
    by_contra hno
    exact createListenClient_fst (by simpa using hno) h
  simp only [start, hinit, hfst, Bool.true_eq_false, if_false, if_true]
  rw [createListenClient_snd, if_pos h]

theorem halfClosed_of_closesListen {o : Starting} (hinit : o.init = true) (h : Starting.closesListen o) :
    ∃ socket port, HalfClosed (s.start o).2 socket port := by
  rw [start_of_closesListen hinit h]
  have hlisten : (s.opened o).m_pListenCtx.join = some s.issued := by
    simp [opened, setListen, setPort, acquire, h.1, h.2.1]
  have hport : (s.opened o).m_hComPort = some (s.issued + 1) := by
    simp [opened, setListen, setPort, acquire, h.1, h.2.1]
  refine ⟨s.issued, s.issued + 1, ?_, hlisten, hport⟩
  rw [hlisten]
  simp [close]

theorem Valid.lost_of_opened (hv : Valid s) (o : Starting) {handle : ℕ}
    (hthere : s.m_hComPort = some handle ∨ s.m_pListenCtx.join = some handle)
    (hopen : s.closed.count handle = 0) : Damaged (s.opened o) := by
  have hone := hv.once handle
  have hlisten := held_setListen s o.socket handle
  have hport := held_setPort (s.setListen o.socket) o.port handle
  have hissued : s.issued ≤ (s.opened o).issued :=
    (grows_setListen s o.socket).issued.trans (grows_setPort _ o.port).issued
  rw [m_hComPort_setListen] at hport
  have hknown : 1 ≤ s.m_hComPort.toList.count handle + s.m_pListenCtx.join.toList.count handle := by
    rcases hthere with hthere | hthere
    · rw [hthere, count_some, if_pos rfl]
      omega
    · rw [hthere, count_some, if_pos rfl]
      omega
  have hle : s.m_hComPort.toList.count handle + s.m_pListenCtx.join.toList.count handle ≤ s.held handle := by
    rw [held, Lifecycle.firm]
    omega
  have hlt : handle < s.issued := hv.lt_of_held (by omega)
  have hfresh₁ : s.fresh (s.setListen o.socket) handle = 0 := if_neg (by omega)
  have hfresh₂ : (s.setListen o.socket).fresh ((s.setListen o.socket).setPort o.port) handle = 0 := by
    have := (grows_setListen s o.socket).issued
    exact if_neg (by omega)
  refine .lost handle (by omega) (by rw [closed_opened]; exact hopen) ?_
  rw [opened]
  omega

theorem Valid.opened (hv : Valid s) (o : Starting) : Valid (s.opened o) :=
  (hv.grows (grows_setListen s o.socket)).grows (grows_setPort _ o.port)

theorem Damaged.opened (h : Damaged s) (o : Starting) : Damaged (s.opened o) :=
  (h.grows (grows_setListen s o.socket)).grows (grows_setPort _ o.port)

theorem Valid.grows_closeListen (hv : Valid s) : Grows s (s.close s.m_pListenCtx.join) where
  issued := le_rfl
  closed _ := by simp [close, List.count_append]
  closing handle := by
    simp only [close, List.count_append, held]
    omega
  workers _ := le_rfl
  held handle := Nat.le_add_right ..
  firm handle := Nat.le_add_right ..
  gone handle hlt := by
    have hone := hv.once handle
    simp only [close, List.count_append] at hlt
    rw [held] at hone
    show s.firm handle = 0
    omega
  write := rfl

theorem keeps_opened (s : Lifecycle) (o : Starting) (hport : s.m_hComPort = none)
    (hlisten : s.m_pListenCtx.join = none) : Keeps s (s.opened o) where
  balance handle := by
    have hissued := (grows_setPort (s.setListen o.socket) o.port).issued
    have hheld₁ := held_setListen s o.socket handle
    have hheld₂ := held_setPort (s.setListen o.socket) o.port handle
    rw [m_hComPort_setListen, hport] at hheld₂
    rw [hlisten] at hheld₁
    simp only [Option.toList_none, List.count_nil, Nat.add_zero] at hheld₁ hheld₂
    rw [closed_opened, opened, hheld₂, hheld₁, fresh_add (grows_setListen s o.socket).issued hissued]
    omega
  late := late_opened s o

theorem Valid.createListenClient (hv : Valid s) (o : Starting) : Valid (s.createListenClient o).2 := by
  rw [createListenClient_snd]
  split_ifs
  · exact (hv.opened o).grows (hv.opened o).grows_closeListen
  · exact hv.opened o

theorem Damaged.createListenClient {o : Starting} (h : Damaged (s.opened o)) (hv : Valid s) :
    Damaged (s.createListenClient o).2 := by
  rw [createListenClient_snd]
  split_ifs
  · exact h.grows (hv.opened o).grows_closeListen
  · exact h

theorem start_of_not_init {o : Starting} (hinit : ¬ o.init = true) : (s.start o).2 = s := by
  rw [start, if_pos (by simpa using hinit)]

theorem Valid.start (hv : Valid s) (o : Starting) : Valid (s.start o).2 := by
  by_cases hinit : o.init = true
  · exact (hv.createListenClient o).grows (start_adds hinit).grows
  · rw [start_of_not_init hinit]
    exact hv

theorem Damaged.start (h : Damaged s) (hv : Valid s) (o : Starting) : Damaged (s.start o).2 := by
  by_cases hinit : o.init = true
  · exact ((h.opened o).createListenClient hv).grows (start_adds hinit).grows
  · rw [start_of_not_init hinit]
    exact h

theorem Sound.start (h : Sound s) (hv : Valid s) {o : Starting} (hcareful : s.Careful (.start o)) :
    Sound (s.start o).2 := by
  by_cases hinit : o.init = true
  · obtain ⟨hport, hlisten, hno⟩ := hcareful hinit
    have hsound : Sound (s.createListenClient o).2 := by
      rw [createListenClient_snd, if_neg hno]
      exact h.keeps hv (keeps_opened s o hport hlisten)
    exact hsound.keeps (hv.createListenClient o) (start_adds hinit).keeps
  · rw [start_of_not_init hinit]
    exact h

theorem Sound.closed_of_held (h : Sound s) (hv : Valid s) {handle : ℕ} (hheld : 0 < s.held handle) :
    s.closed.count handle = 0 := by
  have hall := h.all handle (hv.lt_of_held hheld)
  omega

def Doomed (s : Lifecycle) : Prop := Damaged s ∨ ∃ socket port, HalfClosed s socket port

theorem HalfClosed.start {socket port : ℕ} (h : HalfClosed s socket port) (hv : Valid s) (o : Starting) :
    Doomed (s.start o).2 := by
  by_cases hinit : o.init = true
  · have hport : s.closed.count port = 0 := by
      by_contra hno
      have hfirm := hv.firm port (Nat.pos_of_ne_zero hno)
      rw [firm, h.port, count_some, if_pos rfl] at hfirm
      omega
    exact .inl (((hv.lost_of_opened o (.inl h.port) hport).createListenClient hv).grows (start_adds hinit).grows)
  · rw [start_of_not_init hinit]
    exact .inr ⟨socket, port, h⟩

theorem Sound.doomed_of_start (h : Sound s) (hv : Valid s) {o : Starting} (hno : ¬ s.Careful (.start o)) :
    Doomed (s.start o).2 := by
  simp only [Careful, Classical.not_imp] at hno
  obtain ⟨hinit, hno⟩ := hno
  have hlost {handle : ℕ} (hthere : s.m_hComPort = some handle ∨ s.m_pListenCtx.join = some handle) :
      Doomed (s.start o).2 := by
    have hheld : 0 < s.held handle := by
      rcases hthere with hthere | hthere
      · rw [held, firm, hthere, count_some, if_pos rfl]
        omega
      · rw [held, hthere, count_some, if_pos rfl]
        omega
    have hopened := hv.lost_of_opened o hthere (h.closed_of_held hv hheld)
    exact .inl ((hopened.createListenClient hv).grows (start_adds hinit).grows)
  cases hport : s.m_hComPort with
  | some port => exact hlost (.inl hport)
  | none =>
    cases hlisten : s.m_pListenCtx.join with
    | some socket => exact hlost (.inr hlisten)
    | none =>
      have hcloses : Starting.closesListen o := by
        by_contra hstays
        exact hno ⟨hport, hlisten, hstays⟩
      exact .inr (halfClosed_of_closesListen hinit hcloses)

end Lifecycle
end NetDemo.Server
