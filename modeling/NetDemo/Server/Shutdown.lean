import Mathlib.Data.List.Perm.Basic
import NetDemo.Server.Handles

/-! What `stop`, the workers and the destructor do to the handles of an `IocpServer`, and the whole life
of a server. -/

namespace NetDemo.Server
open Foundation

namespace Lifecycle

variable {s s' : Lifecycle}

/-! ### `stop` -/

theorem count_closed_stop (s : Lifecycle) (handle : ℕ) : s.stop.closed.count handle =
    s.closed.count handle + s.m_hWorkerThreads.count handle + (sockets s.m_acceptIoCtxList).count handle +
      s.m_hExitEvent.toList.count handle + s.m_hComPort.toList.count handle +
      s.m_pListenCtx.join.toList.count handle := by
  simp only [stop, exitIocpWorker]
  split_ifs <;> simp only [close, List.count_append]

theorem firm_stop (s : Lifecycle) (handle : ℕ) :
    s.stop.firm handle = s.m_hWriteCompletedEvent.toList.count handle := by
  simp only [firm, stop, exitIocpWorker]
  split_ifs <;> simp [close, sockets]

theorem held_stop (s : Lifecycle) (handle : ℕ) : s.stop.held handle =
    s.m_hWriteCompletedEvent.toList.count handle + s.m_hWorkerThreads.count handle := by
  rw [held, firm_stop]
  simp only [stop, exitIocpWorker]
  split_ifs <;> simp [close]

theorem issued_stop (s : Lifecycle) : s.stop.issued = s.issued := by
  simp only [stop, exitIocpWorker]
  split_ifs <;> rfl

theorem m_hWorkerThreads_stop (s : Lifecycle) : s.stop.m_hWorkerThreads = s.m_hWorkerThreads := by
  simp only [stop, exitIocpWorker]
  split_ifs <;> rfl

theorem m_hWriteCompletedEvent_stop (s : Lifecycle) :
    s.stop.m_hWriteCompletedEvent = s.m_hWriteCompletedEvent := by
  simp only [stop, exitIocpWorker]
  split_ifs <;> rfl

theorem Valid.grows_stop (hv : Valid s) : Grows s s.stop where
  issued := (issued_stop s).ge
  closed handle := by
    rw [count_closed_stop]
    omega
  closing handle := by
    rw [count_closed_stop, held, Lifecycle.firm]
    omega
  workers _ := by rw [m_hWorkerThreads_stop]
  held handle := by
    rw [held_stop, held, Lifecycle.firm]
    omega
  firm handle := by
    rw [firm_stop, Lifecycle.firm]
    omega
  gone handle hlt := by
    have hone := hv.once handle
    rw [held, Lifecycle.firm] at hone
    rw [count_closed_stop] at hlt
    rw [firm_stop]
    omega
  write := m_hWriteCompletedEvent_stop s

theorem HalfClosed.stop {socket port : ℕ} (h : HalfClosed s socket port) : Damaged s.stop := by
  refine .twice socket ?_
  have hclosed := h.closed
  rw [count_closed_stop, h.listen, count_some, if_pos rfl]
  omega

theorem Sound.late_stop (h : Sound s) (hv : Valid s) : s.stop.late = [] := by
  have hnone : (s.m_hWorkerThreads.take s.m_nWorkerCnt).filter (· ∈ s.closed) = [] := by
    rw [List.filter_eq_nil_iff]
    intro handle hmem hclosed
    have hworker : 0 < s.m_hWorkerThreads.count handle := List.count_pos_iff.mpr (List.mem_of_mem_take hmem)
    have hopen : s.closed.count handle = 0 := h.closed_of_held hv (by rw [held]; omega)
    exact List.count_eq_zero.mp hopen (of_decide_eq_true hclosed)
  have hlate := h.late
  simp only [Lifecycle.stop, exitIocpWorker]
  split_ifs
  · simp only [close, hnone, List.append_nil]
    exact hlate
  · exact hlate

theorem Sound.keeps_stop (h : Sound s) (hv : Valid s) (hworkers : s.m_hWorkerThreads = [])
    (hclients : s.m_connectedClientList = []) : Keeps s s.stop where
  balance handle := by
    rw [count_closed_stop, held_stop, held, firm, hworkers, hclients, fresh_of_issued (issued_stop s)]
    simp only [List.count_nil]
    omega
  late := (h.late_stop hv).trans h.late.symm

/-- What `stop` has nothing to do for. -/
structure Stopped (s : Lifecycle) : Prop where
  workers : s.m_hWorkerThreads = []
  accepts : s.m_acceptIoCtxList = []
  exit : s.m_hExitEvent = none
  port : s.m_hComPort = none
  listen : s.m_pListenCtx = none
  clients : s.m_connectedClientList = []

theorem stopped_stop (hworkers : s.m_hWorkerThreads = []) : Stopped s.stop :=
  ⟨(m_hWorkerThreads_stop s).trans hworkers, rfl, rfl, rfl, rfl, rfl⟩

theorem Stopped.stop (h : Stopped s) : s.stop = s := by
  obtain ⟨port, exit, write, count, listen, workers, accepts, clients, issued, closed, late⟩ := s
  obtain ⟨hworkers, haccepts, hexit, hport, hlisten, hclients⟩ := h
  simp only at hworkers haccepts hexit hport hlisten hclients
  subst hworkers haccepts hexit hport hlisten hclients
  simp [Lifecycle.stop, exitIocpWorker, close, sockets]

theorem Sound.lost_stop (h : Sound s) (hv : Valid s) {socket : ℕ} (hmem : socket ∈ s.m_connectedClientList) :
    socket < s.stop.issued ∧ s.stop.closed.count socket = 0 ∧ s.stop.held socket = 0 := by
  have hclient : 0 < s.m_connectedClientList.count socket := List.count_pos_iff.mpr hmem
  have hheld : 0 < s.held socket := by
    rw [held, firm]
    omega
  have hopen := h.closed_of_held hv hheld
  have hlt := hv.lt_of_held hheld
  have hone := hv.once socket
  rw [held, firm] at hone
  rw [issued_stop, count_closed_stop, held_stop]
  omega

theorem Sound.doomed_of_stop (h : Sound s) (hv : Valid s) (hno : ¬ s.Careful .stop) : Doomed s.stop := by
  by_cases hworkers : s.m_hWorkerThreads = []
  · have hclients : s.m_connectedClientList ≠ [] := fun hclients => hno ⟨hworkers, hclients⟩
    obtain ⟨socket, hmem⟩ := List.exists_mem_of_ne_nil _ hclients
    obtain ⟨hlt, hclosed, hheld⟩ := h.lost_stop hv hmem
    exact .inl (.lost socket hlt hclosed hheld)
  · obtain ⟨worker, hmem⟩ := List.exists_mem_of_ne_nil _ hworkers
    have hworker : 0 < s.m_hWorkerThreads.count worker := List.count_pos_iff.mpr hmem
    refine .inl (.worker worker ?_ ?_)
    · rw [count_closed_stop]
      omega
    · rw [m_hWorkerThreads_stop]
      exact hworker

/-! ### The workers' steps -/

/-- A worker moves sockets about, closes some and loses some. -/
structure Works (s s' : Lifecycle) (closing losing : List ℕ) : Prop where
  issued : s.issued ≤ s'.issued
  closed : s'.closed = s.closed ++ closing
  late : s'.late = s.late
  workers : s'.m_hWorkerThreads = s.m_hWorkerThreads
  listen : s'.m_pListenCtx = s.m_pListenCtx
  port : s'.m_hComPort = s.m_hComPort
  write : s'.m_hWriteCompletedEvent = s.m_hWriteCompletedEvent
  known : ∀ handle, closing.count handle + losing.count handle ≤ s.firm handle
  firm : ∀ handle, s'.firm handle + closing.count handle + losing.count handle =
    s.firm handle + s.fresh s' handle

variable {closing losing : List ℕ}

theorem Works.held (h : Works s s' closing losing) (handle : ℕ) :
    s'.held handle + closing.count handle + losing.count handle = s.held handle + s.fresh s' handle := by
  have hfirm := h.firm handle
  rw [Lifecycle.held, Lifecycle.held, h.listen, h.workers]
  omega

theorem Works.count_closed (h : Works s s' closing losing) (handle : ℕ) :
    s'.closed.count handle = s.closed.count handle + closing.count handle := by
  rw [h.closed, List.count_append]

theorem Works.grows (h : Works s s' closing losing) (hv : Valid s) : Grows s s' where
  issued := h.issued
  closed handle := by
    rw [h.count_closed]
    exact Nat.le_add_right ..
  closing handle := by
    have hknown := h.known handle
    have hle := firm_le_held s handle
    rw [h.count_closed]
    omega
  workers _ := by rw [h.workers]
  held handle := by
    have hheld := h.held handle
    omega
  firm handle := by
    have hfirm := h.firm handle
    omega
  gone handle hlt := by
    have hknown := h.known handle
    have hfirm := h.firm handle
    have hone := hv.once handle
    have hlt' := hv.lt handle
    have hle := firm_le_held s handle
    rw [h.count_closed] at hlt
    rw [fresh, if_neg (by omega)] at hfirm
    omega
  write := h.write

theorem Works.keeps (h : Works s s' closing []) : Keeps s s' where
  balance handle := by
    have hheld := h.held handle
    rw [List.count_nil, Nat.add_zero] at hheld
    rw [h.count_closed]
    omega
  late := h.late

theorem Works.damaged (h : Works s s' closing losing) (hv : Valid s) (hs : Sound s) {handle : ℕ}
    (hmem : handle ∈ losing) : Damaged s' := by
  have hlost : 0 < losing.count handle := List.count_pos_iff.mpr hmem
  have hknown := h.known handle
  have hheld := h.held handle
  have hone := hv.once handle
  have hlt := hv.lt handle
  have hle := firm_le_held s handle
  have hopen : s.closed.count handle = 0 := hs.closed_of_held hv (by omega)
  have hissued := h.issued
  rw [fresh, if_neg (by omega)] at hheld
  refine .lost handle (by omega) ?_ (by omega)
  rw [h.count_closed]
  omega

theorem HalfClosed.works {socket port : ℕ} (hc : HalfClosed s socket port) (h : Works s s' closing losing) :
    HalfClosed s' socket port where
  closed := by
    have hclosed := hc.closed
    rw [h.count_closed]
    omega
  listen := by rw [h.listen, hc.listen]
  port := by rw [h.port, hc.port]

theorem count_le_firm_of_accept {k socket : ℕ} {pending : Bool}
    (h : s.m_acceptIoCtxList[k]? = some ⟨some socket, pending⟩) (handle : ℕ) :
    [socket].count handle ≤ s.firm handle := by
  have hset := count_sockets_set h ⟨none, false⟩ handle
  simp only [Option.toList_some, Option.toList_none, List.count_nil] at hset
  rw [firm]
  omega

/-- The socket is closed and its context gets another one, or it stays where it is, or it becomes a
client's and its context gets another one. -/
theorem handleAccept_works {k socket : ℕ} (h : s.m_acceptIoCtxList[k]? = some ⟨some socket, true⟩)
    (full associated : Bool) (o : Posting) :
    Works s (s.handleAccept k socket full associated o) (if full then [socket] else []) [] := by
  cases full with
  | true =>
    have hr := reposts_postAccept (s.close (some socket)) k o
    refine ⟨hr.issued, hr.closed, hr.late, hr.workers, hr.listen, hr.port, hr.write,
      count_le_firm_of_accept h, fun handle => ?_⟩
    exact firm_postAccept (s := s.close (some socket)) h o handle
  | false =>
    cases associated with
    | false =>
      refine ⟨le_rfl, (List.append_nil _).symm, rfl, rfl, rfl, rfl, rfl, fun _ => Nat.zero_le _,
        fun handle => ?_⟩
      have hset := count_sockets_set h ⟨some socket, false⟩ handle
      have hfresh : s.fresh (s.handleAccept k socket false false o) handle = 0 := fresh_of_issued rfl handle
      rw [hfresh]
      simp only [firm, handleAccept, Bool.false_eq_true, if_false, if_true, List.count_nil] at hset ⊢
      omega
    | true =>
      have hr := reposts_postAccept { s with
        m_connectedClientList := s.m_connectedClientList ++ [socket] } k o
      refine ⟨hr.issued, hr.closed.trans (List.append_nil _).symm, hr.late, hr.workers, hr.listen, hr.port,
        hr.write, fun _ => Nat.zero_le _, fun handle => ?_⟩
      have hfirm := firm_postAccept (s := { s with
        m_connectedClientList := s.m_connectedClientList ++ [socket] }) h o handle
      have hclient : firm { s with m_connectedClientList := s.m_connectedClientList ++ [socket] } handle =
          s.firm handle + [socket].count handle := by
        simp only [firm, List.count_append]
        omega
      rw [hclient] at hfirm
      exact Nat.add_right_cancel (hfirm.trans (Nat.add_right_comm ..))

theorem count_eraseIdx {list : List ℕ} {j a : ℕ} (h : list[j]? = some a) (handle : ℕ) :
    (list.eraseIdx j).count handle + [a].count handle = list.count handle := by
  obtain ⟨hlt, rfl⟩ := List.getElem?_eq_some_iff.mp h
  rw [← List.count_append]
  exact (List.perm_append_singleton _ _).trans (List.getElem_cons_eraseIdx_perm hlt) |>.count_eq handle

theorem closeClient_works {j socket : ℕ} {lingered : Bool} (h : s.m_connectedClientList[j]? = some socket) :
    Works s { s with
      m_connectedClientList := s.m_connectedClientList.eraseIdx j
      closed := s.closed ++ if lingered then [socket] else [] }
      (if lingered then [socket] else []) (if lingered then [] else [socket]) := by
  have hcount := count_eraseIdx h
  refine ⟨le_rfl, rfl, rfl, rfl, rfl, rfl, rfl, fun handle => ?_, fun handle => ?_⟩
  · have hthis := hcount handle
    rw [firm]
    cases lingered <;> simp only [if_true, Bool.false_eq_true, if_false, List.count_nil] <;> omega
  · have hthis := hcount handle
    have hold : ¬ (s.issued ≤ handle ∧ handle < s.issued) := by omega
    simp only [firm, fresh, if_neg hold]
    cases lingered <;> simp only [if_true, Bool.false_eq_true, if_false, List.count_nil] <;> omega

/-! ### Runs -/

/-- A step that is no `start` and no `stop` is a worker's. It loses nothing if and only if it is careful. -/
theorem step_cases {call : Call} (h : step s call = some s') :
    (∃ o, call = .start o ∧ s' = (s.start o).2) ∨ (call = .stop ∧ s' = s.stop) ∨
      ∃ closing losing, Works s s' closing losing ∧ (s.Careful call ↔ losing = []) := by
  cases call with
  | start o => exact .inl ⟨o, rfl, (Option.some.inj h).symm⟩
  | stop => exact .inr (.inl ⟨rfl, (Option.some.inj h).symm⟩)
  | handleAccept k full associated o =>
    simp only [step] at h
    split at h
    · next socket hk =>
      obtain rfl := Option.some.inj h
      exact .inr (.inr ⟨_, [], handleAccept_works hk full associated o, by simp [Careful]⟩)
    · cases h
  | closeClient j lingered =>
    obtain ⟨socket, hj, rfl⟩ := Option.map_eq_some_iff.mp h
    exact .inr (.inr ⟨_, _, closeClient_works hj, by cases lingered <;> simp [Careful]⟩)

theorem Valid.of_step {call : Call} (hv : Valid s) (h : step s call = some s') : Valid s' := by
  obtain ⟨o, rfl, rfl⟩ | ⟨rfl, rfl⟩ | ⟨closing, losing, hw, -⟩ := step_cases h
  · exact hv.start o
  · exact hv.grows hv.grows_stop
  · exact hv.grows (hw.grows hv)

theorem Sound.of_step {call : Call} (hs : Sound s) (hv : Valid s) (hcareful : s.Careful call)
    (h : step s call = some s') : Sound s' := by
  obtain ⟨o, rfl, rfl⟩ | ⟨rfl, rfl⟩ | ⟨closing, losing, hw, hiff⟩ := step_cases h
  · exact hs.start hv hcareful
  · exact hs.keeps hv (hs.keeps_stop hv hcareful.1 hcareful.2)
  · obtain rfl := hiff.mp hcareful
    exact hs.keeps hv hw.keeps

theorem Sound.doomed_of_step {call : Call} (hs : Sound s) (hv : Valid s) (hno : ¬ s.Careful call)
    (h : step s call = some s') : Doomed s' := by
  obtain ⟨o, rfl, rfl⟩ | ⟨rfl, rfl⟩ | ⟨closing, losing, hw, hiff⟩ := step_cases h
  · exact hs.doomed_of_start hv hno
  · exact hs.doomed_of_stop hv hno
  · obtain ⟨handle, hmem⟩ := List.exists_mem_of_ne_nil _ (mt hiff.mpr hno)
    exact .inl (hw.damaged hv hs hmem)

theorem Doomed.of_step {call : Call} (hd : Doomed s) (hv : Valid s) (h : step s call = some s') : Doomed s' := by
  rcases hd with hd | ⟨socket, port, hd⟩
  · obtain ⟨o, rfl, rfl⟩ | ⟨rfl, rfl⟩ | ⟨closing, losing, hw, -⟩ := step_cases h
    · exact .inl (hd.start hv o)
    · exact .inl (hd.grows hv.grows_stop)
    · exact .inl (hd.grows (hw.grows hv))
  · obtain ⟨o, rfl, rfl⟩ | ⟨rfl, rfl⟩ | ⟨closing, losing, hw, -⟩ := step_cases h
    · exact hd.start hv o
    · exact .inl hd.stop
    · exact .inr ⟨socket, port, hd.works hw⟩

theorem m_hWriteCompletedEvent_start (hv : Valid s) (o : Starting) :
    (s.start o).2.m_hWriteCompletedEvent = s.m_hWriteCompletedEvent := by
  by_cases hinit : o.init = true
  · have hopened : (s.opened o).m_hWriteCompletedEvent = s.m_hWriteCompletedEvent :=
      (grows_setPort _ o.port).write.trans (grows_setListen s o.socket).write
    rw [(start_adds hinit).write, createListenClient_snd]
    split_ifs
    · exact (hv.opened o).grows_closeListen.write.trans hopened
    · exact hopened
  · rw [start_of_not_init hinit]

theorem m_hWriteCompletedEvent_step {call : Call} (hv : Valid s) (h : step s call = some s') :
    s'.m_hWriteCompletedEvent = s.m_hWriteCompletedEvent := by
  obtain ⟨o, rfl, rfl⟩ | ⟨rfl, rfl⟩ | ⟨closing, losing, hw, -⟩ := step_cases h
  · exact m_hWriteCompletedEvent_start hv o
  · exact m_hWriteCompletedEvent_stop s
  · exact hw.write

theorem closed_new (e w : Bool) : (new e w).closed = [] := by cases e <;> cases w <;> rfl

theorem held_new (e w : Bool) (handle : ℕ) :
    (new e w).held handle = if handle < (new e w).issued then 1 else 0 := by
  cases e <;> cases w <;>
    simp only [new, acquire, held, firm, sockets, if_true, if_false, Bool.false_eq_true, Option.join_none,
      Option.toList_none, List.filterMap_nil, List.count_nil, count_some] <;>
    split_ifs <;> omega

theorem new_valid (e w : Bool) : Valid (new e w) where
  once handle := by
    rw [held_new]
    split_ifs <;> omega
  lt handle hle := by
    rw [held_new, closed_new, if_neg (Nat.not_lt.mpr hle)]
    exact ⟨rfl, rfl⟩
  firm handle hpos := by
    rw [closed_new] at hpos
    exact absurd hpos (Nat.lt_irrefl 0)

theorem new_sound (e w : Bool) : Sound (new e w) where
  all handle hlt := by
    rw [held_new, closed_new, if_pos hlt]
    rfl
  late := by cases e <;> cases w <;> rfl

theorem Valid.of_run {calls : List Call} (hv : Valid s) (h : run step s calls = some s') :
    Valid s' ∧ s'.m_hWriteCompletedEvent = s.m_hWriteCompletedEvent := by
  refine run_preserves (fun t => Valid t ∧ t.m_hWriteCompletedEvent = s.m_hWriteCompletedEvent) ⟨hv, rfl⟩
    (fun t call t' ht hstep => ?_) h
  exact ⟨ht.1.of_step hstep, (m_hWriteCompletedEvent_step ht.1 hstep).trans ht.2⟩

theorem Sound.of_run {calls : List Call} (hs : Sound s) (hv : Valid s) (hcareful : Meets step Careful s calls)
    (h : run step s calls = some s') : Valid s' ∧ Sound s' := by
  refine run_invariant (fun t => Valid t ∧ Sound t) ⟨hv, hs⟩ (fun t call t' ht hok hstep => ?_) hcareful h
  exact ⟨ht.1.of_step hstep, ht.2.of_step ht.1 hok hstep⟩

theorem Sound.doomed_of_run {calls : List Call} (hs : Sound s) (hv : Valid s)
    (hno : ¬ Meets step Careful s calls) (h : run step s calls = some s') : Doomed s' := by
  refine (doomed_of_not_meets (fun t => Valid t ∧ Sound t) (fun t => Valid t ∧ Doomed t) ⟨hv, hs⟩
    (fun call _ t t' ht hok hstep => ?_) (fun call _ t t' ht hbad hstep => ?_)
    (fun t call t' ht hstep => ?_) hno h).2
  · exact ⟨ht.1.of_step hstep, ht.2.of_step ht.1 hok hstep⟩
  · exact ⟨ht.1.of_step hstep, ht.2.doomed_of_step ht.1 hbad hstep⟩
  · exact ⟨ht.1.of_step hstep, ht.2.of_step ht.1 hstep⟩

/-! ### The destructor -/

theorem Sound.released (hs : Sound s) (hwrite : s.m_hWriteCompletedEvent = none)
    (hclients : s.m_connectedClientList = []) : ∀ handle < s.stop.issued, s.stop.closed.count handle = 1 := by
  intro handle hlt
  rw [issued_stop] at hlt
  have hall := hs.all handle hlt
  rw [held, firm, hwrite, hclients, Option.toList_none] at hall
  simp only [List.count_nil] at hall
  rw [count_closed_stop]
  omega

theorem Valid.write_of_released (hv : Valid s)
    (hreleased : ∀ handle < s.stop.issued, s.stop.closed.count handle = 1) :
    s.m_hWriteCompletedEvent = none := by
  cases hwrite : s.m_hWriteCompletedEvent with
  | none => rfl
  | some event =>
    have hv' := hv.grows hv.grows_stop
    have hfirm : s.stop.firm event = 1 := by rw [firm_stop, hwrite, count_some, if_pos rfl]
    have hle := firm_le_held s.stop event
    have hone := hreleased event (hv'.lt_of_held (by omega))
    have hzero := hv'.firm event (by omega)
    omega

theorem Valid.count_le_of_released (hv : Valid s)
    (hreleased : ∀ handle < s.stop.issued, s.stop.closed.count handle = 1) (handle : ℕ) :
    s.stop.closed.count handle ≤ 1 := by
  by_cases hclosed : 0 < s.stop.closed.count handle
  · exact (hreleased handle ((hv.grows hv.grows_stop).lt_of_closed hclosed)).le
  · omega

theorem Damaged.not_released (h : Damaged s) (hv : Valid s) :
    ¬ ∀ handle < s.stop.issued, s.stop.closed.count handle = 1 := by
  intro hreleased
  cases h with
  | lost handle hlt hclosed hheld =>
    have hone := hreleased handle (by rw [issued_stop]; exact hlt)
    have hclosing := hv.grows_stop.closing handle
    omega
  | twice handle htwo =>
    have hmore := hv.grows_stop.closed handle
    have hle := hv.count_le_of_released hreleased handle
    omega
  | worker handle hclosed hworker =>
    have hle := hv.count_le_of_released hreleased handle
    rw [count_closed_stop] at hle
    omega

theorem Doomed.not_released (h : Doomed s) (hv : Valid s) :
    ¬ ∀ handle < s.stop.issued, s.stop.closed.count handle = 1 := by
  rcases h with h | ⟨socket, port, h⟩
  · exact h.not_released hv
  · intro hreleased
    have hclosed := h.closed
    have hle := hv.count_le_of_released hreleased socket
    rw [count_closed_stop, h.listen, count_some, if_pos rfl] at hle
    omega

theorem Sound.clients_of_released (hs : Sound s) (hv : Valid s)
    (hreleased : ∀ handle < s.stop.issued, s.stop.closed.count handle = 1) : s.m_connectedClientList = [] := by
  rw [List.eq_nil_iff_forall_not_mem]
  intro socket hmem
  obtain ⟨hlt, hclosed, -⟩ := hs.lost_stop hv hmem
  have hone := hreleased socket hlt
  omega

theorem stop_of_stop {s₀ s₁ : Lifecycle} {calls pre post : List Call} (hcareful : Meets step Careful s₀ calls)
    (hcalls : calls ++ [.stop] = pre ++ .stop :: .stop :: post) (hrun : run step s₀ (pre ++ [.stop]) = some s₁) :
    s₁.stop = s₁ := by
  have hprefix : (pre ++ [.stop]) <+: calls := by
    have hlonger : (pre ++ [.stop]) <+: calls ++ [.stop] := by
      rw [hcalls]
      exact ⟨.stop :: post, by simp⟩
    have hlength := congrArg List.length hcalls
    simp only [List.length_append, List.length_cons, List.length_nil] at hlength
    refine List.prefix_of_prefix_length_le hlonger (List.prefix_append _ _) ?_
    simp only [List.length_append, List.length_cons, List.length_nil]
    omega
  obtain ⟨rest, rfl⟩ := hprefix
  rw [run_append, Option.bind_eq_some_iff] at hrun
  obtain ⟨s, hs, hstop⟩ := hrun
  obtain rfl := Option.some.inj hstop
  rw [List.append_assoc] at hcareful
  exact (stopped_stop (hcareful.ok_of_run hs).1).stop

end Lifecycle
end NetDemo.Server
