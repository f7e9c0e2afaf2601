import NetDemo.Server.Lifecycle
import NetDemo.Foundation.Progress

/-! The worker threads of an `IocpServer` at its completion port, and `exitIocpWorker`, which asks each
of them to leave and waits for them. The handlers are only told apart by which of them runs, and by
whether it comes back; what they do is a part of the other models. -/

namespace NetDemo.Server
open Foundation

inductive PostType
  | ACCEPT_EVENT | RECV_EVENT | SEND_EVENT | PARSE_EVNET | CLOSE_EVENT
deriving DecidableEq

/-- The completion keys: `EXIT_THREAD`, the server itself and a client. -/
inductive Key
  | exitThread | server | client
deriving DecidableEq

/-- What `GetQueuedCompletionStatus` hands out; `m_postType` is read from the `IoContext`. -/
structure Packet where
  ret : Bool
  dwBytesTransferred : ℕ
  lpCompletionKey : Key
  m_postType : PostType
deriving DecidableEq

/-- `PostQueuedCompletionStatus(m_hComPort, 0, EXIT_THREAD, NULL)`; there is no `IoContext` to read. -/
def Packet.exitThread : Packet := ⟨true, 0, .exitThread, .ACCEPT_EVENT⟩

inductive Dispatch
  | exit | skip | handleAccept | handleRecv | handleSend | handleClose
deriving DecidableEq

/-- The body of the loop in `IocpWorkerThread`, behind the wait. -/
def Packet.dispatch (p : Packet) (m_bIsShutdown : Bool) : Dispatch :=
  if p.lpCompletionKey = .exitThread then .exit
  else if m_bIsShutdown ∧ p.lpCompletionKey = .server then .skip
  else if p.lpCompletionKey ≠ .server ∧ (p.ret = false ∨ p.dwBytesTransferred = 0) then .handleClose
  else match p.m_postType with
    | .ACCEPT_EVENT => .handleAccept
    | .RECV_EVENT => .handleRecv
    | .SEND_EVENT => .handleSend
    | .CLOSE_EVENT => .handleClose
    | .PARSE_EVNET => .skip

theorem Packet.dispatch_eq_exit (p : Packet) (m_bIsShutdown : Bool) :
    p.dispatch m_bIsShutdown = .exit ↔ p.lpCompletionKey = .exitThread := by
  unfold dispatch
  split_ifs with hkey
  · exact iff_of_true rfl hkey
  · exact iff_of_false (by decide) hkey
  · exact iff_of_false (by decide) hkey
  · refine iff_of_false ?_ hkey
    cases p.m_postType <;> decide

/-- Where a worker stands in its loop. -/
inductive IocpWorker
  /-- In front of the test of `m_hExitEvent`. -/
  | test
  /-- In `GetQueuedCompletionStatus`. -/
  | dequeue
  | handle (d : Dispatch)
  /-- In a handler that does not return: it loops for ever, or waits for a lock for ever. -/
  | hung
  | exited
deriving DecidableEq

/-- How often a worker can still go on once `m_hExitEvent` is signaled. -/
def IocpWorker.rest : IocpWorker → ℕ
  | .exited | .hung => 0
  | .test => 1
  | .handle _ => 2
  | .dequeue => 3

/-- Where the thread stands that calls `stop`. -/
inductive Stopper
  | idle | posting | waiting | returned
deriving DecidableEq

structure Pool where
  m_bIsShutdown : Bool
  /-- Whether `m_hExitEvent` is signaled. -/
  m_hExitEvent : Bool
  m_nWorkerCnt : ℕ
  m_hComPort : List Packet
  workers : List IocpWorker
  stopper : Stopper
  /-- The answers of `PostQueuedCompletionStatus` in `exitIocpWorker`. -/
  posts : List Bool

namespace Pool

def new (n : ℕ) : Pool := ⟨false, false, n, [], List.replicate n .test, .idle, []⟩

def work (s : Pool) : IocpWorker → Option (IocpWorker × List Packet)
  | .test => some (if s.m_hExitEvent then .exited else .dequeue, s.m_hComPort)
  | .dequeue => match s.m_hComPort with
    | [] => none
    | p :: rest =>
      let d := p.dispatch s.m_bIsShutdown
      some (if d = .exit then .exited else .handle d, rest)
  | .handle _ => some (.test, s.m_hComPort)
  | .hung | .exited => none

def step (s : Pool) (i : ℕ) : Option Pool :=
  (s.workers[i]?.bind s.work).map fun (w, m_hComPort) =>
    { s with m_hComPort := m_hComPort, workers := s.workers.set i w }

inductive Event
  | shutdown
  /-- A completion of the system, or a packet of the heartbeat timer. -/
  | packet (p : Packet) (hp : p.lpCompletionKey ≠ .exitThread)
  | work (i : ℕ)
  /-- The handler that the `i`th worker is in will not return. -/
  | hang (i : ℕ)
  /-- `exitIocpWorker` signals `m_hExitEvent`. -/
  | setEvent
  /-- The next round of its loop. -/
  | post (ok : Bool)
  /-- It calls `WaitForMultipleObjects`, which fails at once for no thread or for too many. -/
  | wait
  /-- The wait is over. -/
  | waited

def event (s : Pool) : Event → Option Pool
  | .shutdown => some { s with m_bIsShutdown := true }
  | .packet p _ => some { s with m_hComPort := s.m_hComPort ++ [p] }
  | .work i => s.step i
  | .hang i => match s.workers[i]? with
    | some (.handle _) => some { s with workers := s.workers.set i .hung }
    | _ => none
  | .setEvent =>
    if s.stopper = .idle then some { s with m_hExitEvent := true, stopper := .posting } else none
  | .post ok =>
    if s.stopper = .posting ∧ s.posts.length < s.m_nWorkerCnt then some { s with
      m_hComPort := s.m_hComPort ++ if ok then [.exitThread] else []
      posts := s.posts ++ [ok] }
    else none
  | .wait =>
    if s.stopper = .posting ∧ s.posts.length = s.m_nWorkerCnt then
      if 0 < s.m_nWorkerCnt ∧ s.m_nWorkerCnt ≤ MAXIMUM_WAIT_OBJECTS then some { s with stopper := .waiting }
      else some { s with stopper := .returned }
    else none
  | .waited =>
    if s.stopper = .waiting ∧ ∀ w ∈ s.workers, w = .exited then some { s with stopper := .returned }
    else none

/-! ### What every run keeps -/

def exits (m_hComPort : List Packet) : ℕ := m_hComPort.countP (·.lpCompletionKey = .exitThread)

def left (s : Pool) : ℕ := s.workers.count .exited

def rest (s : Pool) : ℕ := (s.workers.map IocpWorker.rest).sum

structure Inv (n : ℕ) (s : Pool) : Prop where
  count : s.m_nWorkerCnt = n
  length : s.workers.length = n
  signaled : s.m_hExitEvent = true ↔ s.stopper ≠ .idle
  unasked : s.stopper = .idle → s.posts = [] ∧ exits s.m_hComPort = 0 ∧ s.left = 0
  posts : s.stopper = .waiting ∨ s.stopper = .returned → s.posts.length = n
  /-- Every `EXIT_THREAD` that was posted is still queued, or a worker left for it. -/
  packets : s.posts.count true ≤ exits s.m_hComPort + s.left

theorem left_eq_iff (s : Pool) : s.left = s.workers.length ↔ ∀ w ∈ s.workers, w = .exited := by
  rw [left, List.count_eq_length]
  exact forall₂_congr fun _ _ => eq_comm

theorem new_inv (n : ℕ) : Inv n (new n) where
  count := rfl
  length := List.length_replicate
  signaled := by simp [new]
  unasked _ := ⟨rfl, rfl, by simp [left, new, List.count_replicate]⟩
  posts h := by simp [new] at h
  packets := Nat.zero_le _

theorem step_cases {s s' : Pool} {i : ℕ} (h : s.step i = some s') : ∃ pre w w' post m_hComPort,
    s.workers = pre ++ w :: post ∧
    s' = { s with m_hComPort := m_hComPort, workers := pre ++ w' :: post } ∧
    (w = .test ∧ s.m_hExitEvent = true ∧ w' = .exited ∧ m_hComPort = s.m_hComPort ∨
     w = .test ∧ s.m_hExitEvent = false ∧ w' = .dequeue ∧ m_hComPort = s.m_hComPort ∨
     (∃ p, w = .dequeue ∧ s.m_hComPort = p :: m_hComPort ∧ p.lpCompletionKey = .exitThread ∧ w' = .exited) ∨
     (∃ p, w = .dequeue ∧ s.m_hComPort = p :: m_hComPort ∧ p.lpCompletionKey ≠ .exitThread ∧
        w' = .handle (p.dispatch s.m_bIsShutdown)) ∨
     ∃ d, w = .handle d ∧ w' = .test ∧ m_hComPort = s.m_hComPort) := by
  simp only [step, Option.map_eq_some_iff, Option.bind_eq_some_iff] at h
  obtain ⟨⟨w', m_hComPort⟩, ⟨w, hw, hwork⟩, rfl⟩ := h
  obtain ⟨pre, post, hworkers, hset⟩ := set_split hw
  refine ⟨pre, w, w', post, m_hComPort, hworkers, by rw [hset], ?_⟩
  cases w with
  | test =>
    simp only [work, Option.some.injEq, Prod.mk.injEq] at hwork
    obtain ⟨rfl, rfl⟩ := hwork
    cases he : s.m_hExitEvent <;> simp
  | dequeue =>
    cases hp : s.m_hComPort with
    | nil => simp [work, hp] at hwork
    | cons p rest =>
      simp only [work, hp, p.dispatch_eq_exit, Option.some.injEq, Prod.mk.injEq] at hwork
      obtain ⟨rfl, rfl⟩ := hwork
      by_cases hkey : p.lpCompletionKey = .exitThread
      · exact .inr (.inr (.inl ⟨p, rfl, rfl, hkey, if_pos hkey⟩))
      · exact .inr (.inr (.inr (.inl ⟨p, rfl, rfl, hkey, if_neg hkey⟩)))
  | handle d =>
    simp only [work, Option.some.injEq, Prod.mk.injEq] at hwork
    obtain ⟨rfl, rfl⟩ := hwork
    exact .inr (.inr (.inr (.inr ⟨d, rfl, rfl, rfl⟩)))
  | hung | exited => cases hwork

theorem step_count {s s' : Pool} {i : ℕ} (h : s.step i = some s') :
    s'.workers.length = s.workers.length ∧ s.left ≤ s'.left ∧
      exits s.m_hComPort + s.left ≤ exits s'.m_hComPort + s'.left ∧
      (s.m_hExitEvent = false → exits s.m_hComPort = 0 →
        exits s'.m_hComPort = 0 ∧ s'.left = s.left) := by
  obtain ⟨pre, w, w', post, m_hComPort, hworkers, rfl, hcase⟩ := step_cases h
  simp only [left, hworkers, List.count_append, List.count_cons, List.length_append, List.length_cons]
  rcases hcase with ⟨rfl, he, rfl, rfl⟩ | ⟨rfl, -, rfl, rfl⟩ | ⟨p, rfl, hport, hkey, rfl⟩ |
    ⟨p, rfl, hport, hkey, rfl⟩ | ⟨d, rfl, rfl, rfl⟩
  · simp [he]
  · simp
  · simp [exits, hport, hkey]
    omega
  · simp [exits, hport, hkey]
  · simp

theorem Inv.step {n i : ℕ} {s s' : Pool} (h : Inv n s) (hs : s.step i = some s') : Inv n s' := by
  obtain ⟨hlength, hleft, hpackets, hunasked⟩ := step_count hs
  obtain ⟨pre, w, w', post, m_hComPort, -, rfl, -⟩ := step_cases hs
  refine ⟨h.count, hlength.trans h.length, h.signaled, fun hidle => ?_, h.posts, h.packets.trans hpackets⟩
  obtain ⟨hposts, hexits, hnone⟩ := h.unasked hidle
  have hsignal : s.m_hExitEvent = false := by
    rw [← Bool.not_eq_true, h.signaled, not_not]
    exact hidle
  obtain ⟨hexits', hleft'⟩ := hunasked hsignal hexits
  exact ⟨hposts, hexits', hleft'.trans hnone⟩

theorem hang_cases {s s' : Pool} {i : ℕ} (h : s.event (.hang i) = some s') : ∃ pre d post,
    s.workers = pre ++ .handle d :: post ∧ s' = { s with workers := pre ++ .hung :: post } := by
  simp only [Pool.event] at h
  split at h
  · rename_i d hw
    obtain ⟨pre, post, hworkers, hset⟩ := set_split hw
    obtain rfl := Option.some.inj h
    exact ⟨pre, d, post, hworkers, by rw [hset]⟩
  · cases h

theorem Inv.event {n : ℕ} {s s' : Pool} {e : Event} (h : Inv n s) (hs : s.event e = some s') :
    Inv n s' := by
  cases e with
  | shutdown =>
    obtain rfl := Option.some.inj hs
    exact { h with }
  | packet p hp =>
    obtain rfl := Option.some.inj hs
    have hexits : exits (s.m_hComPort ++ [p]) = exits s.m_hComPort := by simp [exits, hp]
    refine { h with unasked := fun hidle => ?_, packets := ?_ }
    · obtain ⟨hposts, hnone, hleft⟩ := h.unasked hidle
      exact ⟨hposts, hexits.trans hnone, hleft⟩
    · rw [hexits]
      exact h.packets
  | work i => exact h.step hs
  | hang i =>
    -- The worker keeps the packet that it took, and this one asks for no exit.
    obtain ⟨pre, d, post, hworkers, rfl⟩ := hang_cases hs
    have hleft : ({ s with workers := pre ++ .hung :: post } : Pool).left = s.left := by
      simp [left, hworkers]
    have hlength := h.length
    have hpackets := h.packets
    rw [hworkers] at hlength
    refine { h with length := ?_, unasked := fun hidle => ?_, packets := ?_ }
    · simpa using hlength
    · rw [hleft]
      exact h.unasked hidle
    · rw [hleft]
      exact hpackets
  | setEvent =>
    obtain ⟨hidle, hs⟩ := Option.ite_none_right_eq_some.mp hs
    obtain rfl := Option.some.inj hs
    obtain ⟨hposts, -⟩ := h.unasked hidle
    exact { h with
      signaled := by simp
      unasked := nofun
      posts := by simp
      packets := by simp only [hposts]; exact Nat.zero_le _ }
  | post ok =>
    obtain ⟨⟨hposting, -⟩, hs⟩ := Option.ite_none_right_eq_some.mp hs
    obtain rfl := Option.some.inj hs
    have hpackets := h.packets
    refine { h with unasked := fun hidle => ?_, posts := fun hdone => ?_, packets := ?_ }
    · rw [hposting] at hidle
      cases hidle
    · simp [hposting] at hdone
    · cases ok <;> simp [exits, left, Packet.exitThread] at hpackets ⊢ <;> omega
  | wait =>
    obtain ⟨⟨hposting, hposted⟩, hs⟩ := Option.ite_none_right_eq_some.mp hs
    have hsignaled : s.m_hExitEvent = true := h.signaled.mpr (by rw [hposting]; decide)
    have hlen : s.posts.length = n := hposted.trans h.count
    split_ifs at hs with hn
    · obtain rfl := Option.some.inj hs
      exact { h with signaled := by simp [hsignaled], unasked := nofun, posts := fun _ => hlen }
    · obtain rfl := Option.some.inj hs
      exact { h with signaled := by simp [hsignaled], unasked := nofun, posts := fun _ => hlen }
  | waited =>
    obtain ⟨⟨hwaiting, -⟩, hs⟩ := Option.ite_none_right_eq_some.mp hs
    obtain rfl := Option.some.inj hs
    have hsignaled : s.m_hExitEvent = true := h.signaled.mpr (by rw [hwaiting]; decide)
    exact { h with
      signaled := by simp [hsignaled], unasked := nofun, posts := fun _ => h.posts (.inl hwaiting) }

theorem Inv.of_run {n : ℕ} {s : Pool} {es : List Event} (hrun : run Pool.event (new n) es = some s) :
    Inv n s :=
  run_preserves (Inv n) (new_inv n) (fun _ _ _ h hs => h.event hs) hrun

/-! ### The end of the workers -/

/-- Once `m_hExitEvent` is signaled, no worker comes round its loop again. -/
theorem decreases (n : ℕ) :
    Decreases Pool.step (fun s => Inv n s ∧ s.m_hExitEvent = true) rest where
  keeps s i s' h hs := by
    refine ⟨h.1.step hs, ?_⟩
    obtain ⟨pre, w, w', post, m_hComPort, -, rfl, -⟩ := step_cases hs
    exact h.2
  lt s i s' h hs := by
    obtain ⟨pre, w, w', post, m_hComPort, hworkers, rfl, hcase⟩ := step_cases hs
    have hlt : w'.rest < w.rest := by
      rcases hcase with ⟨rfl, -, rfl, -⟩ | ⟨-, he, -⟩ | ⟨p, rfl, -, -, rfl⟩ | ⟨p, rfl, -, -, rfl⟩ |
        ⟨d, rfl, rfl, -⟩
      · decide
      · rw [h.2] at he
        cases he
      · decide
      · exact Nat.lt_succ_self 2
      · exact Nat.lt_succ_self 1
    simp only [rest, hworkers, List.map_append, List.map_cons, List.sum_append, List.sum_cons]
    omega

theorem rest_le (s : Pool) : s.rest ≤ 3 * s.workers.length := by
  unfold rest
  induction s.workers with
  | nil => exact le_rfl
  | cons w l ih =>
    have hw : w.rest ≤ 3 := by cases w <;> simp [IocpWorker.rest]
    simp only [List.map_cons, List.sum_cons, List.length_cons]
    omega

/-- A worker that cannot go on has left, or its handler does not return, or it waits at the empty port. -/
theorem stuck_iff {s : Pool} : Stuck Pool.step s ↔
    ∀ w ∈ s.workers, w = .exited ∨ w = .hung ∨ w = .dequeue ∧ s.m_hComPort = [] := by
  constructor
  · intro h w hw
    obtain ⟨i, hi⟩ := List.mem_iff_getElem?.mp hw
    have hnone := h i
    rw [step, hi, Option.bind_some, Option.map_eq_none_iff] at hnone
    cases w with
    | exited => exact .inl rfl
    | hung => exact .inr (.inl rfl)
    | dequeue =>
      refine .inr (.inr ⟨rfl, ?_⟩)
      cases hp : s.m_hComPort with
      | nil => rfl
      | cons p rest => simp [work, hp] at hnone
    | _ => cases hnone
  · refine fun h => .of_forall_some fun i s' hs => ?_
    obtain ⟨pre, w, w', post, m_hComPort, hworkers, -, hcase⟩ := step_cases hs
    rcases h w (by rw [hworkers]; simp) with rfl | rfl | ⟨rfl, hport⟩
    · simp at hcase
    · simp at hcase
    · simp [hport] at hcase

theorem count_eq_of_forall {oks : List Bool} (h : ∀ ok ∈ oks, ok = true) : oks.count true = oks.length :=
  List.count_eq_length.mpr fun ok hok => (h ok hok).symm

/-- With a packet for each of them no worker is left behind, as long as all handlers return. -/
theorem Inv.exited_of_stuck {n : ℕ} {s : Pool} (h : Inv n s) (hwaiting : s.stopper = .waiting)
    (hposts : ∀ ok ∈ s.posts, ok = true) (hback : .hung ∉ s.workers) (hstuck : Stuck Pool.step s) :
    ∀ w ∈ s.workers, w = .exited := by
  rw [stuck_iff] at hstuck
  by_contra hno
  push Not at hno
  obtain ⟨w, hw, hleft⟩ := hno
  have hport : s.m_hComPort = [] := by
    rcases hstuck w hw with hw' | rfl | ⟨-, hport⟩
    · exact absurd hw' hleft
    · exact absurd hw hback
    · exact hport
  have hpackets := h.packets
  have hle := List.count_le_length (a := IocpWorker.exited) (l := s.workers)
  rw [count_eq_of_forall hposts, h.posts (.inl hwaiting), hport] at hpackets
  simp only [exits, List.countP_nil, Nat.zero_add] at hpackets
  have hall : s.left = s.workers.length := Nat.le_antisymm hle (h.length.symm ▸ hpackets)
  exact hleft ((left_eq_iff s).mp hall w hw)

theorem step_hung {s s' : Pool} {i : ℕ} (hs : s.step i = some s') : .hung ∈ s'.workers ↔ .hung ∈ s.workers := by
  obtain ⟨pre, w, w', post, m_hComPort, hworkers, rfl, hcase⟩ := step_cases hs
  have hold : w ≠ .hung := by
    rintro rfl
    simp at hcase
  have hnew : w' ≠ .hung := by
    rintro rfl
    simp at hcase
  simp [hworkers, hold.symm, hnew.symm]

theorem run_hung {s s' : Pool} {is : List ℕ} (hrun : run Pool.step s is = some s') :
    .hung ∈ s'.workers ↔ .hung ∈ s.workers :=
  run_preserves (fun t : Pool => .hung ∈ t.workers ↔ .hung ∈ s.workers) Iff.rfl
    (fun _ _ _ ht hs => (step_hung hs).trans ht) hrun

theorem run_stopper {s s' : Pool} {is : List ℕ} (hrun : run Pool.step s is = some s') :
    s'.stopper = s.stopper ∧ s'.posts = s.posts := by
  refine run_preserves (fun t : Pool => t.stopper = s.stopper ∧ t.posts = s.posts) ⟨rfl, rfl⟩ ?_ hrun
  intro t i t' ht hs
  obtain ⟨pre, w, w', post, m_hComPort, -, rfl, -⟩ := step_cases hs
  exact ht

theorem run_work (s : Pool) (is : List ℕ) : run Pool.event s (is.map .work) = run Pool.step s is := by
  induction is generalizing s with
  | nil => rfl
  | cons i is ih => exact Option.bind_congr fun s' _ => ih s'

/-- When every post succeeded, the workers come to a stop after at most three more rounds of each, in
whatever order they go on, and the wait in `exitIocpWorker` can end just when every handler returns. -/
theorem exit_wait_ends {n : ℕ} {es : List Event} {s : Pool} (hrun : run Pool.event (new n) es = some s)
    (hwaiting : s.stopper = .waiting) (hposts : ∀ ok ∈ s.posts, ok = true) {is : List ℕ} {s₁ : Pool}
    (hwork : run Pool.step s is = some s₁) :
    is.length ≤ 3 * n ∧
      ((∃ js s₂, run Pool.step s₁ js = some s₂ ∧ (s₂.event .waited).isSome) ↔ .hung ∉ s.workers) := by
  have hinv := Inv.of_run hrun
  have hsignaled : s.m_hExitEvent = true := hinv.signaled.mpr (by rw [hwaiting]; decide)
  have hd := decreases n
  have h₁ := hd.run_keeps ⟨hinv, hsignaled⟩ hwork
  obtain ⟨hstopper, hposts₁⟩ := run_stopper hwork
  refine ⟨?_, ?_, fun hback => ?_⟩
  · have hlen := hd.length_le ⟨hinv, hsignaled⟩ hwork
    have hrest := rest_le s
    rw [hinv.length] at hrest
    omega
  · rintro ⟨js, s₂, hrun₂, hover⟩ hhung
    have hhung₂ := (run_hung hrun₂).mpr ((run_hung hwork).mpr hhung)
    rw [Pool.event] at hover
    split_ifs at hover with hall
    · cases hall.2 _ hhung₂
    · cases hover
  · obtain ⟨js, s₂, hrun₂, hstuck⟩ := hd.exists_stuck h₁
    have h₂ := hd.run_keeps h₁ hrun₂
    obtain ⟨hstopper₂, hposts₂⟩ := run_stopper hrun₂
    have hwaiting₂ : s₂.stopper = .waiting := by rw [hstopper₂, hstopper, hwaiting]
    have hback₂ : .hung ∉ s₂.workers := by rwa [run_hung hrun₂, run_hung hwork]
    have hall := h₂.1.exited_of_stuck hwaiting₂ (by rwa [hposts₂, hposts₁]) hback₂ hstuck
    refine ⟨js, s₂, hrun₂, ?_⟩
    rw [Pool.event, if_pos ⟨hwaiting₂, hall⟩]
    rfl

/-- Two workers, one of them at the port and one in a handler when `stop` is called. -/
def busy : List Event :=
  [.work 0, .work 1, .packet ⟨true, 1, .client, .RECV_EVENT⟩ (by decide), .work 1, .setEvent, .post true,
    .post true, .wait]

theorem exit_wait_ends_busy : ∃ s, run Pool.event (new 2) busy = some s ∧
    s.workers = [.dequeue, .handle .handleRecv] ∧
    ∃ js s₂, run Pool.step s js = some s₂ ∧ (s₂.event .waited).isSome := by
  have hend : (run Pool.event (new 2) busy).any (fun s => decide (s.stopper = .waiting ∧
      (∀ ok ∈ s.posts, ok = true) ∧ s.workers = [.dequeue, .handle .handleRecv])) = true := by decide
  obtain ⟨s, hrun, hs⟩ := exists_of_any hend
  obtain ⟨hwaiting, hposts, hworkers⟩ := of_decide_eq_true hs
  refine ⟨s, hrun, hworkers, (exit_wait_ends hrun hwaiting hposts (run_nil Pool.step s)).2.mpr ?_⟩
  rw [hworkers]
  decide

/-! ### Posts that fail -/

theorem run_dequeue (n : ℕ) : run Pool.event (new n) ((List.range n).map .work) =
    some { new n with workers := List.replicate n .dequeue } := by
  have hgo : ∀ m k, run Pool.event
      { new n with workers := List.replicate k .dequeue ++ List.replicate m .test }
      ((List.range' k m).map .work) = some { new n with workers := List.replicate (k + m) .dequeue } := by
    intro m
    induction m with
    | zero => simp
    | succ m ih =>
      intro k
      have hstep : Pool.event { new n with
            workers := List.replicate k .dequeue ++ List.replicate (m + 1) .test } (.work k) =
          some { new n with workers := List.replicate (k + 1) .dequeue ++ List.replicate m .test } := by
        have hnext : List.replicate (k + 1) IocpWorker.dequeue = List.replicate k .dequeue ++ [.dequeue] :=
          List.replicate_succ'
        simp [Pool.event, Pool.step, new, work, hnext, List.replicate_succ (a := IocpWorker.test)]
      rw [List.range'_succ, List.map_cons, run_cons, hstep, Option.bind_some, ih, Nat.add_right_comm,
        Nat.add_assoc]
  have h := hgo n 0
  rw [← List.range_eq_range', Nat.zero_add] at h
  exact h

theorem run_post (s : Pool) (hs : s.stopper = .posting) (oks : List Bool)
    (hlen : s.posts.length + oks.length ≤ s.m_nWorkerCnt) :
    run Pool.event s (oks.map .post) = some { s with
      m_hComPort := s.m_hComPort ++ List.replicate (oks.count true) .exitThread
      posts := s.posts ++ oks } := by
  induction oks generalizing s with
  | nil => simp
  | cons ok oks ih =>
    rw [List.length_cons] at hlen
    have hpost : s.event (.post ok) = some { s with
        m_hComPort := s.m_hComPort ++ if ok then [.exitThread] else []
        posts := s.posts ++ [ok] } := by
      rw [Pool.event, if_pos ⟨hs, by omega⟩]
    rw [List.map_cons, run_cons, hpost, Option.bind_some, ih]
    · cases ok <;> simp [List.replicate_succ]
    · exact hs
    · simp only [List.length_append, List.length_singleton]
      omega

/-- The workers sleep at the port, or left it for one of `k` packets. -/
structure Asleep (k : ℕ) (s : Pool) : Prop where
  workers : ∀ w ∈ s.workers, w = .dequeue ∨ w = .exited
  port : ∀ p ∈ s.m_hComPort, p.lpCompletionKey = .exitThread
  packets : s.m_hComPort.length + s.left = k

theorem Asleep.step {k i : ℕ} {s s' : Pool} (h : Asleep k s) (hs : s.step i = some s') : Asleep k s' := by
  obtain ⟨pre, w, w', post, m_hComPort, hworkers, rfl, hcase⟩ := step_cases hs
  have hw := h.workers w (by rw [hworkers]; simp)
  have hpackets := h.packets
  rcases hcase with ⟨rfl, -⟩ | ⟨rfl, -⟩ | ⟨p, rfl, hport, hkey, rfl⟩ | ⟨p, rfl, hport, hkey, rfl⟩ |
    ⟨d, rfl, -⟩
  · simp at hw
  · simp at hw
  · refine ⟨fun v hv => ?_, fun q hq => h.port q (by rw [hport]; exact .tail _ hq), ?_⟩
    · simp only [List.mem_append, List.mem_cons] at hv
      rcases hv with hv | rfl | hv
      · exact h.workers v (by rw [hworkers]; simp [hv])
      · exact .inr rfl
      · exact h.workers v (by rw [hworkers]; simp [hv])
    · simp only [left, hworkers, hport, List.count_append, List.count_cons, List.length_cons] at hpackets ⊢
      simp at hpackets ⊢
      omega
  · exact absurd (h.port p (by rw [hport]; exact .head _)) hkey
  · simp at hw

/-- A post that failed can leave a worker at the port for good. -/
theorem exists_asleep {oks : List Bool} (hn : 0 < oks.length) (hmax : oks.length ≤ MAXIMUM_WAIT_OBJECTS)
    (hno : false ∈ oks) : ∃ es s, run Pool.event (new oks.length) es = some s ∧ s.posts = oks ∧
      s.stopper = .waiting ∧ .hung ∉ s.workers ∧ Stuck Pool.step s ∧ ∃ w ∈ s.workers, w ≠ .exited := by
  -- All workers are asleep when `stop` is called.
  let s₁ : Pool := { new oks.length with
    m_hExitEvent := true
    stopper := .posting
    workers := List.replicate oks.length .dequeue }
  have hposts := run_post s₁ rfl oks (by simp [s₁, new])
  let s₂ : Pool := { s₁ with
    m_hComPort := List.replicate (oks.count true) .exitThread
    posts := oks
    stopper := .waiting }
  have hrun : run Pool.event (new oks.length)
      ((List.range oks.length).map .work ++ .setEvent :: (oks.map .post ++ [.wait])) = some s₂ := by
    rw [run_append_of_eq (run_dequeue _), run_cons]
    have hset : Pool.event { new oks.length with workers := List.replicate oks.length .dequeue } .setEvent =
      some s₁ := rfl
    have hwait : Pool.event { s₁ with
        m_hComPort := s₁.m_hComPort ++ List.replicate (oks.count true) .exitThread
        posts := s₁.posts ++ oks } .wait = some s₂ := by
      simp [Pool.event, s₁, s₂, new, hn, hmax]
    rw [hset, Option.bind_some, run_append_of_eq hposts, run_cons, hwait]
    rfl
  have hinv := Inv.of_run hrun
  obtain ⟨js, s₃, hwork, hstuck⟩ := (decreases oks.length).exists_stuck ⟨hinv, rfl⟩
  obtain ⟨hstopper, hposts₃⟩ := run_stopper hwork
  have hasleep : Asleep (oks.count true) s₂ := by
    refine ⟨fun w hw => .inl (List.eq_of_mem_replicate hw), fun p hp => ?_, ?_⟩
    · rw [List.eq_of_mem_replicate hp]
      rfl
    · simp [s₂, s₁, left, List.count_replicate]
  have hasleep₃ := run_preserves (Asleep (oks.count true)) hasleep (fun _ _ _ h hs => h.step hs) hwork
  have hrun₃ := run_append_of_eq hrun (js.map .work)
  rw [run_work, hwork] at hrun₃
  have hback : .hung ∉ s₃.workers := fun hhung => by
    rcases hasleep₃.workers _ hhung with h | h <;> cases h
  refine ⟨_, s₃, hrun₃, hposts₃, hstopper, hback, hstuck, ?_⟩
  by_contra hall
  push Not at hall
  -- There are fewer packets than workers.
  have hpackets := hasleep₃.packets
  have hlen := ((decreases oks.length).run_keeps ⟨hinv, rfl⟩ hwork).1.length
  rw [(left_eq_iff s₃).mpr hall, hlen] at hpackets
  have hall' : oks.count true = oks.length := Nat.le_antisymm List.count_le_length (by omega)
  exact absurd (List.count_eq_length.mp hall' false hno) (by decide)

/-- Every run in which all handlers return ends with the workers gone just when no post fails. -/
theorem all_exit_iff {oks : List Bool} (hn : 0 < oks.length) (hmax : oks.length ≤ MAXIMUM_WAIT_OBJECTS) :
    (∀ es s, run Pool.event (new oks.length) es = some s → s.posts = oks → s.stopper = .waiting →
      .hung ∉ s.workers → Stuck Pool.step s → ∀ w ∈ s.workers, w = .exited) ↔ ∀ ok ∈ oks, ok = true := by
  constructor
  · intro h ok hok
    by_contra hfalse
    rw [Bool.not_eq_true] at hfalse
    obtain ⟨es, s, hrun, hposts, hwaiting, hback, hstuck, w, hw, hleft⟩ :=
      exists_asleep hn hmax (hfalse ▸ hok)
    exact hleft (h es s hrun hposts hwaiting hback hstuck w hw)
  · intro h es s hrun hposts hwaiting hback hstuck
    exact (Inv.of_run hrun).exited_of_stuck hwaiting (hposts ▸ h) hback hstuck

/-- With two workers and one packet, one of them may stay. -/
theorem not_all_exit : ¬ ∀ es s, run Pool.event (new 2) es = some s → s.posts = [true, false] →
    s.stopper = .waiting → .hung ∉ s.workers → Stuck Pool.step s → ∀ w ∈ s.workers, w = .exited := by
  intro h
  exact absurd ((@all_exit_iff [true, false] (by decide) (by decide)).mp h) (by decide)

end Pool
end NetDemo.Server
