import NetDemo.Foundation.Transition
import Mathlib.Data.List.Nodup
import Mathlib.Data.List.Perm.Basic

/-! The worker threads of the two IOCP echo servers, and what they free. Every PER_HANDLE_DATA and every
PER_IO_DATA that `malloc` gives has a number of its own. -/

namespace NetDemo.Echo
open Foundation

inductive Demo
  | IOCPEchoServ
  | IOCPDemo
  deriving DecidableEq

inductive Mode
  | READ
  | WRITE
  deriving DecidableEq

/-- An operation on the socket of `handleInfo`, with what its PER_IO_DATA says while nobody else has it. -/
structure Packet where
  handleInfo : ℕ
  ioInfo : ℕ
  rwMode : Mode
  deriving DecidableEq

/-- What a thread does next for the packet that it took. -/
inductive Stage
  /-- `sock = handleInfo->hClntSock` -/
  | dequeued
  /-- `inet_ntoa(handleInfo->m_addr.sin_addr)` -/
  | addressed
  /-- `free(handleInfo)` -/
  | closing
  /-- `free(ioInfo)` -/
  | freeing
  /-- `WSASend` -/
  | sending
  /-- `malloc` and `WSARecv` -/
  | receiving
  deriving DecidableEq

structure Worker where
  packet : Packet
  bytesTrans : ℕ
  stage : Stage
  deriving DecidableEq

structure State where
  /-- The threads that wait in `GetQueuedCompletionStatus`. -/
  idle : ℕ
  /-- `main` is in its loop. -/
  listening : Bool
  handles : ℕ
  ios : ℕ
  /-- The operations in flight and the packets in the queue of the completion port. -/
  outstanding : List Packet
  workers : List Worker
  /-- One entry for every call of `free`. -/
  freedHandles : List ℕ
  freedIos : List ℕ
  /-- The PER_HANDLE_DATA that were read after they were freed. -/
  late : List ℕ

inductive Event
  /-- `ok` tells whether the first `WSARecv` of the client succeeds. -/
  | accept (ok : Bool)
  /-- `GetQueuedCompletionStatus` gives any packet to any thread. -/
  | dequeue (packet : Packet) (bytesTrans : ℕ)
  /-- A thread goes on; `ok` is for its call of `WSASend` or `WSARecv`. -/
  | proceed (w : Worker) (ok : Bool)

/-- `EchoThreadMain` once it has read all it reads of `handleInfo`. -/
def Worker.branch (w : Worker) : Worker :=
  { w with stage := if w.bytesTrans = 0 then .closing else .sending }

/-- `EchoThreadMain` once it has `sock`. -/
def Worker.sort (d : Demo) (w : Worker) : Worker :=
  if w.packet.rwMode = .WRITE then { w with stage := .freeing }
  else if d = .IOCPDemo then { w with stage := .addressed }
  else w.branch

def Worker.Unread (w : Worker) : Prop := w.stage = .dequeued ∨ w.stage = .addressed

instance (w : Worker) : Decidable w.Unread := inferInstanceAs (Decidable (_ ∨ _))

namespace State

def start (threads : ℕ) : State := ⟨threads, true, 0, 0, [], [], [], [], []⟩

/-- What a read of `handleInfo` leaves behind. -/
def use (s : State) (handleInfo : ℕ) : State :=
  { s with late := if handleInfo ∈ s.freedHandles then handleInfo :: s.late else s.late }

/-- One step of `EchoThreadMain`. A call that fails ends the thread in IOCPDemo only. -/
def proceed (d : Demo) (s : State) (w : Worker) (ok : Bool) : State :=
  match w.stage with
  | .dequeued => { s.use w.packet.handleInfo with workers := w.sort d :: s.workers }
  | .addressed => { s.use w.packet.handleInfo with workers := w.branch :: s.workers }
  | .closing => { s with
      -- Other packets may still hold the pointer.
      freedHandles := w.packet.handleInfo :: s.freedHandles
      workers := { w with stage := .freeing } :: s.workers }
  | .freeing => { s with
      freedIos := w.packet.ioInfo :: s.freedIos
      idle := s.idle + 1 }
  | .sending => { s with
      outstanding := if ok then { w.packet with rwMode := .WRITE } :: s.outstanding else s.outstanding
      workers := if ok ∨ d = .IOCPEchoServ then { w with stage := .receiving } :: s.workers else s.workers }
  | .receiving => { s with
      ios := s.ios + 1
      outstanding := if ok then ⟨w.packet.handleInfo, s.ios, .READ⟩ :: s.outstanding else s.outstanding
      idle := if ok ∨ d = .IOCPEchoServ then s.idle + 1 else s.idle }

def step (d : Demo) (s : State) : Event → Option State
  | .accept ok =>
    if s.listening then some { s with
      handles := s.handles + 1
      ios := s.ios + 1
      outstanding := if ok then ⟨s.handles, s.ios, .READ⟩ :: s.outstanding else s.outstanding
      -- IOCPDemo ends when the first `WSARecv` fails.
      listening := ok ∨ d = .IOCPEchoServ }
    else none
  | .dequeue packet bytesTrans =>
    if packet ∈ s.outstanding ∧ s.idle ≠ 0 then some { s with
      outstanding := s.outstanding.erase packet
      workers := ⟨packet, bytesTrans, .dequeued⟩ :: s.workers
      idle := s.idle - 1 }
    else none
  | .proceed w ok =>
    if w ∈ s.workers then some ({ s with workers := s.workers.erase w }.proceed d w ok) else none

/-- No packet was processed after its PER_HANDLE_DATA was freed, and nothing was freed twice. -/
def Outlives (s : State) : Prop := s.late = [] ∧ s.freedHandles.Nodup ∧ s.freedIos.Nodup

/-- Nothing else of the connection is under way at `free(handleInfo)`. -/
def Last (s : State) : Event → Prop
  | .proceed w _ => w.stage = .closing → (∀ p ∈ s.outstanding, p.handleInfo ≠ w.packet.handleInfo) ∧
      ∀ x ∈ s.workers, x.Unread → x.packet.handleInfo ≠ w.packet.handleInfo
  | _ => True

instance (s : State) (e : Event) : Decidable (s.Last e) := by
  cases e <;> unfold Last <;> infer_instance

end State

/-! ### What is freed -/

/-- The connection that the packet has the one READ of. -/
def Packet.reads (p : Packet) : List ℕ := if p.rwMode = .READ then [p.handleInfo] else []

def Worker.reads (w : Worker) : List ℕ :=
  match w.stage with
  | .dequeued => w.packet.reads
  | .freeing => []
  | _ => [w.packet.handleInfo]

def Worker.holds (w : Worker) : List ℕ :=
  match w.stage with
  | .receiving => []
  | _ => [w.packet.ioInfo]

theorem count_flatMap_of_mem {α : Type} [DecidableEq α] {l : List α} {a : α} (h : a ∈ l) (f : α → List ℕ)
    (x : ℕ) : (l.flatMap f).count x = (f a).count x + ((l.erase a).flatMap f).count x := by
  have hperm := (List.perm_cons_erase h).flatMap fun b _ => List.Perm.refl (f b)
  rw [hperm.count_eq, List.flatMap_cons, List.count_append]

theorem count_flatMap_ite_le {α : Type} (c : Prop) [Decidable c] (a : α) (l : List α) (f : α → List ℕ)
    (x : ℕ) : ((if c then a :: l else l).flatMap f).count x ≤ (f a).count x + (l.flatMap f).count x := by
  have hcons : ((a :: l).flatMap f).count x = (f a).count x + (l.flatMap f).count x := by
    rw [List.flatMap_cons, List.count_append]
  split_ifs
  · exact Nat.le_of_eq hcons
  · exact Nat.le_add_left _ _

theorem count_bound (n x : ℕ) : [n].count x + (if x < n then 1 else 0) = if x < n + 1 then 1 else 0 := by
  rw [List.count_singleton]
  simp only [beq_iff_eq]
  split_ifs <;> omega

namespace State

/-- A connection has one READ, or it is freed; a PER_IO_DATA is in one place, or it is freed. -/
structure Tidy (s : State) : Prop where
  handles : ∀ x, (s.outstanding.flatMap Packet.reads).count x + (s.workers.flatMap Worker.reads).count x
    + s.freedHandles.count x ≤ if x < s.handles then 1 else 0
  ios : ∀ x, (s.outstanding.flatMap fun p => [p.ioInfo]).count x + (s.workers.flatMap Worker.holds).count x
    + s.freedIos.count x ≤ if x < s.ios then 1 else 0

theorem Tidy.start (threads : ℕ) : (start threads).Tidy where
  handles _ := Nat.zero_le _
  ios _ := Nat.zero_le _

theorem reads_branch (w : Worker) : w.branch.reads = [w.packet.handleInfo] := by
  unfold Worker.branch Worker.reads
  split_ifs <;> rfl

theorem holds_branch (w : Worker) : w.branch.holds = [w.packet.ioInfo] := by
  unfold Worker.branch Worker.holds
  split_ifs <;> rfl

theorem reads_sort (d : Demo) (w : Worker) : (w.sort d).reads = w.packet.reads := by
  unfold Worker.sort Packet.reads
  cases w.packet.rwMode with
  | WRITE => rfl
  | READ =>
    rw [if_neg (by decide), if_pos rfl]
    split_ifs
    · rfl
    · exact reads_branch w

theorem holds_sort (d : Demo) (w : Worker) : (w.sort d).holds = [w.packet.ioInfo] := by
  unfold Worker.sort
  split_ifs with h
  · rfl
  · rfl
  · exact holds_branch w

theorem reads_le (p : Packet) (x : ℕ) : p.reads.count x ≤ [p.handleInfo].count x := by
  unfold Packet.reads
  split_ifs
  · exact Nat.le_refl _
  · exact Nat.zero_le _

theorem Tidy.proceed {d : Demo} {s : State} {w : Worker} (ok : Bool) (h : s.Tidy) (hw : w ∈ s.workers) :
    ({ s with workers := s.workers.erase w }.proceed d w ok).Tidy := by
  constructor
  · intro x
    have hx := h.handles x
    rw [count_flatMap_of_mem hw Worker.reads x] at hx
    cases hstage : w.stage <;> simp only [State.proceed, State.use, hstage, Worker.reads] at hx ⊢
    case dequeued =>
      rw [List.flatMap_cons, List.count_append, reads_sort]
      exact hx
    case addressed =>
      rw [List.flatMap_cons, List.count_append, reads_branch]
      exact hx
    case closing =>
      change _ + ((s.workers.erase w).flatMap Worker.reads).count x
        + ([w.packet.handleInfo] ++ s.freedHandles).count x ≤ _
      rw [List.count_append]
      omega
    case freeing =>
      rw [List.count_nil] at hx
      omega
    case sending =>
      have hout := count_flatMap_ite_le (ok = true)
        ⟨w.packet.handleInfo, w.packet.ioInfo, .WRITE⟩ s.outstanding
        Packet.reads x
      have hworkers := count_flatMap_ite_le (ok ∨ d = .IOCPEchoServ) { w with stage := .receiving }
        (s.workers.erase w) Worker.reads x
      simp only [Packet.reads, reduceCtorEq, if_false, List.count_nil] at hout
      simp only [Worker.reads] at hworkers
      omega
    case receiving =>
      have hle : (Packet.reads ⟨w.packet.handleInfo, s.ios, .READ⟩).count x ≤ [w.packet.handleInfo].count x :=
        reads_le ⟨w.packet.handleInfo, s.ios, .READ⟩ x
      have hout := count_flatMap_ite_le (ok = true) ⟨w.packet.handleInfo, s.ios, .READ⟩ s.outstanding
        Packet.reads x
      omega
  · intro x
    have hx := h.ios x
    rw [count_flatMap_of_mem hw Worker.holds x] at hx
    cases hstage : w.stage <;> simp only [State.proceed, State.use, hstage, Worker.holds] at hx ⊢
    case dequeued =>
      rw [List.flatMap_cons, List.count_append, holds_sort]
      exact hx
    case addressed =>
      rw [List.flatMap_cons, List.count_append, holds_branch]
      exact hx
    case closing =>
      rw [List.flatMap_cons, List.count_append]
      exact hx
    case freeing =>
      change _ + _ + ([w.packet.ioInfo] ++ s.freedIos).count x ≤ _
      rw [List.count_append]
      omega
    case sending =>
      have hout := count_flatMap_ite_le (ok = true)
        ⟨w.packet.handleInfo, w.packet.ioInfo, .WRITE⟩ s.outstanding
        (fun p => [p.ioInfo]) x
      dsimp only at hout
      have hworkers := count_flatMap_ite_le (ok ∨ d = .IOCPEchoServ) { w with stage := .receiving }
        (s.workers.erase w) Worker.holds x
      simp only [Worker.holds, List.count_nil] at hworkers
      omega
    case receiving =>
      have hout := count_flatMap_ite_le (ok = true) ⟨w.packet.handleInfo, s.ios, .READ⟩ s.outstanding
        (fun p => [p.ioInfo]) x
      dsimp only at hout
      rw [List.count_nil] at hx
      rw [← count_bound s.ios x]
      omega

theorem Tidy.step {d : Demo} {s s' : State} {e : Event} (h : s.Tidy) (hs : s.step d e = some s') : s'.Tidy := by
  cases e with
  | accept ok =>
    simp only [State.step, Option.ite_none_right_eq_some, Option.some.injEq] at hs
    obtain ⟨-, rfl⟩ := hs
    refine ⟨fun x => ?_, fun x => ?_⟩
    · have hx := h.handles x
      have hle : (Packet.reads ⟨s.handles, s.ios, .READ⟩).count x ≤ [s.handles].count x :=
        reads_le ⟨s.handles, s.ios, .READ⟩ x
      have hout := count_flatMap_ite_le (ok = true) ⟨s.handles, s.ios, .READ⟩ s.outstanding Packet.reads x
      rw [← count_bound s.handles x]
      dsimp only
      omega
    · have hx := h.ios x
      have hout := count_flatMap_ite_le (ok = true) ⟨s.handles, s.ios, .READ⟩ s.outstanding
        (fun p => [p.ioInfo]) x
      rw [← count_bound s.ios x]
      dsimp only at hout ⊢
      omega
  | dequeue packet bytesTrans =>
    simp only [State.step, Option.ite_none_right_eq_some, Option.some.injEq] at hs
    obtain ⟨⟨hmem, -⟩, rfl⟩ := hs
    refine ⟨fun x => ?_, fun x => ?_⟩
    · have hx := h.handles x
      rw [count_flatMap_of_mem hmem] at hx
      simp only [List.flatMap_cons, List.count_append, Worker.reads] at hx ⊢
      omega
    · have hx := h.ios x
      rw [count_flatMap_of_mem hmem] at hx
      simp only [List.flatMap_cons, List.count_append, Worker.holds] at hx ⊢
      omega
  | proceed w ok =>
    simp only [State.step, Option.ite_none_right_eq_some, Option.some.injEq] at hs
    obtain ⟨hw, rfl⟩ := hs
    exact h.proceed ok hw

theorem Tidy.nodup {s : State} (h : s.Tidy) : s.freedHandles.Nodup ∧ s.freedIos.Nodup := by
  refine ⟨List.nodup_iff_count_le_one.2 fun x => ?_, List.nodup_iff_count_le_one.2 fun x => ?_⟩
  · have hx := h.handles x
    split_ifs at hx <;> omega
  · have hx := h.ios x
    split_ifs at hx <;> omega

theorem Tidy.run {d : Demo} {threads : ℕ} {es : List Event} {s : State}
    (hrun : run (State.step d) (.start threads) es = some s) : s.Tidy :=
  run_preserves Tidy (.start threads) (fun _ _ _ h => h.step) hrun

theorem Tidy.not_freed {s : State} (h : s.Tidy) {w : Worker} (hw : w ∈ s.workers)
    (hreads : w.reads = [w.packet.handleInfo]) : w.packet.handleInfo ∉ s.freedHandles := by
  have hx := h.handles w.packet.handleInfo
  rw [count_flatMap_of_mem hw Worker.reads, hreads, List.count_singleton_self] at hx
  refine List.count_eq_zero.1 ?_
  split_ifs at hx <;> omega

theorem Tidy.handles_not_freed {s : State} (h : s.Tidy) : s.handles ∉ s.freedHandles := by
  have hx := h.handles s.handles
  rw [if_neg (Nat.lt_irrefl _)] at hx
  exact List.count_eq_zero.1 (by omega)

/-! ### What is read -/

/-- Whatever still reads its PER_HANDLE_DATA finds it not freed. -/
structure Alive (s : State) : Prop where
  late : s.late = []
  outstanding : ∀ p ∈ s.outstanding, p.handleInfo ∉ s.freedHandles
  unread : ∀ w ∈ s.workers, w.Unread → w.packet.handleInfo ∉ s.freedHandles

theorem Alive.start (threads : ℕ) : (start threads).Alive := ⟨rfl, nofun, nofun⟩

theorem mem_ite_cons {α : Type} {c : Prop} [Decidable c] {a b : α} {l : List α}
    (h : b ∈ if c then a :: l else l) : b = a ∨ b ∈ l := by
  split_ifs at h
  · exact List.mem_cons.1 h
  · exact .inr h

theorem sort_packet (d : Demo) (w : Worker) : (w.sort d).packet = w.packet := by
  unfold Worker.sort Worker.branch
  split_ifs <;> rfl

theorem Alive.proceed {d : Demo} {s : State} {w : Worker} (ok : Bool) (h : s.Alive) (ht : s.Tidy)
    (hw : w ∈ s.workers) (hlast : s.Last (.proceed w ok)) :
    ({ s with workers := s.workers.erase w }.proceed d w ok).Alive := by
  have hrest : ∀ x ∈ s.workers.erase w, x.Unread → x.packet.handleInfo ∉ s.freedHandles :=
    fun x hx => h.unread x (List.mem_of_mem_erase hx)
  cases hstage : w.stage <;> simp only [State.proceed, State.use, hstage]
  case dequeued =>
    have hno := h.unread w hw (.inl hstage)
    rw [if_neg hno]
    refine ⟨h.late, h.outstanding, fun x hx hun => ?_⟩
    rcases List.mem_cons.1 hx with rfl | hx
    · rw [sort_packet]
      exact hno
    · exact hrest x hx hun
  case addressed =>
    have hno := h.unread w hw (.inr hstage)
    rw [if_neg hno]
    refine ⟨h.late, h.outstanding, fun x hx hun => ?_⟩
    rcases List.mem_cons.1 hx with rfl | hx
    · exact hno
    · exact hrest x hx hun
  case closing =>
    obtain ⟨hout, hworkers⟩ := hlast hstage
    refine ⟨h.late, fun p hp => ?_, fun x hx hun => ?_⟩
    · exact List.not_mem_cons_of_ne_of_not_mem (hout p hp) (h.outstanding p hp)
    · rcases List.mem_cons.1 hx with rfl | hx
      · exact hun.elim nofun nofun
      · exact List.not_mem_cons_of_ne_of_not_mem (hworkers x (List.mem_of_mem_erase hx) hun) (hrest x hx hun)
  case freeing => exact ⟨h.late, h.outstanding, hrest⟩
  case sending =>
    have hno := ht.not_freed hw (by rw [Worker.reads, hstage])
    refine ⟨h.late, fun p hp => ?_, fun x hx hun => ?_⟩
    · rcases mem_ite_cons hp with rfl | hp
      · exact hno
      · exact h.outstanding p hp
    · rcases mem_ite_cons hx with rfl | hx
      · exact hno
      · exact hrest x hx hun
  case receiving =>
    have hno := ht.not_freed hw (by rw [Worker.reads, hstage])
    refine ⟨h.late, fun p hp => ?_, hrest⟩
    rcases mem_ite_cons hp with rfl | hp
    · exact hno
    · exact h.outstanding p hp

theorem Alive.step {d : Demo} {s s' : State} {e : Event} (h : s.Alive) (ht : s.Tidy) (hlast : s.Last e)
    (hs : s.step d e = some s') : s'.Alive := by
  cases e with
  | accept ok =>
    simp only [State.step, Option.ite_none_right_eq_some, Option.some.injEq] at hs
    obtain ⟨-, rfl⟩ := hs
    refine ⟨h.late, fun p hp => ?_, h.unread⟩
    rcases mem_ite_cons hp with rfl | hp
    · exact ht.handles_not_freed
    · exact h.outstanding p hp
  | dequeue packet bytesTrans =>
    simp only [State.step, Option.ite_none_right_eq_some, Option.some.injEq] at hs
    obtain ⟨⟨hmem, -⟩, rfl⟩ := hs
    refine ⟨h.late, fun p hp => h.outstanding p (List.mem_of_mem_erase hp), fun x hx hun => ?_⟩
    rcases List.mem_cons.1 hx with rfl | hx
    · exact h.outstanding packet hmem
    · exact h.unread x hx hun
  | proceed w ok =>
    simp only [State.step, Option.ite_none_right_eq_some, Option.some.injEq] at hs
    obtain ⟨hw, rfl⟩ := hs
    exact h.proceed ok ht hw hlast

/-- Something is read late, now or once its packet is taken. -/
def Doomed (s : State) : Prop :=
  s.late ≠ [] ∨ (∃ p ∈ s.outstanding, p.handleInfo ∈ s.freedHandles) ∨
    ∃ w ∈ s.workers, w.Unread ∧ w.packet.handleInfo ∈ s.freedHandles

theorem subset_ite_cons {α : Type} (c : Prop) [Decidable c] (a : α) (l : List α) :
    l ⊆ if c then a :: l else l := by
  split_ifs
  · exact List.subset_cons_self a l
  · exact List.Subset.refl l

theorem subset_proceed (d : Demo) (s : State) (w : Worker) (ok : Bool) :
    s.late ⊆ (s.proceed d w ok).late ∧ s.outstanding ⊆ (s.proceed d w ok).outstanding ∧
      s.workers ⊆ (s.proceed d w ok).workers ∧ s.freedHandles ⊆ (s.proceed d w ok).freedHandles := by
  cases hstage : w.stage <;> simp only [State.proceed, State.use, hstage]
  case dequeued | addressed =>
    exact ⟨subset_ite_cons .., List.Subset.refl _, List.subset_cons_self .., List.Subset.refl _⟩
  case closing =>
    exact ⟨List.Subset.refl _, List.Subset.refl _, List.subset_cons_self .., List.subset_cons_self ..⟩
  case freeing =>
    exact ⟨List.Subset.refl _, List.Subset.refl _, List.Subset.refl _, List.Subset.refl _⟩
  case sending =>
    exact ⟨List.Subset.refl _, subset_ite_cons .., subset_ite_cons .., List.Subset.refl _⟩
  case receiving =>
    exact ⟨List.Subset.refl _, subset_ite_cons .., List.Subset.refl _, List.Subset.refl _⟩

theorem proceed_late {d : Demo} {s : State} {w : Worker} (ok : Bool) (hun : w.Unread)
    (hfreed : w.packet.handleInfo ∈ s.freedHandles) : (s.proceed d w ok).late ≠ [] := by
  rcases hun with hstage | hstage
  all_goals
    simp only [State.proceed, State.use, hstage, if_pos hfreed]
    exact List.cons_ne_nil _ _

theorem doomed_of_not_last {d : Demo} {s s' : State} {e : Event} (hno : ¬ s.Last e)
    (hs : s.step d e = some s') : s'.Doomed := by
  cases e with
  | accept ok => exact absurd trivial hno
  | dequeue packet bytesTrans => exact absurd trivial hno
  | proceed w ok =>
    simp only [State.step, Option.ite_none_right_eq_some, Option.some.injEq] at hs
    obtain ⟨-, rfl⟩ := hs
    simp only [Last, Classical.not_imp, not_and_or, not_forall, not_not] at hno
    obtain ⟨hstage, ⟨p, hp, hsame⟩ | ⟨x, hx, hun, hsame⟩⟩ := hno
    all_goals simp only [State.proceed, hstage]
    · exact .inr (.inl ⟨p, hp, hsame ▸ List.mem_cons_self⟩)
    · have hne : x ≠ w := fun e => by simp [e, Worker.Unread, hstage] at hun
      have hrest := (List.mem_erase_of_ne hne).2 hx
      exact .inr (.inr ⟨x, List.mem_cons_of_mem _ hrest, hun, hsame ▸ List.mem_cons_self⟩)

theorem Doomed.step {d : Demo} {s s' : State} {e : Event} (h : s.Doomed) (hs : s.step d e = some s') :
    s'.Doomed := by
  cases e with
  | accept ok =>
    simp only [State.step, Option.ite_none_right_eq_some, Option.some.injEq] at hs
    obtain ⟨-, rfl⟩ := hs
    exact h.imp_right (Or.imp_left fun ⟨p, hp, hfreed⟩ => ⟨p, subset_ite_cons _ _ _ hp, hfreed⟩)
  | dequeue packet bytesTrans =>
    simp only [State.step, Option.ite_none_right_eq_some, Option.some.injEq] at hs
    obtain ⟨-, rfl⟩ := hs
    rcases h with hlate | ⟨p, hp, hfreed⟩ | ⟨w, hw, hun, hfreed⟩
    · exact .inl hlate
    · by_cases hsame : p = packet
      · exact .inr (.inr ⟨_, List.mem_cons_self, .inl rfl, hsame ▸ hfreed⟩)
      · exact .inr (.inl ⟨p, (List.mem_erase_of_ne hsame).2 hp, hfreed⟩)
    · exact .inr (.inr ⟨w, List.mem_cons_of_mem _ hw, hun, hfreed⟩)
  | proceed w ok =>
    simp only [State.step, Option.ite_none_right_eq_some, Option.some.injEq] at hs
    obtain ⟨-, rfl⟩ := hs
    obtain ⟨hlate', hout', hworkers', hfreed'⟩ :=
      subset_proceed d { s with workers := s.workers.erase w } w ok
    rcases h with hlate | ⟨p, hp, hfreed⟩ | ⟨x, hx, hun, hfreed⟩
    · exact .inl fun hnil => hlate (List.subset_nil.1 (hnil ▸ hlate'))
    · exact .inr (.inl ⟨p, hout' hp, hfreed' hfreed⟩)
    · by_cases hsame : x = w
      · subst hsame
        exact .inl (proceed_late ok hun hfreed)
      · exact .inr (.inr ⟨x, hworkers' ((List.mem_erase_of_ne hsame).2 hx), hun, hfreed' hfreed⟩)

/-- When nothing else of a connection is under way at its `free(handleInfo)`, no packet is processed too
late. Of the runs that leave nothing under way only these end so. -/
theorem outlives_iff_last {d : Demo} {threads : ℕ} {es : List Event} {s : State}
    (hrun : run (step d) (start threads) es = some s) :
    (Meets (step d) Last (start threads) es → s.Outlives) ∧
    (s.outstanding = [] → s.workers = [] → (s.Outlives ↔ Meets (step d) Last (start threads) es)) := by
  have hgood (hes : Meets (step d) Last (start threads) es) : s.Outlives := by
    have hinv := run_invariant (fun s => s.Alive ∧ s.Tidy) ⟨.start threads, .start threads⟩
      (fun _ _ _ h hok hs => ⟨h.1.step h.2 hok hs, h.2.step hs⟩) hes hrun
    exact ⟨hinv.1.late, hinv.2.nodup⟩
  refine ⟨hgood, fun hout hworkers => ⟨fun hlives => ?_, hgood⟩⟩
  by_contra hno
  have hdoomed := doomed_of_not_meets (fun _ => True) Doomed trivial (fun _ _ _ _ _ _ _ => trivial)
    (fun _ _ _ _ _ => doomed_of_not_last) (fun _ _ _ h => h.step) hno hrun
  rcases hdoomed with hlate | ⟨p, hp, -⟩ | ⟨w, hw, -⟩
  · exact hlate hlives.1
  · simp [hout] at hp
  · simp [hworkers] at hw

/-- The way of a packet through `EchoThreadMain` while nothing fails. -/
def stages (d : Demo) (rwMode : Mode) (bytesTrans : ℕ) : List Stage :=
  match rwMode with
  | .WRITE => [.dequeued, .freeing]
  | .READ => .dequeued :: (if d = .IOCPDemo then [.addressed] else []) ++
      if bytesTrans = 0 then [.closing, .freeing] else [.sending, .receiving]

/-- One thread takes a packet and handles it. -/
def handle (d : Demo) (p : Packet) (bytesTrans : ℕ) : List Event :=
  .dequeue p bytesTrans ::
    (stages d p.rwMode bytesTrans).map fun stage => .proceed ⟨p, bytesTrans, stage⟩ true

/-- The peer closes after its five bytes were echoed. -/
theorem outlives_iff_last_echo :
    ∃ s, run (step .IOCPDemo) (start 1) (.accept true :: handle .IOCPDemo ⟨0, 0, .READ⟩ 5
      ++ handle .IOCPDemo ⟨0, 0, .WRITE⟩ 5 ++ handle .IOCPDemo ⟨0, 1, .READ⟩ 0) = some s ∧
      s.freedHandles = [0] ∧ s.Outlives := by
  have hmeets : Meets (step .IOCPDemo) Last (start 1) (.accept true :: handle .IOCPDemo ⟨0, 0, .READ⟩ 5
      ++ handle .IOCPDemo ⟨0, 0, .WRITE⟩ 5 ++ handle .IOCPDemo ⟨0, 1, .READ⟩ 0) := by decide
  exact ⟨_, rfl, rfl, (outlives_iff_last rfl).1 hmeets⟩

/-- The peer closes, and the packet of that is taken before the one of the echo. -/
theorem not_outlives_close :
    ¬ ∃ d, ∀ threads es s, run (step d) (start threads) es = some s → s.Outlives := by
  rintro ⟨d, h⟩
  have hlate : ([0] : List ℕ) = [] := by
    cases d with
    | IOCPEchoServ =>
      exact (h 1 (.accept true :: handle .IOCPEchoServ ⟨0, 0, .READ⟩ 5
        ++ handle .IOCPEchoServ ⟨0, 1, .READ⟩ 0 ++ handle .IOCPEchoServ ⟨0, 0, .WRITE⟩ 5) _ rfl).1
    | IOCPDemo =>
      exact (h 1 (.accept true :: handle .IOCPDemo ⟨0, 0, .READ⟩ 5
        ++ handle .IOCPDemo ⟨0, 1, .READ⟩ 0 ++ handle .IOCPDemo ⟨0, 0, .WRITE⟩ 5) _ rfl).1
  exact List.cons_ne_nil 0 [] hlate

end State
end NetDemo.Echo
