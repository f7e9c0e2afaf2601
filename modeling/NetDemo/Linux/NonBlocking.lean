import NetDemo.Foundation.Transition
import Mathlib.Data.Int.Notation
import Mathlib.Data.List.Pairwise

/-! What the three functions of `nonBlockingConnect.cpp` do with their socket, whatever the system answers. -/

namespace NetDemo.Linux.NonBlocking
open Foundation

def EINTR : ℤ := 4

def EISCONN : ℤ := 106

def EINPROGRESS : ℤ := 115

def POLLOUT : ℤ := 4

/-- A call of the system, or the end of the function. -/
inductive Point
  | socket
  | getfl
  | setfl
  | connect
  | select
  /-- The `connect` of `nonblockingConnect_v2` behind `select`. -/
  | reconnect
  | getsockopt
  | poll
  | send
  | close
  | returned (ok : Bool)
  deriving DecidableEq

/-- What a call gives back, and `errno` as it stands then. With `out` goes what `FD_ISSET` tells of the
socket, the error that `getsockopt` stores, and `revents`. -/
structure Answer where
  ret : ℤ
  errno : ℤ
  out : ℤ

/-- The loop around `connect`, with `wait` behind it. -/
def connectLoop (wait : Point) (a : Answer) : Point :=
  if a.ret = 0 then .returned true
  else if a.ret = -1 then
    if a.errno = EINTR then .connect
    else if a.errno ≠ EINPROGRESS then .close
    else wait
  else .connect

def sendLoop (a : Answer) : Point := if a.ret = -1 then .returned false else .send

/-- What the three functions have in common. A failed `fcntl` leads to `fails`, a connection under way to
`wait`. -/
def common (fails wait : Point) : Point → Answer → Option Point
  | .socket, a => some (if a.ret = -1 then .returned false else .getfl)
  | .getfl, _ => some .setfl
  | .setfl, a => some (if a.ret = -1 then fails else .connect)
  | .connect, a => some (connectLoop wait a)
  | .send, a => some (sendLoop a)
  | .close, _ => some (.returned false)
  | _, _ => none

def nonblockingConnect : Point → Answer → Option Point
  | .select, a => some (if a.ret ≤ 0 then .close else if a.out ≠ 0 then .getsockopt else .close)
  -- An error that `getsockopt` reports leaves the descriptor open.
  | .getsockopt, a => some (if a.ret = -1 ∨ a.out ≠ 0 then .returned false else .send)
  | p, a => common .close .select p a

/-- Behind `select` only `errno` is looked at, also when `connect` did not set it. -/
def nonblockingConnect_v2 : Point → Answer → Option Point
  | .select, a => some (if a.ret ≤ 0 then .close else if a.out ≠ 0 then .reconnect else .select)
  | .reconnect, a => some (if a.errno = EISCONN then .send else .select)
  | p, a => common .close .select p a

def nonblockingConnect_v3 : Point → Answer → Option Point
  | .poll, a => some (if a.ret = 1 ∧ a.out = POLLOUT then .send else .close)
  -- A failed `fcntl` returns without `close` here.
  | p, a => common (.returned false) .poll p a

inductive Function
  | nonblockingConnect
  | nonblockingConnect_v2
  | nonblockingConnect_v3

/-- What comes behind a call, as far as the function makes it. -/
def Function.next : Function → Point → Answer → Option Point
  | nonblockingConnect => NonBlocking.nonblockingConnect
  | nonblockingConnect_v2 => NonBlocking.nonblockingConnect_v2
  | nonblockingConnect_v3 => NonBlocking.nonblockingConnect_v3

/-- Neither is an error that `getsockopt` reports met with, nor a `send` that fails, nor, by
`nonblockingConnect_v3`, an `fcntl` that fails. -/
def Function.Tidy : Function → Point → Answer → Prop
  | nonblockingConnect, .getsockopt, a => a.ret ≠ -1 ∧ a.out = 0
  | nonblockingConnect_v3, .setfl, a => a.ret ≠ -1
  | _, .send, a => a.ret ≠ -1
  | _, _, _ => True

instance (f : Function) (p : Point) (a : Answer) : Decidable (f.Tidy p a) := by
  unfold Function.Tidy
  split <;> infer_instance

/-- A call, with the descriptor that it gets. -/
structure Call where
  point : Point
  fd : Option ℤ
  deriving DecidableEq

/-- Where the function stands, its `fd`, and the calls that it made. -/
structure State where
  point : Point
  fd : Option ℤ
  calls : List Call

def start : State := ⟨.socket, none, []⟩

def step (f : Function) (s : State) (a : Answer) : Option State :=
  (f.next s.point a).map fun p =>
    { point := p
      fd := if s.point = .socket ∧ a.ret ≠ -1 then some a.ret else s.fd
      calls := s.calls ++ [⟨s.point, s.fd⟩] }

def State.Live (s : State) : Prop := ∀ ok, s.point ≠ .returned ok

/-- Who returns false has closed its descriptor once, and has used it in no call behind that. -/
def Released (s : State) : Prop :=
  s.point = .returned false → ∀ fd ∈ s.fd,
    s.calls.count ⟨.close, some fd⟩ = 1 ∧
    s.calls.Pairwise fun c c' => c = ⟨.close, some fd⟩ → c'.fd ≠ some fd

section
variable {f : Function} {p q : Point} {a : Answer}

theorem connectLoop_ne {wait : Point} (hwait : wait ≠ .returned false ∧ wait ≠ .socket) (a : Answer) :
    connectLoop wait a ≠ .returned false ∧ connectLoop wait a ≠ .socket := by
  unfold connectLoop
  split_ifs
  · decide
  · decide
  · decide
  · exact hwait
  · decide

theorem sendLoop_eq_iff : sendLoop a = .returned false ↔ a.ret = -1 := by
  unfold sendLoop
  split_ifs with h <;> simp [h]

theorem sendLoop_ne : sendLoop a ≠ .socket := by
  unfold sendLoop
  split_ifs <;> decide

/-- Nobody goes back to `socket`, and there are three ways to return false. -/
theorem next_spec (h : f.next p a = some q) : q ≠ .socket ∧
    (q = .returned false ↔ p = .close ∨ p = .socket ∧ a.ret = -1 ∨ ¬ f.Tidy p a) := by
  have hselect := @connectLoop_ne .select (by decide) a
  have hpoll := @connectLoop_ne .poll (by decide) a
  have hsend := @sendLoop_ne a
  cases f <;> cases p <;>
    simp only [Function.next, nonblockingConnect, nonblockingConnect_v2, nonblockingConnect_v3, common,
      Option.some.injEq, reduceCtorEq] at h <;>
    subst h <;>
    simp only [Function.Tidy, sendLoop_eq_iff] <;>
    (try split_ifs) <;>
    grind

theorem next_returned (ok : Bool) (a : Answer) : f.next (.returned ok) a = none := by
  cases f <;> rfl

end

section
variable {f : Function} {s s' : State} {a : Answer} {answers : List Answer}

/-- Before it returns, a function has a descriptor from `socket` on, and has closed nothing. -/
structure Holding (s : State) : Prop where
  fresh : s.point = .socket → s.fd = none
  opened : s.Live → s.point ≠ .socket → s.fd ≠ none
  unclosed : s.Live → ∀ c ∈ s.calls, c.point ≠ .close

theorem step_spec (h : step f s a = some s') : s.Live ∧ f.next s.point a = some s'.point ∧
    s'.fd = (if s.point = .socket ∧ a.ret ≠ -1 then some a.ret else s.fd) ∧
    s'.calls = s.calls ++ [⟨s.point, s.fd⟩] := by
  obtain ⟨p, hp, rfl⟩ := Option.map_eq_some_iff.1 h
  refine ⟨fun ok hok => ?_, hp, rfl, rfl⟩
  rw [hok, next_returned] at hp
  cases hp

theorem holding_start : Holding start where
  fresh _ := rfl
  opened _ h := absurd rfl h
  unclosed _ _ h := absurd h List.not_mem_nil

theorem Holding.step (hs : Holding s) (h : step f s a = some s') : Holding s' := by
  obtain ⟨hlive, hnext, hfd, hcalls⟩ := step_spec h
  constructor
  · intro hsocket
    exact absurd hsocket (next_spec hnext).1
  · intro hlive' _
    rw [hfd]
    split_ifs with hret
    · exact Option.some_ne_none _
    · refine hs.opened hlive fun hsocket => ?_
      have hfailed : a.ret = -1 := by
        by_contra hne
        exact hret ⟨hsocket, hne⟩
      exact hlive' false ((next_spec hnext).2.2 (.inr (.inl ⟨hsocket, hfailed⟩)))
  · intro hlive' c hc
    rw [hcalls, List.mem_append, List.mem_singleton] at hc
    obtain hc | rfl := hc
    · exact hs.unclosed hlive c hc
    · intro hclose
      exact hlive' false ((next_spec hnext).2.2 (.inl hclose))

theorem Holding.notMem (hs : Holding s) (hlive : s.Live) (fd : Option ℤ) : ⟨.close, fd⟩ ∉ s.calls :=
  fun hmem => hs.unclosed hlive _ hmem rfl

theorem Holding.count_step (hs : Holding s) (h : NonBlocking.step f s a = some s') (fd : ℤ) :
    s'.calls.count ⟨.close, some fd⟩ = if s.point = .close ∧ s.fd = some fd then 1 else 0 := by
  obtain ⟨hlive, -, -, hcalls⟩ := step_spec h
  rw [hcalls, List.count_append, List.count_eq_zero_of_not_mem (hs.notMem hlive _), List.count_singleton]
  simp only [beq_iff_eq, Call.mk.injEq, Nat.zero_add]

theorem Holding.pairwise_step (hs : Holding s) (h : NonBlocking.step f s a = some s') (fd : ℤ) :
    s'.calls.Pairwise fun c c' => c = ⟨.close, some fd⟩ → c'.fd ≠ some fd := by
  obtain ⟨hlive, -, -, hcalls⟩ := step_spec h
  have hno {c : Call} (hc : c ∈ s.calls) : c ≠ ⟨.close, some fd⟩ := by
    rintro rfl
    exact hs.notMem hlive _ hc
  rw [hcalls, List.pairwise_append]
  refine ⟨?_, List.pairwise_singleton _ _, fun c hc _ _ hclose => absurd hclose (hno hc)⟩
  exact (List.pairwise_of_forall fun _ _ => trivial).imp_of_mem fun hc _ _ hclose => absurd hclose (hno hc)

/-- In no run is a descriptor closed twice, or used when it is closed. -/
theorem closed_at_most_once (hrun : run (step f) start answers = some s) (fd : ℤ) :
    s.calls.count ⟨.close, some fd⟩ ≤ 1 ∧
    s.calls.Pairwise fun c c' => c = ⟨.close, some fd⟩ → c'.fd ≠ some fd := by
  have hstart : Holding start ∧ start.calls.count ⟨.close, some fd⟩ ≤ 1 ∧
      start.calls.Pairwise fun c c' => c = ⟨.close, some fd⟩ → c'.fd ≠ some fd :=
    ⟨holding_start, Nat.zero_le 1, .nil⟩
  refine (run_preserves (fun s => Holding s ∧ s.calls.count ⟨.close, some fd⟩ ≤ 1 ∧
    s.calls.Pairwise fun c c' => c = ⟨.close, some fd⟩ → c'.fd ≠ some fd) hstart ?_ hrun).2
  intro s a s' hs h
  refine ⟨hs.1.step h, ?_, hs.1.pairwise_step h fd⟩
  rw [hs.1.count_step h]
  split_ifs <;> decide

theorem released_step_iff (hs : Holding s) (h : step f s a = some s') :
    Released s' ↔ f.Tidy s.point a := by
  obtain ⟨hlive, hnext, hfd, -⟩ := step_spec h
  have hfalse := (next_spec hnext).2
  constructor
  · intro hreleased
    by_contra htidy
    have hsocket : s.point ≠ .socket := by
      intro hsocket
      rw [hsocket] at htidy
      cases f <;> exact htidy trivial
    have hclose : s.point ≠ .close := by
      intro hclose
      rw [hclose] at htidy
      cases f <;> exact htidy trivial
    obtain ⟨fd, hopened⟩ := Option.ne_none_iff_exists'.1 (hs.opened hlive hsocket)
    have hfd' : s'.fd = some fd := by rw [hfd, if_neg fun hret => hsocket hret.1, hopened]
    have hcount := (hreleased (hfalse.2 (.inr (.inr htidy))) fd hfd').1
    rw [hs.count_step h, if_neg fun hclosed => hclose hclosed.1] at hcount
    exact absurd hcount (by decide)
  · intro htidy hreturned fd hopened
    refine ⟨?_, hs.pairwise_step h fd⟩
    rw [hs.count_step h]
    obtain hclose | ⟨hsocket, hret⟩ | hno := hfalse.1 hreturned
    · have hfd' : s'.fd = s.fd := by simp [hfd, hclose]
      rw [if_pos ⟨hclose, hfd'.symm.trans hopened⟩]
    · have hfd' : s'.fd = none := by simp [hfd, hret, hs.fresh hsocket]
      exact absurd (hfd'.symm.trans hopened) (Option.some_ne_none fd).symm
    · exact absurd htidy hno

theorem released_start : Released start := nofun

theorem not_released_step (hs : ¬ Released s) (h : step f s a = some s') : ¬ Released s' := by
  have hreturned : s.point = .returned false := by
    by_contra hno
    exact hs fun hfalse => absurd hfalse hno
  exact absurd hreturned ((step_spec h).1 false)

/-- The runs in which the descriptor is released, exactly. -/
theorem released_iff_tidy (hrun : run (step f) start answers = some s) :
    Released s ↔ Meets (step f) (fun s a => f.Tidy s.point a) start answers := by
  constructor
  · intro hreleased
    by_contra hno
    refine doomed_of_not_meets Holding (fun s => ¬ Released s) holding_start ?_ ?_
      (fun s a s' => not_released_step) hno hrun hreleased
    · intro a _ s s' hs _ h
      exact hs.step h
    · intro a _ s s' hs htidy h
      rwa [released_step_iff hs h]
  · intro htidy
    refine (run_invariant (fun s => Holding s ∧ Released s) ⟨holding_start, released_start⟩ ?_ htidy hrun).2
    intro s a s' hs htidy h
    exact ⟨hs.1.step h, (released_step_iff hs.1 h).2 htidy⟩

/-- After a signal, the wait for the connection ends with the time. -/
theorem released_of_timeout : ∃ answers s, run (step .nonblockingConnect_v3) start answers = some s ∧
    s.point = .returned false ∧ s.fd = some 3 ∧ Released s :=
  let answers : List Answer :=
    [⟨3, 0, 0⟩, ⟨2, 0, 0⟩, ⟨0, 0, 0⟩, ⟨-1, EINTR, 0⟩, ⟨-1, EINPROGRESS, 0⟩, ⟨0, 0, 0⟩, ⟨0, 0, 0⟩]
  have hrun : run (step .nonblockingConnect_v3) start answers = some
      ⟨.returned false, some 3, [⟨.socket, none⟩, ⟨.getfl, some 3⟩, ⟨.setfl, some 3⟩, ⟨.connect, some 3⟩,
        ⟨.connect, some 3⟩, ⟨.poll, some 3⟩, ⟨.close, some 3⟩]⟩ := rfl
  ⟨answers, _, hrun, rfl, rfl, (released_iff_tidy hrun).2 (by decide)⟩

def Leaks (f : Function) (answers : List Answer) : Prop :=
  ∃ s, run (step f) start answers = some s ∧ s.point = .returned false ∧ ¬ Released s

/-- Each of the three functions leaves its descriptor open: `getsockopt` tells of a refused connection, a
`send` fails, an `fcntl` fails. -/
theorem leaks_of_failure :
    Leaks .nonblockingConnect [⟨3, 0, 0⟩, ⟨2, 0, 0⟩, ⟨0, 0, 0⟩, ⟨-1, EINPROGRESS, 0⟩, ⟨1, EINPROGRESS, 1⟩,
      ⟨0, EINPROGRESS, 111⟩] ∧
    Leaks .nonblockingConnect_v2 [⟨3, 0, 0⟩, ⟨2, 0, 0⟩, ⟨0, 0, 0⟩, ⟨-1, EINPROGRESS, 0⟩, ⟨1, EINPROGRESS, 1⟩,
      ⟨-1, EISCONN, 0⟩, ⟨-1, 104, 0⟩] ∧
    Leaks .nonblockingConnect_v3 [⟨3, 0, 0⟩, ⟨2, 0, 0⟩, ⟨-1, 22, 0⟩] :=
  ⟨⟨_, rfl, rfl, fun h => absurd (h rfl 3 rfl).1 (by decide)⟩,
    ⟨_, rfl, rfl, fun h => absurd (h rfl 3 rfl).1 (by decide)⟩,
    _, rfl, rfl, fun h => absurd (h rfl 3 rfl).1 (by decide)⟩

end
end NetDemo.Linux.NonBlocking
