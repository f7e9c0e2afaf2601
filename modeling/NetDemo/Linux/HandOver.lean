import NetDemo.Foundation.Transition
import Mathlib.Logic.Function.Basic
import Mathlib.Data.List.Nodup

/-! How the accept loop of `http_server` hands each accepted descriptor to its own thread, through the one
variable `clnt_sock`. -/

namespace NetDemo.Linux.HttpServer
open Foundation

/-- Where `main` stands in its loop. -/
inductive Stage
  | accept
  | create
  deriving DecidableEq

structure State where
  /-- `none` stands for -1. -/
  clnt_sock : Option ℕ
  stage : Stage
  /-- How many threads are created and still have to read their argument. -/
  starting : ℕ
  /-- The descriptors of the handlers at work, from their own `clnt_sock`. -/
  handlers : List ℕ
  /-- The connection behind each open descriptor; connections are numbered as they are accepted. -/
  files : ℕ → Option ℕ
  accepted : ℕ
  /-- The connection of each handler, as the handlers read their argument. -/
  served : List ℕ

inductive Event
  /-- `accept` gives a descriptor that is not open, or -1. -/
  | accept (clnt_sock : Option ℕ)
  /-- `pthread_create` for `&clnt_sock`; nothing looks at its answer. -/
  | create (ok : Bool)
  /-- Some thread reads `*((int*)arg)` and opens its streams. -/
  | read
  /-- The handler of a descriptor closes it. -/
  | close (clnt_sock : ℕ)

namespace State

def start : State := ⟨none, .accept, 0, [], fun _ => none, 0, []⟩

/-- The connection that `clnt_sock` stands for. -/
def current (s : State) : Option ℕ := s.clnt_sock.bind s.files

/-- What waits for a peer or for a thread has its own event; an event that cannot happen is `none`, and
so is the end of the process in a handler whose `fdopen` gave it no stream. -/
def step (s : State) : Event → Option State
  | .accept none =>
    if s.stage = .accept then some { s with clnt_sock := none, stage := .create } else none
  | .accept (some fd) =>
    if s.stage = .accept ∧ s.files fd = none then some { s with
      clnt_sock := some fd
      stage := .create
      files := Function.update s.files fd (some s.accepted)
      accepted := s.accepted + 1 }
    else none
  | .create ok =>
    if s.stage = .create then some { s with
      stage := .accept
      starting := if ok then s.starting + 1 else s.starting }
    else none
  | .read =>
    if s.starting = 0 then none
    else s.clnt_sock.bind fun fd => (s.files fd).map fun c => { s with
      starting := s.starting - 1
      handlers := fd :: s.handlers
      served := c :: s.served }
  | .close fd =>
    if fd ∈ s.handlers then some { s with
      handlers := s.handlers.erase fd
      files := Function.update s.files fd none }
    else none

/-- No connection has two handlers, and once every thread has read its argument each has one. -/
def HandedOver (s : State) : Prop :=
  ∀ c < s.accepted, s.served.count c ≤ 1 ∧
    (s.stage = .accept → s.starting = 0 → s.served.count c = 1)

/-- `accept` stores only when every thread has read its argument, and every thread is created. -/
def Waits (s : State) : Event → Prop
  | .accept _ => s.starting = 0
  | .create ok => ok
  | _ => True

instance (s : State) (e : Event) : Decidable (s.Waits e) := by
  cases e <;> unfold Waits <;> infer_instance

instance (s : State) : Decidable s.HandedOver :=
  inferInstanceAs (Decidable (∀ c < s.accepted, _))

inductive Stepped (s : State) : Event → State → Prop
  | refused (hstage : s.stage = .accept) :
    Stepped s (.accept none) { s with clnt_sock := none, stage := .create }
  | accepted {fd : ℕ} (hstage : s.stage = .accept) (hfree : s.files fd = none) :
    Stepped s (.accept (some fd)) { s with
      clnt_sock := some fd
      stage := .create
      files := Function.update s.files fd (some s.accepted)
      accepted := s.accepted + 1 }
  | created {ok : Bool} (hstage : s.stage = .create) :
    Stepped s (.create ok) { s with
      stage := .accept
      starting := if ok then s.starting + 1 else s.starting }
  | reads {fd c : ℕ} (hstarting : s.starting ≠ 0) (hsock : s.clnt_sock = some fd) (hc : s.files fd = some c) :
    Stepped s .read { s with
      starting := s.starting - 1
      handlers := fd :: s.handlers
      served := c :: s.served }
  | closes {fd : ℕ} (hfd : fd ∈ s.handlers) :
    Stepped s (.close fd) { s with
      handlers := s.handlers.erase fd
      files := Function.update s.files fd none }

theorem stepped_of_step {s s' : State} {e : Event} (hs : s.step e = some s') : Stepped s e s' := by
  cases e with
  | accept r =>
    cases r with
    | none =>
      simp only [step, Option.ite_none_right_eq_some, Option.some.injEq] at hs
      obtain ⟨hstage, rfl⟩ := hs
      exact .refused hstage
    | some fd =>
      simp only [step, Option.ite_none_right_eq_some, Option.some.injEq] at hs
      obtain ⟨⟨hstage, hfree⟩, rfl⟩ := hs
      exact .accepted hstage hfree
  | create ok =>
    simp only [step, Option.ite_none_right_eq_some, Option.some.injEq] at hs
    obtain ⟨hstage, rfl⟩ := hs
    exact .created hstage
  | read =>
    simp only [step, Option.ite_none_left_eq_some, Option.bind_eq_some_iff, Option.map_eq_some_iff] at hs
    obtain ⟨hstarting, fd, hsock, c, hc, rfl⟩ := hs
    exact .reads hstarting hsock hc
  | close fd =>
    simp only [step, Option.ite_none_right_eq_some, Option.some.injEq] at hs
    obtain ⟨hfd, rfl⟩ := hs
    exact .closes hfd

def due (s : State) : ℕ := s.starting + if s.stage = .create then 1 else 0

theorem due_accept {s : State} (hstage : s.stage = .accept) (hstarting : s.starting = 0) : s.due = 0 := by
  rw [State.due, hstarting, hstage]
  rfl

theorem due_create {s : State} (hstage : s.stage = .create) : s.due = s.starting + 1 := by
  rw [State.due, hstage]
  rfl

/-- A connection has its handler, or it is the one for the one thread that still has to read. -/
structure OneToOne (s : State) : Prop where
  due : s.due ≤ 1
  count : ∀ c, s.served.count c + (if s.current = some c then s.due else 0) = if c < s.accepted then 1 else 0
  nodup : s.handlers.Nodup
  opened : ∀ fd ∈ s.handlers, s.files fd ≠ none
  unread : s.due ≠ 0 → ∀ fd ∈ s.handlers, s.clnt_sock ≠ some fd
  live : s.due ≠ 0 → s.clnt_sock ≠ none → s.current ≠ none

theorem OneToOne.start : OneToOne start where
  due := by decide
  count c := by simp [State.start, State.due]
  nodup := List.nodup_nil
  opened := by simp [State.start]
  unread := by simp [State.start]
  live h := absurd rfl h

theorem OneToOne.handedOver {s : State} (h : s.OneToOne) : s.HandedOver := by
  intro c hc
  have hcount := h.count c
  rw [if_pos hc] at hcount
  refine ⟨by omega, fun hstage hstarting => ?_⟩
  rw [due_accept hstage hstarting, ite_self] at hcount
  exact hcount

theorem current_close {s : State} {fd : ℕ} (h : s.clnt_sock ≠ some fd) :
    s.clnt_sock.bind (Function.update s.files fd none) = s.current := by
  cases hsock : s.clnt_sock with
  | none => rw [current, hsock]; rfl
  | some fd' =>
    rw [hsock] at h
    rw [current, hsock, Option.bind_some, Option.bind_some,
      Function.update_of_ne fun e => h (congrArg some e)]

theorem OneToOne.step {s s' : State} {e : Event} (h : s.OneToOne) (hok : s.Waits e) (hs : s.step e = some s') :
    s'.OneToOne := by
  cases stepped_of_step hs with
  | refused hstage =>
    -- `clnt_sock` is -1 now, and no thread has to read it.
    have hstarting : s.starting = 0 := hok
    refine ⟨by simp [State.due, hstarting], fun c => ?_, h.nodup, h.opened, by simp, by simp⟩
    have hcount := h.count c
    rw [due_accept hstage hstarting, ite_self] at hcount
    simpa [current] using hcount
  | @accepted fd hstage hfree =>
    have hstarting : s.starting = 0 := hok
    have hne : ∀ x ∈ s.handlers, x ≠ fd := fun x hx e => h.opened x hx (e ▸ hfree)
    refine ⟨by simp [State.due, hstarting], fun c => ?_, h.nodup, fun x hx => ?_, fun _ x hx => ?_,
      by simp [current]⟩
    · have hcount := h.count c
      rw [due_accept hstage hstarting, ite_self] at hcount
      simp only [current, State.due, hstarting, Option.bind_some, Function.update_self, Option.some.injEq]
      split_ifs at hcount ⊢ <;> omega
    · exact (Function.update_of_ne (hne x hx) _ _).trans_ne (h.opened x hx)
    · exact fun e => hne x hx (Option.some.inj e).symm
  | @created ok hstage =>
    have hok : ok = true := hok
    have hdue : ({ s with stage := .accept, starting := if ok then s.starting + 1 else s.starting } : State).due
        = s.due := by simp [State.due, hok, hstage]
    exact ⟨hdue ▸ h.due, by rw [hdue]; exact h.count, h.nodup, h.opened, hdue ▸ h.unread, hdue ▸ h.live⟩
  | @reads fd c hstarting hsock hc =>
    have hle := h.due
    have hdue : s.due = 1 := by unfold State.due at hle ⊢; omega
    have hdue' : ({ s with
        starting := s.starting - 1
        handlers := fd :: s.handlers
        served := c :: s.served } : State).due = 0 := by
      unfold State.due at hdue ⊢
      dsimp only
      omega
    have hcurrent : s.current = some c := by rw [current, hsock]; exact hc
    refine ⟨by omega, fun x => ?_, ?_, fun x hx => ?_, fun h0 => absurd hdue' h0,
      fun h0 => absurd hdue' h0⟩
    · have hcount := h.count x
      rw [hdue, hcurrent] at hcount
      rw [hdue', ite_self, Nat.add_zero, List.count_cons, ← hcount]
      simp only [beq_iff_eq, Option.some.injEq]
    · refine List.nodup_cons.2 ⟨fun hfd => ?_, h.nodup⟩
      exact h.unread (by omega) fd hfd hsock
    · rcases List.mem_cons.1 hx with rfl | hx
      · simp [hc]
      · exact h.opened x hx
  | @closes fd hfd =>
    -- The descriptor has a handler, so it is not the one that still has to be read.
    refine ⟨h.due, fun c => ?_, h.nodup.erase fd, fun x hx => ?_,
      fun h0 x hx => h.unread h0 x (List.mem_of_mem_erase hx), fun h0 hsock => ?_⟩
    · have hcount := h.count c
      change s.served.count c
        + (if s.clnt_sock.bind (Function.update s.files fd none) = some c then s.due else 0) = _
      by_cases hdue : s.due = 0
      · rw [hdue, ite_self] at hcount ⊢
        exact hcount
      · rw [current_close (h.unread hdue fd hfd)]
        exact hcount
    · have hne : x ≠ fd := fun e => h.nodup.not_mem_erase (e ▸ hx)
      exact (Function.update_of_ne hne _ _).trans_ne (h.opened x (List.mem_of_mem_erase hx))
    · exact (current_close (h.unread h0 fd hfd)).trans_ne (h.live h0 hsock)

/-- No thread reads `clnt_sock` any more as long as it stands for the connection `c`, which no handler
has. -/
def Lost (c : ℕ) (s : State) : Prop :=
  c < s.accepted ∧ s.served.count c = 0 ∧ (s.due = 0 ∨ s.current ≠ some c)

theorem Lost.accept {c : ℕ} {s s' : State} {r : Option ℕ} (hc : c < s.accepted) (hcount : s.served.count c = 0)
    (hs : s.step (.accept r) = some s') : Lost c s' := by
  cases stepped_of_step hs with
  | refused hstage => exact ⟨hc, hcount, .inr nofun⟩
  | accepted hstage hfree =>
    refine ⟨Nat.lt_succ_of_lt hc, hcount, .inr fun e => ?_⟩
    have e : s.accepted = c := by simpa [current] using e
    omega

theorem Lost.step {c : ℕ} {s s' : State} {e : Event} (h : Lost c s) (hs : s.step e = some s') :
    Lost c s' := by
  obtain ⟨hc, hcount, hmissed⟩ := h
  cases stepped_of_step hs with
  | refused | accepted => exact .accept hc hcount hs
  | created hstage =>
    refine ⟨hc, hcount, .inr (hmissed.resolve_left fun hdue => ?_)⟩
    rw [due_create hstage] at hdue
    exact absurd hdue (Nat.succ_ne_zero _)
  | @reads fd x hstarting hsock hx =>
    have hother : s.current ≠ some c :=
      hmissed.resolve_left fun hdue => hstarting (Nat.eq_zero_of_add_eq_zero_right hdue)
    refine ⟨hc, ?_, .inr hother⟩
    have hne : x ≠ c := fun e => hother (by rw [current, hsock, Option.bind_some, hx, e])
    rw [List.count_cons_of_ne hne, hcount]
  | @closes fd hfd =>
    refine ⟨hc, hcount, hmissed.imp_right fun hother e => hother ?_⟩
    obtain ⟨x, hsock, hx⟩ := Option.bind_eq_some_iff.1 e
    have hne : x ≠ fd := fun e => by simp [e] at hx
    have hx : s.files x = some c := (Function.update_of_ne hne _ _).symm.trans hx
    have hsock : s.clnt_sock = some x := hsock
    rw [current, hsock]
    exact hx

theorem Lost.not_handedOver {c : ℕ} {s : State} (h : Lost c s) (hstage : s.stage = .accept)
    (hstarting : s.starting = 0) : ¬ s.HandedOver := by
  intro hover
  have hone := (hover c h.1).2 hstage hstarting
  rw [h.2.1] at hone
  exact absurd hone (by decide)

theorem OneToOne.pending {s : State} (h : s.OneToOne) (hdue : s.due ≠ 0) (hsock : s.clnt_sock ≠ none) :
    ∃ c, s.current = some c ∧ c < s.accepted ∧ s.served.count c = 0 := by
  obtain ⟨c, hc⟩ := Option.ne_none_iff_exists'.1 (h.live hdue hsock)
  have hcount := h.count c
  have hle := h.due
  rw [if_pos hc] at hcount
  split_ifs at hcount with hlt
  · exact ⟨c, hc, hlt, by omega⟩
  · omega

theorem OneToOne.lost {s s' : State} {e : Event} (h : s.OneToOne) (hno : ¬ s.Waits e)
    (hsock : s.due ≠ 0 → s.clnt_sock ≠ none) (hs : s.step e = some s') : ∃ c, Lost c s' := by
  cases stepped_of_step hs with
  | refused | accepted =>
    have hstarting : s.starting ≠ 0 := hno
    have hdue : s.due ≠ 0 := fun h0 => hstarting (Nat.eq_zero_of_add_eq_zero_right h0)
    obtain ⟨c, -, hlt, hcount⟩ := h.pending hdue (hsock hdue)
    exact ⟨c, .accept hlt hcount hs⟩
  | @created ok hstage =>
    have hok : ok = false := Bool.eq_false_iff.2 hno
    have hdue := due_create hstage
    obtain ⟨c, -, hlt, hcount⟩ := h.pending (by omega) (hsock (by omega))
    have hle := h.due
    refine ⟨c, hlt, hcount, .inl ?_⟩
    simp only [State.due, hok]
    change s.starting + 0 = 0
    omega
  | reads | closes => exact absurd trivial hno

theorem step_sock {s s' : State} {e : Event} (h : s.due ≠ 0 → s.clnt_sock ≠ none) (he : e ≠ .accept none)
    (hs : s.step e = some s') : s'.due ≠ 0 → s'.clnt_sock ≠ none := by
  cases stepped_of_step hs with
  | refused => exact absurd rfl he
  | accepted => exact fun _ => nofun
  | created hstage => exact fun _ => h (by rw [due_create hstage]; exact Nat.succ_ne_zero _)
  | reads hstarting hsock => exact fun _ => hsock ▸ nofun
  | closes => exact h

/-- When `accept` stores only what every thread has read before, and every thread is created, each
accepted descriptor gets exactly one handler. Of the runs without a failed `accept` only these come to
rest so. -/
theorem handedOver_iff_waits {es : List Event} {s : State} (hrun : run step start es = some s) :
    (Meets step Waits start es → s.HandedOver) ∧
    ((∀ e ∈ es, e ≠ .accept none) → s.stage = .accept → s.starting = 0 →
      (s.HandedOver ↔ Meets step Waits start es)) := by
  have hgood (hes : Meets step Waits start es) : s.HandedOver :=
    (run_invariant OneToOne OneToOne.start (fun _ _ _ => OneToOne.step) hes hrun).handedOver
  refine ⟨hgood, fun hall hstage hstarting => ⟨fun hover => ?_, hgood⟩⟩
  by_contra hno
  obtain ⟨c, hlost⟩ : ∃ c, Lost c s := by
    refine doomed_of_not_meets (fun s => s.OneToOne ∧ (s.due ≠ 0 → s.clnt_sock ≠ none)) (fun s => ∃ c, Lost c s)
      ⟨.start, fun h => absurd rfl h⟩ (fun e he s s' h hok hs => ?_) (fun e _ s s' h hbad hs => ?_)
      (fun s e s' h hs => ?_) hno hrun
    · exact ⟨h.1.step hok hs, step_sock h.2 (hall e he) hs⟩
    · exact h.1.lost hbad h.2 hs
    · exact h.imp fun c hlost => hlost.step hs
  exact hlost.not_handedOver hstage hstarting hover

/-- Two connections one after the other. -/
theorem handedOver_iff_waits_two :
    ∃ s, run step start [.accept (some 4), .create true, .read, .accept (some 5), .create true, .close 4,
      .read] = some s ∧ s.served = [1, 0] ∧ s.HandedOver := by
  have hmeets : Meets step Waits start [.accept (some 4), .create true, .read, .accept (some 5),
      .create true, .close 4, .read] := by decide
  exact ⟨_, rfl, rfl, (handedOver_iff_waits rfl).1 hmeets⟩

/-- Two connections are accepted before the first thread reads its argument: the first has no handler and
the second has two. -/
theorem not_handedOver_two :
    ¬ ∀ es s, run step start es = some s → s.HandedOver := by
  intro h
  have hover := h [.accept (some 4), .create true, .accept (some 5), .create true, .read, .read] _ rfl
  have hone : [1, 1].count 0 = 1 := (hover 0 (by decide)).2 rfl rfl
  exact absurd hone (by decide)

end State
end NetDemo.Linux.HttpServer
