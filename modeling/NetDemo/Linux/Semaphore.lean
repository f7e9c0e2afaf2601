import NetDemo.Foundation.Progress
import Mathlib.Algebra.BigOperators.Group.List.Basic
import Mathlib.Data.BitVec
import Mathlib.Data.List.Range

/-! The two threads of `semaphore.c`, which hand `num` over with two semaphores. -/

namespace NetDemo.Linux.Semaphore
open Foundation

def ROUNDS : ℕ := 5

/-- Where a thread stands in a round of its loop. -/
inductive Stage
  /-- `sem_wait` -/
  | wait
  /-- `scanf` or `sum += num` -/
  | work
  /-- `sem_post` -/
  | post
  deriving DecidableEq

structure Thread where
  i : ℕ
  stage : Stage
  deriving DecidableEq

def Thread.next (t : Thread) : Thread := ⟨t.i + 1, .wait⟩

structure State where
  sem_one : ℕ
  sem_two : ℕ
  num : BitVec 32
  read : Thread
  accu : Thread
  sum : BitVec 32
  deriving DecidableEq

/-- The thread that goes on. -/
inductive Turn
  | read
  | accu
  deriving DecidableEq

def start : State := ⟨0, 1, 0, ⟨0, .wait⟩, ⟨0, .wait⟩, 0⟩

/-- A `scanf` without an answer leaves `num` as it is. -/
def stepRead (scanf : ℕ → Option (BitVec 32)) (s : State) : Option State :=
  if ROUNDS ≤ s.read.i then none
  else match s.read.stage with
    | .wait => if s.sem_two = 0 then none
      else some { s with sem_two := s.sem_two - 1, read := { s.read with stage := .work } }
    | .work => some { s with num := (scanf s.read.i).getD s.num, read := { s.read with stage := .post } }
    | .post => some { s with sem_one := s.sem_one + 1, read := s.read.next }

def stepAccu (s : State) : Option State :=
  if ROUNDS ≤ s.accu.i then none
  else match s.accu.stage with
    | .wait => if s.sem_one = 0 then none
      else some { s with sem_one := s.sem_one - 1, accu := { s.accu with stage := .work } }
    | .work => some { s with sum := s.sum + s.num, accu := { s.accu with stage := .post } }
    | .post => some { s with sem_two := s.sem_two + 1, accu := s.accu.next }

def step (scanf : ℕ → Option (BitVec 32)) (s : State) : Turn → Option State
  | .read => stepRead scanf s
  | .accu => stepAccu s

/-! ### What the threads are for -/

variable {scanf : ℕ → Option (BitVec 32)} {s s' : State}

/-- What stands in `num` after `k` numbers were asked for. -/
def numAfter (scanf : ℕ → Option (BitVec 32)) : ℕ → BitVec 32
  | 0 => 0
  | k + 1 => (scanf k).getD (numAfter scanf k)

def sumAfter (scanf : ℕ → Option (BitVec 32)) (k : ℕ) : BitVec 32 :=
  ((List.range k).map fun i => numAfter scanf (i + 1)).sum

theorem sumAfter_succ (k : ℕ) : sumAfter scanf (k + 1) = sumAfter scanf k + numAfter scanf (k + 1) := by
  rw [sumAfter, List.range_succ, List.map_append, List.sum_append, List.map_singleton, List.sum_singleton]
  rfl

/-- There is one token. It is in a semaphore, or a thread has taken it and goes through its stages. -/
inductive Token
  | two
  | scanf
  | postOne
  | one
  | add
  | postTwo

/-- The whole state, by the round and the token. -/
def whenAt (scanf : ℕ → Option (BitVec 32)) (k : ℕ) : Token → State
  | .two => ⟨0, 1, numAfter scanf k, ⟨k, .wait⟩, ⟨k, .wait⟩, sumAfter scanf k⟩
  | .scanf => ⟨0, 0, numAfter scanf k, ⟨k, .work⟩, ⟨k, .wait⟩, sumAfter scanf k⟩
  | .postOne => ⟨0, 0, numAfter scanf (k + 1), ⟨k, .post⟩, ⟨k, .wait⟩, sumAfter scanf k⟩
  | .one => ⟨1, 0, numAfter scanf (k + 1), ⟨k + 1, .wait⟩, ⟨k, .wait⟩, sumAfter scanf k⟩
  | .add => ⟨0, 0, numAfter scanf (k + 1), ⟨k + 1, .wait⟩, ⟨k, .work⟩, sumAfter scanf k⟩
  | .postTwo => ⟨0, 0, numAfter scanf (k + 1), ⟨k + 1, .wait⟩, ⟨k, .post⟩, sumAfter scanf (k + 1)⟩

/-- The thread that can go on, and what the token does then. -/
def Token.turn : Token → Turn
  | .two | .scanf | .postOne => .read
  | .one | .add | .postTwo => .accu

def after (k : ℕ) : Token → ℕ × Token
  | .two => (k, .scanf)
  | .scanf => (k, .postOne)
  | .postOne => (k, .one)
  | .one => (k, .add)
  | .add => (k, .postTwo)
  | .postTwo => (k + 1, .two)

theorem step_turn {k : ℕ} (hk : k < ROUNDS) (token : Token) :
    step scanf (whenAt scanf k token) token.turn =
      some (whenAt scanf (after k token).1 (after k token).2) := by
  have hle : ¬ ROUNDS ≤ k := Nat.not_le.mpr hk
  cases token <;>
    simp [Token.turn, step, stepRead, stepAccu, whenAt, after, hle, numAfter, sumAfter_succ, Thread.next]

theorem step_other {k : ℕ} (hk : k < ROUNDS) {token : Token} {turn : Turn} (hturn : turn ≠ token.turn) :
    step scanf (whenAt scanf k token) turn = none := by
  have hle : ¬ ROUNDS ≤ k := Nat.not_le.mpr hk
  cases turn with
  | read => cases token <;> simp_all [Token.turn, step, stepRead, whenAt]
  | accu => cases token <;> simp_all [Token.turn, step, stepAccu, whenAt]

/-- Every state is one of those. -/
def Reached (scanf : ℕ → Option (BitVec 32)) (s : State) : Prop :=
  ∃ k, k < ROUNDS ∧ (∃ token, s = whenAt scanf k token) ∨ k = ROUNDS ∧ s = whenAt scanf k .two

theorem stuck_end : Stuck (step scanf) (whenAt scanf ROUNDS .two) := by
  intro turn
  cases turn <;> simp [step, stepRead, stepAccu, whenAt]

theorem reached_after {k : ℕ} (hk : k < ROUNDS) (token : Token) :
    Reached scanf (whenAt scanf (after k token).1 (after k token).2) := by
  cases token with
  | postTwo =>
    rcases Nat.lt_or_ge (k + 1) ROUNDS with hlt | hge
    · exact ⟨k + 1, .inl ⟨hlt, .two, rfl⟩⟩
    · exact ⟨k + 1, .inr ⟨Nat.le_antisymm hk hge, rfl⟩⟩
  | _ => exact ⟨k, .inl ⟨hk, _, rfl⟩⟩

def Thread.rest (t : Thread) : ℕ :=
  match t.stage with
  | .wait => 3 * (ROUNDS - t.i)
  | .work => 3 * (ROUNDS - t.i) - 1
  | .post => 3 * (ROUNDS - t.i) - 2

theorem rest_after {k : ℕ} (hk : k < ROUNDS) (token : Token) :
    (whenAt scanf (after k token).1 (after k token).2).read.rest +
        (whenAt scanf (after k token).1 (after k token).2).accu.rest <
      (whenAt scanf k token).read.rest + (whenAt scanf k token).accu.rest := by
  cases token <;> simp only [whenAt, after, Thread.rest] <;> omega

theorem decreases : Decreases (step scanf) (Reached scanf) fun s => s.read.rest + s.accu.rest := by
  have hcases {s s' : State} {turn : Turn} (h : Reached scanf s) (hstep : step scanf s turn = some s') :
      ∃ k token, k < ROUNDS ∧ s = whenAt scanf k token ∧
        s' = whenAt scanf (after k token).1 (after k token).2 := by
    obtain ⟨k, ⟨hk, token, rfl⟩ | ⟨rfl, rfl⟩⟩ := h
    · by_cases hturn : turn = token.turn
      · rw [hturn, step_turn hk] at hstep
        exact ⟨k, token, hk, rfl, (Option.some.inj hstep).symm⟩
      · rw [step_other hk hturn] at hstep
        cases hstep
    · rw [stuck_end turn] at hstep
      cases hstep
  constructor
  · intro s turn s' h hstep
    obtain ⟨k, token, hk, rfl, rfl⟩ := hcases h hstep
    exact reached_after hk token
  · intro s turn s' h hstep
    obtain ⟨k, token, hk, rfl, rfl⟩ := hcases h hstep
    exact rest_after hk token

/-- However the two threads take turns: they are never both at `num`, one of them can go on until both are
through, and then every number that was read is in the sum once. -/
theorem sum_complete {turns : List Turn} (hrun : run (step scanf) start turns = some s) :
    ¬ (s.read.stage = .work ∧ s.accu.stage = .work) ∧ turns.length ≤ 30 ∧
      (Stuck (step scanf) s ↔ s.read.i = ROUNDS ∧ s.accu.i = ROUNDS) ∧
      (Stuck (step scanf) s → s.sum = sumAfter scanf ROUNDS) := by
  have hstart : Reached scanf start := ⟨0, .inl ⟨by decide, .two, rfl⟩⟩
  have hle := decreases.length_le hstart hrun
  have hthirty : start.read.rest + start.accu.rest = 30 := rfl
  obtain ⟨k, ⟨hk, token, rfl⟩ | ⟨rfl, rfl⟩⟩ := decreases.run_keeps hstart hrun
  · have hgoes : ¬ Stuck (step scanf) (whenAt scanf k token) := fun hstuck => by
      have hturn : step scanf (whenAt scanf k token) token.turn = _ := step_turn hk token
      rw [hstuck] at hturn
      cases hturn
    refine ⟨?_, by omega, iff_of_false hgoes ?_, fun hstuck => absurd hstuck hgoes⟩
    · cases token <;> simp [whenAt]
    · cases token <;> simp only [whenAt] <;> omega
  · exact ⟨by simp [whenAt], by omega, iff_of_true stuck_end ⟨rfl, rfl⟩, fun _ => rfl⟩

theorem sum_complete_sevens : ∃ s, run (step fun _ => some 7) start
    (List.replicate ROUNDS [.read, .read, .read, .accu, .accu, .accu]).flatten = some s ∧ s.sum = 35 := by
  have hrun : run (step fun _ => some 7) start
      (List.replicate ROUNDS [.read, .read, .read, .accu, .accu, .accu]).flatten =
      some ⟨0, 1, 7, ⟨5, .wait⟩, ⟨5, .wait⟩, 35⟩ := by decide +kernel
  obtain ⟨-, -, hiff, hsum⟩ := sum_complete hrun
  have hthirtyfive : sumAfter (fun _ => some 7) ROUNDS = 35 := by decide +kernel
  exact ⟨_, hrun, (hsum (hiff.mpr ⟨rfl, rfl⟩)).trans hthirtyfive⟩

end NetDemo.Linux.Semaphore
