import NetDemo.Server.References
import NetDemo.Server.Sockets

/-! `m_nConnClientCnt` and the limit `m_nMaxConnClientCnt`, which `handleAccept` compares first and
counts after. -/

namespace NetDemo.Server
open Foundation Memory Http Client

/-! ### The accepts in flight -/

def Instr.reposts : Instr → ℕ
  | .associate | .enterIoLoop | .postAccept => 1
  | _ => 0

theorem reposts_plain (instr : Instr) (h : instr.plain) : instr.reposts = 0 := by
  cases instr with
  | associate | enterIoLoop | postAccept => cases h
  | _ => rfl

namespace IocpServer
variable {app : App} {s s' : IocpServer}

def accepting (s : IocpServer) : ℕ :=
  s.accepts + s.acceptors.length + s.total (ClientContext.weigh Instr.reposts)

theorem accepts_postAccept_le (s : IocpServer) (ok : Bool) : (s.postAccept ok).accepts ≤ s.accepts + 1 := by
  cases ok
  · exact Nat.le_succ _
  · exact le_rfl

theorem reposts_exec (cl : ClientContext) (app : App) (ok : Bool) (s : IocpServer) (c : ℕ) (instr : Instr) :
    (s.outside c ok instr).accepts + ((cl.exec app ok instr).2.map Instr.reposts).sum ≤
      s.accepts + instr.reposts := by
  cases instr with
  | associate => cases ok <;> simp [outside, ClientContext.exec, Instr.reposts]
  | enterIoLoop => exact le_rfl
  | postAccept => exact accepts_postAccept_le s ok
  | closeClient =>
    cases hs : cl.m_socket <;> simp [outside, ClientContext.exec, hs, Instr.reposts]
  | closesocket socket => cases ok <;> exact le_rfl
  | removeClient =>
    simp only [outside, removeClient]
    split_ifs <;> exact le_rfl
  | addClient => exact le_rfl
  | _ =>
    rw [sum_plain reposts_plain (ClientContext.exec_plain (by simp) (by simp) (by simp) app cl ok).2]
    exact le_rfl

theorem accepting_acceptor (h : s.Built) {i : ℕ} {ok : Bool} (hs' : s.step app (.acceptor i ok) = some s') :
    s'.accepting ≤ s.accepting := by
  obtain ⟨⟨stage, socket⟩, hi, rfl⟩ := Option.map_eq_some_iff.mp hs'
  obtain ⟨hlt, -⟩ := List.getElem?_eq_some_iff.mp hi
  have herase := List.length_eraseIdx_of_lt hlt
  cases stage with
  | testLimit =>
    simp only [acceptStep]
    split_ifs <;> simp only [accepting, List.length_set] <;> exact le_rfl
  | countClient =>
    simp only [acceptStep, accepting, List.length_set]
    exact le_rfl
  | allocate =>
    -- The handler of the new context posts the accept that this worker has.
    have htotal := total_allocate h (f := ClientContext.weigh Instr.reposts) rfl i socket ok
    have hweigh : ((s.client s.allocated).seated socket).weigh Instr.reposts =
        (s.client s.allocated).weigh Instr.reposts + 1 := ClientContext.weigh_seated ..
    have hframe : (s.acceptStep i ok (.allocate, socket)).accepts = s.accepts ∧
        (s.acceptStep i ok (.allocate, socket)).acceptors = s.acceptors.eraseIdx i := by
      rw [h.allocate]
      exact ⟨rfl, rfl⟩
    rw [accepting, accepting, hframe.1, hframe.2]
    omega
  | postAccept =>
    cases ok
    all_goals
      simp only [acceptStep, accepting, postAccept, if_true, Bool.false_eq_true, if_false]
      show _ + _ + s.total (ClientContext.weigh Instr.reposts) ≤ _
      omega

theorem accepting_step (h : s.Built) {act : Act} (hs' : s.step app act = some s') :
    s'.accepting ≤ s.accepting := by
  have hcomplete (hact : (∃ c d, act = .recv c d) ∨ ∃ c j n, act = .send c j n) :
      s'.accepting ≤ s.accepting := by
    obtain ⟨c, cl, code, hne, rfl, -, hrun, hcode⟩ := step_complete hact hs'
    exact le_of_eq (congrArg (s.accepts + s.acceptors.length + ·)
      (total_handler reposts_plain h hne hrun hcode))
  cases act with
  | accept =>
    simp only [step] at hs'
    split_ifs at hs' with hpos
    obtain rfl := Option.some.inj hs'
    simp only [accepting, List.length_append, List.length_singleton]
    show _ + _ + s.total (ClientContext.weigh Instr.reposts) ≤ _
    omega
  | acceptor i ok => exact accepting_acceptor h hs'
  | recv c d => exact hcomplete (.inl ⟨c, d, rfl⟩)
  | send c j n => exact hcomplete (.inr ⟨c, j, n, rfl⟩)
  | exec c i ok =>
    obtain ⟨instr, code, pre, post, cl, hi, hgo, -, rfl⟩ := step_exec hs'
    have htotal := total_exec (ClientContext.weigh Instr.reposts) (h.lt_of_running hi) ok instr cl
    have hweigh := hgo.weigh Instr.reposts
    have hle := reposts_exec (s.client c) app ok s c instr
    show (s.outside c ok instr).accepts + (s.outside c ok instr).acceptors.length + _ ≤ _
    rw [(outside_client s c ok instr).2.2, accepting]
    omega

/-- How many workers stand between the comparison with the limit and the increment. -/
def counting (s : IocpServer) : ℕ := s.acceptors.countP fun a => a.1 = .countClient

theorem card_admitted (s : IocpServer) : Multiset.card s.ledger.admitted = s.counting := by
  simp only [ledger, standing, Multiset.card_map, counting, ← Multiset.countP_eq_card_filter,
    Multiset.coe_countP]

theorem entry_eq_pass {act : Act} {socket : ℕ} (h : s.entry act = .pass socket) :
    ∃ i ok, act = .acceptor i ok ∧ s.acceptors[i]? = some (.testLimit, socket) ∧
      s.m_nConnClientCnt < s.m_nMaxConnClientCnt := by
  cases act with
  | accept | recv | send => cases h
  | acceptor i ok =>
    simp only [entry] at h
    split at h
    · next socket' hi =>
      split_ifs at h with hfull
      obtain rfl := Entry.pass.inj h
      exact ⟨i, ok, rfl, hi, not_le.mp hfull⟩
    all_goals cases h
  | exec c i ok =>
    simp only [entry] at h
    split at h <;> cases h

theorem counting_lt {i socket : ℕ} (hi : s.acceptors[i]? = some (.testLimit, socket)) :
    s.counting < s.acceptors.length := by
  refine Nat.lt_of_le_of_ne List.countP_le_length fun heq => ?_
  have hall := List.countP_eq_length.mp heq _ (List.mem_of_getElem? hi)
  simp at hall

/-- What is known about the counter in every state, when nothing is admitted beyond `bound`. -/
structure Counted (max bound : ℕ) (s : IocpServer) : Prop where
  booked : Booked max s
  accepting : s.accepting ≤ POST_ACCEPT_CNT
  within : s.ledger.Within bound

theorem Counted.run {ok : IocpServer → Act → Prop} {max bound : ℕ} (hbound : bound < 2 ^ 32)
    (hroom : ∀ s act socket, s.accepting ≤ POST_ACCEPT_CNT → s.m_nMaxConnClientCnt = max → ok s act →
      s.entry act = .pass socket → s.m_nConnClientCnt + s.counting < bound)
    {acts : List Act} (hmeets : Meets (step app) ok (.new max) acts)
    (hrun : run (step app) (.new max) acts = some s) : Counted max bound s := by
  refine run_invariant (Counted max bound)
    ⟨.new max, le_rfl, ⟨rfl, Nat.zero_le _⟩⟩ (fun s act s' h hok hs' => ?_) hmeets hrun
  obtain ⟨hfit, hnext⟩ := step_ledger h.booked.built hs'
  refine ⟨h.booked.step hs', (accepting_step h.booked.built hs').trans h.accepting, ?_⟩
  rw [hnext]
  refine h.within.next hbound h.booked.sound hfit fun socket hpass => ?_
  rw [card_admitted]
  exact hroom s act socket h.accepting h.booked.limit hok hpass

theorem Counted.cnt_le {max bound : ℕ} (h : Counted max bound s) : s.m_nConnClientCnt ≤ bound :=
  (Nat.le_add_right ..).trans h.within.le

/-- In every run the counter passes the limit by less than the number of accepts in flight. -/
theorem counted_run {max : ℕ} (hmax : max + POST_ACCEPT_CNT ≤ 2 ^ 32) {acts : List Act}
    (hrun : Foundation.run (step app) (.new max) acts = some s) :
    Counted max (max + POST_ACCEPT_CNT - 1) s := by
  have hcnt : POST_ACCEPT_CNT = 10 := rfl
  refine Counted.run (by omega) (fun s act socket hle hlimit _ hpass => ?_)
    (meets_of_forall (fun _ _ => trivial) _ acts) hrun
  obtain ⟨i, -, -, hi, hlt⟩ := entry_eq_pass hpass
  have hcounting := counting_lt hi
  have hlen : s.acceptors.length ≤ s.accepting := by
    unfold accepting
    omega
  omega

end IocpServer

/-! ### Below the limit -/

/-- A worker that finds the counter below the limit finds room for all that are about to count, too. -/
def Room (s : IocpServer) : Act → Prop
  | .acceptor i _ => ∀ socket, s.acceptors[i]? = some (.testLimit, socket) →
      s.m_nConnClientCnt < s.m_nMaxConnClientCnt → s.m_nConnClientCnt + s.counting < s.m_nMaxConnClientCnt
  | _ => True

instance (s : IocpServer) : DecidablePred (Room s)
  | .acceptor i _ => decidable_of_iff ((s.acceptors[i]?).all fun
      | (.testLimit, _) => s.m_nConnClientCnt < s.m_nMaxConnClientCnt →
          s.m_nConnClientCnt + s.counting < s.m_nMaxConnClientCnt
      | _ => true) <| by
    rw [Option.all_eq_true]
    refine ⟨fun h socket hi => of_decide_eq_true (h _ hi), fun h a hi => ?_⟩
    obtain ⟨stage, socket⟩ := a
    cases stage with
    | testLimit => exact decide_eq_true (h socket hi)
    | _ => rfl
  | .accept | .recv .. | .send .. | .exec .. => .isTrue trivial

/-- The counter never exceeds the limit as long as no worker passes the comparison while others that
passed it are about to take the last places. -/
theorem cnt_le_of_room {app : App} {max : ℕ} {acts : List Act}
    (hmeets : Meets (IocpServer.step app) Room (.new max) acts) {s : IocpServer}
    (hrun : run (IocpServer.step app) (.new max) acts = some s) :
    s.m_nConnClientCnt ≤ s.m_nMaxConnClientCnt := by
  have hbooked := Booked.run hrun
  rw [hbooked.limit]
  rcases Nat.lt_or_ge max (2 ^ 32) with hmax | hmax
  · refine (IocpServer.Counted.run hmax (fun s act socket _ hlimit hroom hpass => ?_) hmeets hrun).cnt_le
    obtain ⟨i, ok, rfl, hi, hlt⟩ := IocpServer.entry_eq_pass hpass
    rw [← hlimit]
    exact hroom socket hi hlt
  · -- A counter of 32 bits cannot pass such a limit.
    exact hbooked.sound.word.le.trans hmax

/-- Two workers accept at once where there are two places, and a third connection is refused. -/
def pair : List Act :=
  [.accept, .accept, .acceptor 0 true, .acceptor 1 true, .acceptor 1 true, .acceptor 0 true, .accept,
    .acceptor 2 true, .acceptor 0 true, .acceptor 0 true]

theorem cnt_le_of_room_pair : ∃ s, run (IocpServer.step .echo) (.new 2) pair = some s ∧
    s.m_nConnClientCnt = 2 ∧ s.closed = [2] ∧ s.m_nConnClientCnt ≤ s.m_nMaxConnClientCnt := by
  have hend : (run (IocpServer.step .echo) (.new 2) pair).any fun s =>
      decide (s.m_nConnClientCnt = 2 ∧ s.closed = [2]) := by
    decide +kernel
  obtain ⟨s, hs, hcnt⟩ := exists_of_any hend
  exact ⟨s, hs, (of_decide_eq_true hcnt).1, (of_decide_eq_true hcnt).2, cnt_le_of_room (by decide +kernel) hs⟩

/-- Two workers find the only place free before one of them counts. -/
theorem exists_limit_lt_cnt : ∃ acts s, run (IocpServer.step .echo) (.new 1) acts = some s ∧
    s.m_nMaxConnClientCnt < s.m_nConnClientCnt := by
  have hover : (run (IocpServer.step .echo) (.new 1) [.accept, .accept, .acceptor 0 true, .acceptor 1 true,
      .acceptor 0 true, .acceptor 1 true]).any fun s =>
        decide (s.m_nMaxConnClientCnt < s.m_nConnClientCnt) := by
    decide +kernel
  obtain ⟨s, hs, hend⟩ := exists_of_any hover
  exact ⟨_, s, hs, of_decide_eq_true hend⟩

end NetDemo.Server
