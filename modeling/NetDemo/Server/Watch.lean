import NetDemo.Server.Heartbeat

/-! Whom a scan of the heartbeat closes, and whom it passes over. -/

namespace NetDemo.Server
open Foundation Memory Http Client

/-- `curTime`, or nothing while the timer waits. -/
def HbTimer.curTime : HbTimer → Option ℕ
  | waiting => none
  | woken curTime => some curTime
  | scanning curTime _ => some curTime

/-- What a scan did for a listed client, when it read its `curTime`, when it came to the client or
stopped before it, and when the client was accepted or last sent data. -/
structure Verdict where
  client : ℕ
  posted : Bool
  woken : ℕ
  examined : ℕ
  active : ℕ

/-- `HbServer` under observation: the times that it keeps, in full, the times at which data came from the
clients, and the verdicts of its last scan. -/
structure Watch where
  hb : HbServer
  woken : ℕ
  stamped : ℕ → ℕ
  received : ℕ → List ℕ
  /-- `m_connectedClientList` as the last scan found it. -/
  listed : List ℕ
  verdicts : List Verdict

/-- Whoever is closed was idle when the scan came to it, and whoever is not was not idle when the scan
read its `curTime`. -/
def Verdict.Fair (v : Verdict) : Prop :=
  if v.posted then v.active + HEARTBEAT_TIMEOUT < v.examined else v.woken ≤ v.active + HEARTBEAT_TIMEOUT

instance : DecidablePred Verdict.Fair := fun v => by unfold Verdict.Fair; infer_instance

namespace Watch

def new (m_nMaxConnClientCnt : ℕ) : Watch := ⟨.new m_nMaxConnClientCnt, 0, fun _ => 0, fun _ => [], [], []⟩

/-- When the client was accepted or last sent data. -/
def active (w : Watch) (c : ℕ) : ℕ := (w.received c).foldr max (w.stamped c)

/-- What a step means for the times. -/
def note (w : Watch) : HbAct → Watch
  | .work (.acceptor i _) _ =>
    match w.hb.server.acceptors[i]? with
    | some (.allocate, _) => { w with
        stamped := Function.update w.stamped w.hb.server.allocated w.hb.clock
        received := Function.update w.received w.hb.server.allocated [] }
    | _ => w
  | .work (.recv c (some _)) _ => { w with
      received := Function.update w.received c (w.hb.clock :: w.received c) }
  | .wake => { w with woken := w.hb.clock }
  | .lock => { w with listed := w.hb.server.m_connectedClientList, verdicts := [] }
  | _ => w

/-- The clients that the scan has done with, as the step to `hb` shows it. -/
def passed (w : Watch) (hb : HbServer) : List ℕ :=
  w.hb.timer.rest.take (w.hb.timer.rest.length - hb.timer.rest.length)

/-- A client is posted when its completion is new in the port. -/
def judge (w : Watch) (hb : HbServer) : Watch := { w with
  hb := hb
  verdicts := w.verdicts ++ (w.passed hb).map fun c =>
    ⟨c, (hb.m_hComPort.drop w.hb.m_hComPort.length).any fun post => post.client = c, w.woken, w.hb.clock,
      w.active c⟩ }

def step (app : App) (w : Watch) (act : HbAct) : Option Watch := (w.hb.step app act).map (w.note act).judge

/-- Every client that the scan has done with has a fair verdict. -/
def Just (w : Watch) : Prop :=
  (∀ v ∈ w.verdicts, v.Fair) ∧ ∀ curTime rest, w.hb.timer = .scanning curTime rest →
    w.verdicts.map Verdict.client ++ rest = w.listed

/-- The client that the scan looks at was stamped before `curTime`, and less than 2^32 milliseconds
before. Is the stamp old, nothing was received from the client in the last ten seconds, and the close can
be posted. Is it not, no client with an old stamp is behind it. -/
def Timely (w : Watch) : HbAct → Prop
  | .scan ok => ∀ c ∈ w.hb.timer.rest.head?,
      w.stamped c ≤ w.woken ∧ w.woken < w.stamped c + 2 ^ 32 ∧
        if HEARTBEAT_TIMEOUT < w.woken - w.stamped c then
          ok ∧ ∀ t ∈ w.received c, t + HEARTBEAT_TIMEOUT < w.hb.clock
        else ∀ x ∈ w.hb.timer.rest.tail, w.woken ≤ w.stamped x + HEARTBEAT_TIMEOUT
  | _ => True

instance (w : Watch) : DecidablePred w.Timely
  | .scan ok => (inferInstance : Decidable (∀ c ∈ w.hb.timer.rest.head?,
      w.stamped c ≤ w.woken ∧ w.woken < w.stamped c + 2 ^ 32 ∧
        if HEARTBEAT_TIMEOUT < w.woken - w.stamped c then
          ok ∧ ∀ t ∈ w.received c, t + HEARTBEAT_TIMEOUT < w.hb.clock
        else ∀ x ∈ w.hb.timer.rest.tail, w.woken ≤ w.stamped x + HEARTBEAT_TIMEOUT))
  | .work .. | .tick _ | .wake | .lock | .close _ | .closer .. => .isTrue trivial

/-! ### The times -/

variable {w : Watch}

/-- While the difference stays below 2^32, the `DWORD`s give it. -/
theorem timedOut_mod {t s : ℕ} (hle : s ≤ t) (hlt : t < s + 2 ^ 32) :
    timedOut (t % 2 ^ 32) (s % 2 ^ 32) = decide (HEARTBEAT_TIMEOUT < t - s) := by
  have hdiff : (t % 2 ^ 32 + 2 ^ 32 - s % 2 ^ 32) % 2 ^ 32 = t - s := by omega
  rw [timedOut, hdiff]

theorem stamped_le_active (w : Watch) (c : ℕ) : w.stamped c ≤ w.active c := by
  unfold active
  induction w.received c with
  | nil => exact Nat.le_refl _
  | cons t times ih => exact ih.trans (Nat.le_max_right _ _)

/-- Whoever was accepted and sent data early enough has been idle since. -/
theorem active_lt {c bound : ℕ} (hstamp : w.stamped c < bound) (hreceived : ∀ t ∈ w.received c, t < bound) :
    w.active c < bound := by
  unfold active
  generalize w.received c = times at hreceived
  induction times with
  | nil => exact hstamp
  | cons t times ih =>
    rw [List.forall_mem_cons] at hreceived
    exact max_lt hreceived.1 (ih hreceived.2)

/-- The `DWORD`s are what the full times leave of themselves. -/
structure Timed (w : Watch) : Prop where
  stamp : ∀ c, w.hb.m_nLastHeartbeatTime c = w.stamped c % 2 ^ 32
  curTime : ∀ curTime ∈ w.hb.timer.curTime, curTime = w.woken % 2 ^ 32
  past : w.woken ≤ w.hb.clock

theorem Timed.new (max : ℕ) : (new max).Timed where
  stamp _ := rfl
  curTime := nofun
  past := Nat.le_refl _

end Watch

namespace HbServer
variable {app : App} {s s' : HbServer}

theorem timer_of_work {act : Act} {j : ℕ} {server : IocpServer} (hstep : s.server.step app act = some server)
    (hwork : s.work app server j act = some s') : s'.timer = s.timer ∧ s'.clock = s.clock := by
  obtain ⟨hworked, -⟩ := worked_of_work hstep hwork
  cases hworked <;> exact ⟨rfl, rfl⟩

theorem closing_frame (s : HbServer) (i : ℕ) (ok : Bool) (post : PostedClose) (stage : Closing) :
    (s.closing i ok post stage).timer = s.timer ∧ (s.closing i ok post stage).clock = s.clock ∧
      (s.closing i ok post stage).m_nLastHeartbeatTime = s.m_nLastHeartbeatTime := by
  cases stage with
  | closeClient =>
    simp only [HbServer.closing]
    split <;> exact ⟨rfl, rfl, rfl⟩
  | closesocket socket => exact ⟨rfl, rfl, rfl⟩
  | releaseClientContext => exact ⟨rfl, rfl, rfl⟩

theorem scan_frame (s : HbServer) (ok : Bool) :
    (s.scan ok).clock = s.clock ∧ (s.scan ok).m_nLastHeartbeatTime = s.m_nLastHeartbeatTime ∧
      ∀ t ∈ (s.scan ok).timer.curTime, t ∈ s.timer.curTime := by
  unfold HbServer.scan
  split
  next t htimer => exact ⟨rfl, rfl, nofun⟩
  next t c rest htimer =>
    rw [htimer]
    split_ifs
    · exact ⟨rfl, rfl, fun _ hu => hu⟩
    · exact ⟨rfl, rfl, fun _ hu => hu⟩
  · exact ⟨rfl, rfl, fun _ hu => hu⟩

end HbServer

namespace Watch
variable {app : App} {w w' : Watch}

theorem Timed.work (h : w.Timed) {act : Act} {j : ℕ} {hb : HbServer}
    (hs : w.hb.step app (.work act j) = some hb) : ((w.note (.work act j)).judge hb).Timed := by
  obtain ⟨server, hstep, hwork⟩ := Option.bind_eq_some_iff.1 hs
  obtain ⟨htimer, hclock⟩ := HbServer.timer_of_work hstep hwork
  have hkeep {v : Watch} (hstamp : ∀ c, hb.m_nLastHeartbeatTime c = v.stamped c % 2 ^ 32)
      (hwoken : v.woken = w.woken) : (v.judge hb).Timed := by
    refine ⟨hstamp, fun t ht => ?_, ?_⟩
    · exact (h.curTime t (htimer ▸ ht)).trans (congrArg (· % 2 ^ 32) hwoken.symm)
    · exact (hwoken.trans_le h.past).trans_eq hclock.symm
  cases act with
  | accept =>
    obtain rfl := Option.some.inj hwork
    exact hkeep h.stamp rfl
  | acceptor i ok =>
    obtain ⟨⟨stage, socket⟩, hi, rfl⟩ := Option.map_eq_some_iff.1 hstep
    simp only [HbServer.work, hi, Option.ite_none_left_eq_some] at hwork
    cases stage with
    | allocate =>
      obtain ⟨-, hwork⟩ := hwork
      obtain rfl := Option.some.inj hwork
      simp only [note, hi]
      refine hkeep (fun c => ?_) rfl
      dsimp only [HbServer.setOrigin]
      by_cases hc : c = w.hb.server.allocated
      · rw [hc, Function.update_self, Function.update_self]
      · rw [Function.update_of_ne hc, Function.update_of_ne hc]
        exact h.stamp c
    | testLimit | countClient | postAccept =>
      obtain ⟨-, hwork⟩ := hwork
      obtain rfl := Option.some.inj hwork
      simp only [note, hi]
      exact hkeep h.stamp rfl
  | recv c m_recvBuf =>
    obtain ⟨connection, -, rfl⟩ := Option.map_eq_some_iff.1 hwork
    cases m_recvBuf <;> exact hkeep h.stamp rfl
  | send c k n =>
    obtain ⟨connection, -, rfl⟩ := Option.map_eq_some_iff.1 hwork
    exact hkeep h.stamp rfl
  | exec c i ok =>
    simp only [HbServer.work, Option.ite_none_left_eq_some] at hwork
    obtain ⟨-, hwork⟩ := hwork
    split at hwork
    · obtain rfl := Option.some.inj hwork
      exact hkeep h.stamp rfl
    · cases hwork

theorem Timed.step (h : w.Timed) {act : HbAct} (hs : w.step app act = some w') : w'.Timed := by
  obtain ⟨hb, hstep, rfl⟩ := Option.map_eq_some_iff.1 hs
  cases HbServer.stepped_of_step hstep with
  | work => exact h.work hstep
  | tick => exact ⟨h.stamp, h.curTime, Nat.le_add_right_of_le h.past⟩
  | wake => exact ⟨h.stamp, fun t ht => (Option.some.inj ht).symm, Nat.le_refl _⟩
  | lock curTime htimer =>
    refine ⟨h.stamp, fun t ht => h.curTime t ?_, h.past⟩
    rw [htimer]
    exact ht
  | scan ok =>
    obtain ⟨hclock, hstamp, htimer⟩ := w.hb.scan_frame ok
    exact ⟨fun c => (congrFun hstamp c).trans (h.stamp c), fun t ht => h.curTime t (htimer t ht),
      h.past.trans_eq hclock.symm⟩
  | close => exact ⟨h.stamp, h.curTime, h.past⟩
  | closer i ok post stage =>
    obtain ⟨htimer, hclock, hstamp⟩ := w.hb.closing_frame i ok post stage
    exact ⟨fun c => (congrFun hstamp c).trans (h.stamp c), fun t ht => h.curTime t (htimer ▸ ht),
      h.past.trans_eq hclock.symm⟩

/-! ### The verdicts -/

theorem judge_of_le {hb : HbServer} (h : w.hb.timer.rest.length ≤ hb.timer.rest.length) :
    w.judge hb = { w with hb := hb } := by
  rw [judge, passed, Nat.sub_eq_zero_of_le h, List.take_zero, List.map_nil, List.append_nil]

theorem note_work (act : Act) (j : ℕ) : (w.note (.work act j)).hb = w.hb ∧
    (w.note (.work act j)).listed = w.listed ∧ (w.note (.work act j)).verdicts = w.verdicts := by
  cases act with
  | acceptor i ok =>
    simp only [note]
    split <;> exact ⟨rfl, rfl, rfl⟩
  | recv c m_recvBuf => cases m_recvBuf <;> exact ⟨rfl, rfl, rfl⟩
  | _ => exact ⟨rfl, rfl, rfl⟩

theorem Just.frame (h : w.Just) {v : Watch} {hb : HbServer} (hv : v.hb = w.hb) (hlisted : v.listed = w.listed)
    (hverdicts : v.verdicts = w.verdicts) (htimer : hb.timer = w.hb.timer) : (v.judge hb).Just := by
  rw [judge_of_le (by rw [hv, htimer])]
  refine ⟨fun x hx => h.1 x (hverdicts ▸ hx), fun t rest hrest => ?_⟩
  dsimp only at hrest ⊢
  rw [hverdicts, hlisted]
  exact h.2 t rest (htimer ▸ hrest)

theorem judge_posted {t c : ℕ} {rest : List ℕ} {ok : Bool} (htimer : w.hb.timer = .scanning t (c :: rest))
    (hpost : timedOut t (w.hb.m_nLastHeartbeatTime c) ∧ ok) : w.judge (w.hb.scan ok) = { w with
      hb := w.hb.scan ok
      verdicts := w.verdicts ++ [⟨c, true, w.woken, w.hb.clock, w.active c⟩] } := by
  have hscan : w.hb.scan ok = { w.hb with
      timer := .scanning t rest
      m_hComPort := w.hb.m_hComPort ++ [⟨c, (w.hb.origin c).connection⟩] } := by
    simp only [HbServer.scan, htimer, if_pos hpost]
  have hpassed : w.passed (w.hb.scan ok) = [c] := by
    rw [passed, hscan, htimer]
    simp [HbTimer.rest]
  rw [judge, hpassed, hscan]
  simp

theorem judge_left {t c : ℕ} {rest : List ℕ} {ok : Bool} (htimer : w.hb.timer = .scanning t (c :: rest))
    (hleft : ¬ (timedOut t (w.hb.m_nLastHeartbeatTime c) ∧ ok)) : w.judge (w.hb.scan ok) = { w with
      hb := w.hb.scan ok
      verdicts := w.verdicts ++ (c :: rest).map fun x => ⟨x, false, w.woken, w.hb.clock, w.active x⟩ } := by
  have hscan : w.hb.scan ok = { w.hb with timer := .scanning t [] } := by
    simp only [HbServer.scan, htimer, if_neg hleft]
  have hpassed : w.passed (w.hb.scan ok) = c :: rest := by
    rw [passed, hscan, htimer]
    simp [HbTimer.rest]
  rw [judge, hpassed, hscan]
  simp

theorem Just.scan (h : w.Just) (ht : w.Timed) {ok : Bool} (hok : w.Timely (.scan ok)) {t : ℕ} {list : List ℕ}
    (htimer : w.hb.timer = .scanning t list) : (w.judge (w.hb.scan ok)).Just := by
  cases list with
  | nil =>
    have hscan : w.hb.scan ok = { w.hb with timer := .waiting } := by simp only [HbServer.scan, htimer]
    rw [judge_of_le (by rw [htimer]; exact Nat.zero_le _)]
    exact ⟨h.1, by rw [hscan]; exact nofun⟩
  | cons c rest =>
    have hlisted := h.2 t _ htimer
    have ht' : t = w.woken % 2 ^ 32 := ht.curTime t (by rw [htimer]; rfl)
    have hpast := ht.past
    obtain ⟨hle, hlt, htimely⟩ := hok c (by rw [htimer]; rfl)
    have hout : timedOut t (w.hb.m_nLastHeartbeatTime c) =
        decide (HEARTBEAT_TIMEOUT < w.woken - w.stamped c) := by
      rw [ht', ht.stamp c, timedOut_mod hle hlt]
    by_cases hold' : HEARTBEAT_TIMEOUT < w.woken - w.stamped c
    · -- The client gets its close, and the scan goes on to the next one.
      rw [if_pos hold'] at htimely
      have hpost : timedOut t (w.hb.m_nLastHeartbeatTime c) ∧ ok :=
        ⟨by rw [hout]; exact decide_eq_true hold', htimely.1⟩
      have hscan : (w.hb.scan ok).timer = .scanning t rest := by
        simp only [HbServer.scan, htimer, if_pos hpost]
      rw [judge_posted htimer hpost]
      refine ⟨fun v hv => ?_, fun u rest' hrest => ?_⟩
      · rcases List.mem_append.1 hv with hv | hv
        · exact h.1 v hv
        · rw [List.mem_singleton.1 hv]
          have hidle : w.active c < w.hb.clock - HEARTBEAT_TIMEOUT :=
            active_lt (by omega) fun t ht => Nat.lt_sub_of_add_lt (htimely.2 t ht)
          exact Nat.add_lt_of_lt_sub hidle
      · obtain ⟨-, rfl⟩ := HbTimer.scanning.inj (hscan.symm.trans hrest)
        rw [← hlisted, List.map_append, List.append_assoc]
        rfl
    · -- The scan leaves the loop, and all that are left go without a close.
      rw [if_neg hold'] at htimely
      have hleft : ¬ (timedOut t (w.hb.m_nLastHeartbeatTime c) ∧ ok) := by
        rw [hout]
        exact fun hpost => hold' (of_decide_eq_true hpost.1)
      have hscan : (w.hb.scan ok).timer = .scanning t [] := by
        simp only [HbServer.scan, htimer, if_neg hleft]
      have hactive : ∀ x ∈ c :: rest, w.woken ≤ w.active x + HEARTBEAT_TIMEOUT := by
        intro x hx
        have hstamp := w.stamped_le_active x
        rcases List.mem_cons.1 hx with rfl | hx
        · omega
        · have hyoung := htimely x (by rw [htimer]; exact hx)
          omega
      rw [judge_left htimer hleft]
      refine ⟨fun v hv => ?_, fun u rest' hrest => ?_⟩
      · rcases List.mem_append.1 hv with hv | hv
        · exact h.1 v hv
        · obtain ⟨x, hx, rfl⟩ := List.mem_map.1 hv
          exact hactive x hx
      · obtain ⟨-, rfl⟩ := HbTimer.scanning.inj (hscan.symm.trans hrest)
        rw [← hlisted, List.map_append, List.map_map, List.append_nil]
        exact congrArg _ (List.map_id _)

theorem Just.step (h : w.Just) (ht : w.Timed) {act : HbAct} (hok : w.Timely act)
    (hs : w.step app act = some w') : w'.Just := by
  obtain ⟨hb, hstep, rfl⟩ := Option.map_eq_some_iff.1 hs
  cases HbServer.stepped_of_step hstep with
  | work act j server _ hserver hwork =>
    obtain ⟨hhb, hlisted, hverdicts⟩ := note_work (w := w) act j
    exact h.frame hhb hlisted hverdicts (HbServer.timer_of_work hserver hwork).1
  | tick => exact h.frame rfl rfl rfl rfl
  | wake htimer =>
    rw [judge_of_le (by dsimp only [note]; rw [htimer]; exact Nat.zero_le _)]
    refine ⟨h.1, fun u rest hrest => ?_⟩
    cases hrest
  | lock curTime htimer =>
    rw [judge_of_le (by dsimp only [note]; rw [htimer]; exact Nat.zero_le _)]
    refine ⟨fun v hv => absurd hv List.not_mem_nil, fun u rest hrest => ?_⟩
    obtain ⟨-, rfl⟩ := HbTimer.scanning.inj hrest
    rfl
  | scan ok curTime list htimer => exact h.scan ht hok htimer
  | close => exact h.frame rfl rfl rfl rfl
  | closer i ok post stage => exact h.frame rfl rfl rfl (w.hb.closing_frame i ok post stage).1

/-- As long as the stamps tell whoever is idle when a scan looks at them, the scan closes exactly the idle
clients. -/
theorem just_of_timely {app : App} {max : ℕ} {acts : List HbAct} {w : Watch}
    (hmeets : Meets (step app) Timely (.new max) acts) (hrun : run (step app) (.new max) acts = some w) :
    w.Just :=
  (run_invariant (fun w => w.Just ∧ w.Timed) ⟨⟨nofun, nofun⟩, .new max⟩
    (fun _ _ _ h hok hs => ⟨h.1.step h.2 hok hs, h.2.step hs⟩) hmeets hrun).1

/-- The only client sends a byte, and then nothing for twelve seconds. -/
theorem just_of_timely_idle :
    ∃ w, run (step .echo) (.new 1) (works connect ++ [.tick 3000, .work (.recv 0 (some [1])) 0, .tick 12000,
      .wake, .lock, .scan true]) = some w ∧ w.verdicts.map Verdict.posted = [true] ∧ w.Just := by
  have hend : (run (step .echo) (.new 1) (works connect ++ [.tick 3000, .work (.recv 0 (some [1])) 0,
      .tick 12000, .wake, .lock, .scan true])).any fun w => decide (w.verdicts.map Verdict.posted = [true]) := by
    decide +kernel
  obtain ⟨w, hw, hposted⟩ := exists_of_any hend
  exact ⟨w, hw, of_decide_eq_true hposted, just_of_timely (by decide +kernel) hw⟩

/-- A client that sent a byte six seconds ago is closed, and so is one that was accepted after the timer
read `curTime`. -/
theorem not_just_receive :
    (∃ w, run (step .echo) (.new 1) (works connect ++ [.tick 6000, .work (.recv 0 (some [1])) 0, .tick 6000,
      .wake, .lock, .scan true]) = some w ∧ ¬ w.Just) ∧
    ∃ w, run (step .echo) (.new 1) ([.wake, .tick 1] ++ works connect ++ [.lock, .scan true]) = some w ∧
      ¬ w.Just := by
  have hreceive : (run (step .echo) (.new 1) (works connect ++ [.tick 6000, .work (.recv 0 (some [1])) 0,
      .tick 6000, .wake, .lock, .scan true])).any fun w => decide (¬ ∀ v ∈ w.verdicts, v.Fair) := by
    decide +kernel
  have haccept : (run (step .echo) (.new 1) ([.wake, .tick 1] ++ works connect ++ [.lock, .scan true])).any
      fun w => decide (¬ ∀ v ∈ w.verdicts, v.Fair) := by decide +kernel
  obtain ⟨w, hw, hunfair⟩ := exists_of_any hreceive
  obtain ⟨w', hw', hunfair'⟩ := exists_of_any haccept
  exact ⟨⟨w, hw, fun h => of_decide_eq_true hunfair h.1⟩, w', hw', fun h => of_decide_eq_true hunfair' h.1⟩

end Watch
end NetDemo.Server
