import NetDemo.Server.References
import NetDemo.Server.Sockets

/-! Who sends what is in `m_outBuf`. A message that finds it empty is posted, and every completion posts
what is left or the next message; so a chain of sends that breaks off with bytes in `m_outBuf` is never
taken up again, by no later connection either: neither `reset` nor anything else empties `m_outBuf`. -/

namespace NetDemo.Server
open Foundation Memory Http Client

/-- The instructions from which a chain of sends goes on. -/
def Instr.drives : Instr → ℕ
  | .postSend | .handleSend _ => 1
  | _ => 0

/-- The calls of `WSASend` in flight, and the handlers that post the next one or find nothing to send. -/
def ClientContext.drivers (cl : ClientContext) : ℕ := cl.sends.length + cl.weigh Instr.drives

/-- Whatever is in `m_outBuf` is being sent, and messages wait only behind it. -/
structure Driven (cl : ClientContext) : Prop where
  drivers : cl.drivers = cl.busy
  queue : cl.m_outBufQueue ≠ [] → 0 ≠ cl.outLen

/-- There are bytes in `m_outBuf` that nobody sends. -/
structure Mute (cl : ClientContext) : Prop where
  drivers : cl.drivers = 0
  outLen : 0 ≠ cl.outLen

/-- Neither `WSASend` nor the completion of one fails on the context `c`. -/
def Continues (c : ℕ) (s : IocpServer) : Act → Prop
  | .exec d i ok => d = c → s.next? c i = some .postSend → (s.client c).m_socket.isSome ∧ ok = true
  | .send d _ dwBytesTransferred => d = c → dwBytesTransferred.isSome
  | _ => True

instance (c : ℕ) (s : IocpServer) : DecidablePred (Continues c s)
  | .exec d i ok => inferInstanceAs (Decidable
      (d = c → s.next? c i = some .postSend → (s.client c).m_socket.isSome ∧ ok = true))
  | .send d _ n => inferInstanceAs (Decidable (d = c → n.isSome))
  | .accept | .acceptor .. | .recv .. => .isTrue trivial

theorem Driven.not_mute {cl : ClientContext} (h : Driven cl) : ¬ Mute cl := by
  intro hmute
  have hdrivers := h.drivers
  rw [hmute.drivers, ClientContext.busy, if_neg hmute.outLen] at hdrivers
  cases hdrivers

theorem Driven.new : Driven .new := ⟨rfl, fun h => absurd rfl h⟩

/-! ### One instruction -/

theorem drives_reply (w size : ℕ) (ret : ℤ) (codec : HttpCodec) :
    ((ClientContext.reply w size ret codec).map Instr.drives).sum = 0 := by
  unfold ClientContext.reply
  split_ifs <;> rfl

/-- An instruction that has nothing to do with the output. -/
def Instr.aloof : Instr → Bool
  | .send _ | .postSend | .handleSend _ => false
  | _ => true

theorem drives_aloof {instr : Instr} (h : instr.aloof) : instr.drives = 0 := by
  cases instr <;> first | rfl | cases h

namespace ClientContext

/-- What the output is made of stays as it is. -/
structure SameOutput (cl cl' : ClientContext) : Prop where
  outLen : cl'.outLen = cl.outLen
  queue : cl'.m_outBufQueue = cl.m_outBufQueue
  sends : cl'.sends = cl.sends

theorem SameOutput.refl (cl : ClientContext) : SameOutput cl cl := ⟨rfl, rfl, rfl⟩

theorem exitIoLoop_output (cl : ClientContext) : SameOutput cl cl.exitIoLoop.1 ∧
    (cl.exitIoLoop.2.map Instr.drives).sum = 0 := by
  unfold exitIoLoop
  split_ifs <;> exact ⟨⟨rfl, rfl, rfl⟩, rfl⟩

theorem exec_aloof {instr : Instr} (h : instr.aloof) (app : App) (cl : ClientContext) (ok : Bool) :
    SameOutput cl (cl.exec app ok instr).1 ∧ ((cl.exec app ok instr).2.map Instr.drives).sum = 0 := by
  cases instr with
  | send len => cases h
  | postSend => cases h
  | handleSend n => cases h
  | associate => cases ok <;> exact ⟨.refl cl, rfl⟩
  | enterIoLoop => exact ⟨⟨rfl, rfl, rfl⟩, rfl⟩
  | postRecv =>
    rcases cl.exec_postRecv app ok with hexec | hexec <;> rw [hexec] <;> exact ⟨⟨rfl, rfl, rfl⟩, rfl⟩
  | receive d => cases app <;> exact ⟨⟨rfl, rfl, rfl⟩, rfl⟩
  | decode w size codec => exact ⟨.refl cl, drives_reply ..⟩
  | removeAll => exact ⟨⟨rfl, rfl, rfl⟩, rfl⟩
  | closeClient =>
    simp only [exec]
    split <;> exact ⟨⟨rfl, rfl, rfl⟩, rfl⟩
  | exitIoLoop of => exact cl.exitIoLoop_output
  | _ => exact ⟨.refl cl, rfl⟩

theorem SameOutput.busy {cl cl' : ClientContext} (h : SameOutput cl cl') : cl'.busy = cl.busy := by
  rw [ClientContext.busy, ClientContext.busy, h.outLen]

theorem exec_handleSend_cases (cl : ClientContext) (app : App) (hqueue : ∀ n ∈ cl.m_outBufQueue, 0 < n)
    (ok : Bool) (n : ℕ) :
    (cl.m_outBufQueue = [] ∧ SameOutput { cl with outLen := 0 } (cl.exec app ok (.handleSend n)).1 ∧
      ((cl.exec app ok (.handleSend n)).2.map Instr.drives).sum = 0) ∨
    ∃ len rest, 0 < len ∧ cl.exec app ok (.handleSend n) =
      ({ cl with outLen := len, m_outBufQueue := rest }, [.postSend]) := by
  by_cases hout : 0 = cl.outLen - n
  · by_cases hq : cl.m_outBufQueue = []
    · have hexec : cl.exec app ok (.handleSend n) = ({ cl with outLen := 0 } : ClientContext).exitIoLoop := by
        simp only [exec, if_pos hout, hq]
        rw [← hout]
      rw [hexec]
      exact .inl ⟨hq, exitIoLoop_output _⟩
    · obtain ⟨front, rest, hq⟩ := List.exists_cons_of_ne_nil hq
      have hfront : 0 < front := hqueue front (by rw [hq]; exact List.mem_cons_self)
      refine .inr ⟨front, rest, hfront, ?_⟩
      simp only [exec, if_pos hout, hq, if_pos (Nat.ne_of_lt hfront)]
  · refine .inr ⟨cl.outLen - n, cl.m_outBufQueue, by omega, ?_⟩
    simp only [exec, if_neg hout]

end ClientContext
open ClientContext

namespace Goes
variable {cl cl₁ cl' : ClientContext} {instr : Instr} {code more : Code} {pre post : List Code}

theorem drivers (h : Goes cl cl' instr code more pre post) :
    cl'.drivers + (cl.sends.length + instr.drives) =
      cl.drivers + (cl'.sends.length + (more.map Instr.drives).sum) := by
  have hweigh := h.weigh Instr.drives
  rw [ClientContext.drivers, ClientContext.drivers]
  omega

end Goes

theorem Driven.of_same {cl cl' : ClientContext} (h : Driven cl) (hsame : SameOutput cl cl')
    (hdrivers : cl'.drivers = cl.drivers) : Driven cl' where
  drivers := by rw [hdrivers, h.drivers, hsame.busy]
  queue := by
    rw [hsame.queue, hsame.outLen]
    exact h.queue

theorem Mute.of_same {cl cl' : ClientContext} (h : Mute cl) (hsame : SameOutput cl cl')
    (hdrivers : cl'.drivers = cl.drivers) : Mute cl' where
  drivers := by rw [hdrivers, h.drivers]
  outLen := by
    rw [hsame.outLen]
    exact h.outLen

theorem Goes.le_drivers {cl cl' : ClientContext} {instr : Instr} {code more : Code} {pre post : List Code}
    (h : Goes cl cl' instr code more pre post) : cl.sends.length + instr.drives ≤ cl.drivers := by
  rw [ClientContext.drivers, ClientContext.weigh, h.before]
  simp only [List.flatten_append, List.flatten_cons, List.map_append, List.map_cons, List.sum_append,
    List.sum_cons, List.cons_append]
  omega

section
variable {app : App} {cl cl' : ClientContext} {i : ℕ} {instr : Instr} {code : Code} {ok : Bool}

theorem goes_of_exec (hi : cl.running[i]? = some (instr :: code))
    (hcl' : cl' = { (cl.exec app ok instr).1 with
      running := resume cl.running i ((cl.exec app ok instr).2 ++ code) }) :
    ∃ pre post, Goes cl cl' instr code (cl.exec app ok instr).2 pre post ∧
      SameOutput (cl.exec app ok instr).1 cl' := by
  obtain ⟨pre, post, hrun, hres⟩ := resume_split hi
  rw [hcl']
  exact ⟨pre, post, ⟨hrun, hres _⟩, ⟨rfl, rfl, rfl⟩⟩

theorem sameOutput_of_aloof (hi : cl.running[i]? = some (instr :: code))
    (hcl' : cl' = { (cl.exec app ok instr).1 with
      running := resume cl.running i ((cl.exec app ok instr).2 ++ code) }) (haloof : instr.aloof) :
    SameOutput cl cl' ∧ cl'.drivers = cl.drivers := by
  obtain ⟨pre, post, hgoes, hsame⟩ := goes_of_exec hi hcl'
  obtain ⟨hexec, hmore⟩ := cl.exec_aloof haloof app ok
  have hdrivers := hgoes.drivers
  have hsends : cl'.sends = cl.sends := hsame.sends.trans hexec.sends
  rw [hmore, drives_aloof haloof, hsends] at hdrivers
  exact ⟨⟨hsame.outLen.trans hexec.outLen, hsame.queue.trans hexec.queue, hsends⟩, by omega⟩

theorem Driven.exec_send (h : Driven cl) {len : ℕ} (hi : cl.running[i]? = some (.send len :: code))
    (hlen : 0 < len) (hcl' : cl' = { (cl.exec app ok (.send len)).1 with
      running := resume cl.running i ((cl.exec app ok (.send len)).2 ++ code) }) : Driven cl' := by
  obtain ⟨pre, post, hgoes, hsame⟩ := goes_of_exec hi hcl'
  have hdrivers := hgoes.drivers
  have hdriven := h.drivers
  by_cases hout : 0 = cl.outLen
  · have hexec : cl.exec app ok (.send len) = ({ cl.enterIoLoop with outLen := len }, [.postSend]) := if_pos hout
    rw [hexec] at hsame hdrivers
    have hsends : cl'.sends = cl.sends := hsame.sends
    have hbusy' : cl'.busy = 1 := hsame.busy.trans (if_neg (Nat.ne_of_lt hlen))
    rw [ClientContext.busy, if_pos hout] at hdriven
    rw [hsends, show (Instr.send len).drives = 0 from rfl,
      show ([Instr.postSend].map Instr.drives).sum = 1 from rfl] at hdrivers
    refine ⟨by omega, fun _ => ?_⟩
    rw [hsame.outLen]
    exact Nat.ne_of_lt hlen
  · have hexec : cl.exec app ok (.send len) =
        ({ cl with m_outBufQueue := cl.m_outBufQueue ++ [len] }, []) := if_neg hout
    rw [hexec] at hsame hdrivers
    have hsends : cl'.sends = cl.sends := hsame.sends
    have hbusy' : cl'.busy = cl.busy := hsame.busy
    rw [hsends, show (Instr.send len).drives = 0 from rfl, List.map_nil, List.sum_nil] at hdrivers
    refine ⟨by omega, fun _ => ?_⟩
    rw [hsame.outLen]
    exact hout

theorem Driven.exec_postSend (h : Driven cl) (hi : cl.running[i]? = some (.postSend :: code))
    (hok : cl.m_socket.isSome ∧ ok = true) (hcl' : cl' = { (cl.exec app ok .postSend).1 with
      running := resume cl.running i ((cl.exec app ok .postSend).2 ++ code) }) : Driven cl' := by
  obtain ⟨pre, post, hgoes, hsame⟩ := goes_of_exec hi hcl'
  have hexec : cl.exec app ok .postSend = ({ cl with sends := cl.sends ++ [cl.outLen] }, []) := by
    obtain ⟨socket, hsocket⟩ := Option.isSome_iff_exists.mp hok.1
    simp [ClientContext.exec, ClientContext.postSend, hsocket, hok.2]
  have hdrivers := hgoes.drivers
  rw [hexec] at hsame hdrivers
  have hsends : cl'.sends.length = cl.sends.length + 1 := by
    rw [hsame.sends, List.length_append, List.length_singleton]
  have hbusy' : cl'.busy = cl.busy := hsame.busy
  have hdriven := h.drivers
  rw [show Instr.postSend.drives = 1 from rfl, List.map_nil, List.sum_nil] at hdrivers
  refine ⟨by omega, ?_⟩
  rw [hsame.queue, hsame.outLen]
  exact h.queue

/-- What was to be sent stays in `m_outBuf`. -/
theorem Driven.breaks (h : Driven cl) (hi : cl.running[i]? = some (.postSend :: code))
    (hno : ¬ (cl.m_socket.isSome ∧ ok = true)) (hcl' : cl' = { (cl.exec app ok .postSend).1 with
      running := resume cl.running i ((cl.exec app ok .postSend).2 ++ code) }) : Mute cl' := by
  obtain ⟨pre, post, hgoes, hsame⟩ := goes_of_exec hi hcl'
  have hexec : (cl.exec app ok .postSend).1 = cl ∧
      ((cl.exec app ok .postSend).2.map Instr.drives).sum = 0 := by
    cases hsocket : cl.m_socket with
    | none => simp [ClientContext.exec, ClientContext.postSend, hsocket]
    | some socket =>
      have hfalse : ok = false := by simpa [hsocket] using hno
      simp [ClientContext.exec, ClientContext.postSend, hsocket, hfalse, ClientContext.closeAndRelease,
        Instr.drives]
  have hdrivers := hgoes.drivers
  have hle := hgoes.le_drivers
  have hdriven := h.drivers
  have hbusy := cl.busy_le
  rw [hexec.1] at hsame
  rw [hexec.2, hsame.sends] at hdrivers
  rw [show Instr.postSend.drives = 1 from rfl] at hdrivers hle
  refine ⟨by omega, fun hout => ?_⟩
  rw [hsame.outLen] at hout
  rw [ClientContext.busy, if_pos hout] at hdriven
  omega

theorem Driven.exec_handleSend (h : Driven cl) (hqueue : ∀ n ∈ cl.m_outBufQueue, 0 < n) {n : ℕ}
    (hi : cl.running[i]? = some (.handleSend n :: code))
    (hcl' : cl' = { (cl.exec app ok (.handleSend n)).1 with
      running := resume cl.running i ((cl.exec app ok (.handleSend n)).2 ++ code) }) : Driven cl' := by
  obtain ⟨pre, post, hgoes, hsame⟩ := goes_of_exec hi hcl'
  have hdrivers := hgoes.drivers
  have hone : cl.drivers = 1 := by
    have hle := hgoes.le_drivers
    have hdriven := h.drivers
    have hbusy := cl.busy_le
    rw [show (Instr.handleSend n).drives = 1 from rfl] at hle
    omega
  rw [show (Instr.handleSend n).drives = 1 from rfl, hone] at hdrivers
  rcases cl.exec_handleSend_cases app hqueue ok n with ⟨hempty, hout, hmore⟩ | ⟨len, rest, hlen, hexec⟩
  · have hsends : cl'.sends = cl.sends := hsame.sends.trans hout.sends
    rw [hsends, hmore] at hdrivers
    have hbusy' : cl'.busy = 0 := hsame.busy.trans hout.busy
    refine ⟨by omega, fun hne => absurd ?_ hne⟩
    rw [hsame.queue, hout.queue, hempty]
  · rw [hexec] at hsame hdrivers
    have hsends : cl'.sends = cl.sends := hsame.sends
    have hbusy' : cl'.busy = 1 := hsame.busy.trans (if_neg (Nat.ne_of_lt hlen))
    rw [hsends, show ([Instr.postSend].map Instr.drives).sum = 1 from rfl] at hdrivers
    refine ⟨by omega, fun _ => ?_⟩
    rw [hsame.outLen]
    exact Nat.ne_of_lt hlen

theorem Mute.exec (h : Mute cl) (hi : cl.running[i]? = some (instr :: code))
    (hcl' : cl' = { (cl.exec app ok instr).1 with
      running := resume cl.running i ((cl.exec app ok instr).2 ++ code) }) : Mute cl' := by
  obtain ⟨pre, post, hgoes, hsame⟩ := goes_of_exec hi hcl'
  have hle := hgoes.le_drivers
  rw [h.drivers] at hle
  cases instr with
  | postSend => exact absurd hle (by simp [Instr.drives])
  | handleSend n => exact absurd hle (by simp [Instr.drives])
  | send len =>
    have hexec : cl.exec app ok (.send len) =
        ({ cl with m_outBufQueue := cl.m_outBufQueue ++ [len] }, []) := if_neg h.outLen
    have hdrivers := hgoes.drivers
    rw [hexec] at hsame hdrivers
    have hsends : cl'.sends = cl.sends := hsame.sends
    rw [hsends, show (Instr.send len).drives = 0 from rfl, List.map_nil, List.sum_nil] at hdrivers
    refine ⟨by rw [← h.drivers]; omega, ?_⟩
    rw [hsame.outLen]
    exact h.outLen
  | _ =>
    obtain ⟨hsame, hdrivers⟩ := sameOutput_of_aloof hi hcl' rfl
    exact h.of_same hsame hdrivers

theorem Driven.exec (h : Driven cl) (hqueue : ∀ n ∈ cl.m_outBufQueue, 0 < n)
    (hi : cl.running[i]? = some (instr :: code)) (hsend : ∀ len, instr = .send len → 0 < len)
    (hok : instr = .postSend → cl.m_socket.isSome ∧ ok = true)
    (hcl' : cl' = { (cl.exec app ok instr).1 with
      running := resume cl.running i ((cl.exec app ok instr).2 ++ code) }) : Driven cl' := by
  cases instr with
  | send len => exact h.exec_send hi (hsend len rfl) hcl'
  | postSend => exact h.exec_postSend hi (hok rfl) hcl'
  | handleSend n => exact h.exec_handleSend hqueue hi hcl'
  | _ =>
    obtain ⟨hsame, hdrivers⟩ := sameOutput_of_aloof hi hcl' rfl
    exact h.of_same hsame hdrivers

end

/-! ### One step -/

theorem drivers_concat (cl cl' : ClientContext) (code : Code) (hrun : cl'.running = cl.running ++ [code]) :
    cl'.drivers + cl.sends.length = cl.drivers + cl'.sends.length + (code.map Instr.drives).sum := by
  have hweigh := ClientContext.weigh_concat Instr.drives hrun
  rw [ClientContext.drivers, ClientContext.drivers]
  omega

/-- What a step does to the output of the context `c`. -/
inductive Output (app : App) (c : ℕ) (s s' : IocpServer) : Act → Prop
  | same {act : Act} : SameOutput (s.client c) (s'.client c) → (s'.client c).drivers = (s.client c).drivers →
      Continues c s act → Output app c s s' act
  /-- A completion hands the chain over to its handler. -/
  | handed {j n : ℕ} : (s'.client c).outLen = (s.client c).outLen →
      (s'.client c).m_outBufQueue = (s.client c).m_outBufQueue →
      (s'.client c).drivers = (s.client c).drivers → Output app c s s' (.send c j (some n))
  | broken {j : ℕ} : (s'.client c).outLen = (s.client c).outLen →
      (s'.client c).drivers + 1 = (s.client c).drivers → Output app c s s' (.send c j none)
  | exec {i : ℕ} {ok : Bool} {instr : Instr} {code : Code} :
      (s.client c).running[i]? = some (instr :: code) →
      s'.client c = { ((s.client c).exec app ok instr).1 with
        running := resume (s.client c).running i (((s.client c).exec app ok instr).2 ++ code) } →
      Output app c s s' (.exec c i ok)

namespace Inv
variable {app : App} {tight : Prop} {s s' : IocpServer} {c : ℕ}

theorem send_pos (h : Inv app tight s) {i len : ℕ} {code : Code}
    (hi : (s.client c).running[i]? = some (.send len :: code)) : 0 < len := by
  have hmem := List.mem_of_getElem? hi
  cases h.phase c with
  | active hactive => exact hactive.working _ hmem _ List.mem_cons_self
  | fresh hnew =>
    rw [hnew] at hmem
    cases hmem
  | free hstill | lost hstill =>
    rw [hstill.running] at hmem
    cases hmem
  | leaving hleaving =>
    rw [hleaving.running] at hmem
    simp at hmem
  | opening hopening =>
    obtain ⟨-, -, ⟨-, hrun, -⟩ | ⟨-, hrun⟩ | ⟨-, hrun⟩ | ⟨-, hrun⟩⟩ := hopening <;>
      (rw [hrun] at hmem; simp at hmem)

theorem output_allocate (h : Inv app tight s) (c i socket : ℕ) (ok : Bool) :
    SameOutput (s.client c) ((s.acceptStep i ok (.allocate, socket)).client c) ∧
      ((s.acceptStep i ok (.allocate, socket)).client c).drivers = (s.client c).drivers := by
  cases hfree : s.m_freeClientList with
  | nil =>
    rw [IocpServer.acceptStep_allocate_nil hfree]
    by_cases hc : c = s.constructed
    · have hnew : s.client s.constructed = .new := by
        cases h.phase s.constructed with
        | fresh hnew => exact hnew
        | free _ hbuilt | lost _ _ hbuilt | opening _ hbuilt | active _ hbuilt | leaving _ hbuilt =>
          exact absurd hbuilt (Nat.lt_irrefl _)
      simp only [hc, Function.update_self, hnew]
      exact ⟨⟨rfl, rfl, rfl⟩, rfl⟩
    · simp only [Function.update_of_ne hc]
      exact ⟨.refl _, trivial⟩
  | cons d rest =>
    rw [IocpServer.acceptStep_allocate_cons hfree]
    by_cases hc : c = d
    · simp only [hc, Function.update_self]
      refine ⟨⟨rfl, rfl, rfl⟩, ?_⟩
      have hconcat := drivers_concat (s.client d) { s.client d with
        m_socket := some socket, running := (s.client d).running ++ [[.associate]] } [.associate] rfl
      simpa [Instr.drives] using hconcat
    · simp only [Function.update_of_ne hc]
      exact ⟨.refl _, trivial⟩

theorem output (h : Inv app tight s) {act : Act} (hs' : s.step app act = some s') (c : ℕ) :
    Output app c s s' act := by
  cases act with
  | accept =>
    simp only [IocpServer.step] at hs'
    split_ifs at hs'
    obtain rfl := Option.some.inj hs'
    exact .same (.refl _) rfl trivial
  | acceptor i ok =>
    obtain ⟨⟨stage, socket⟩, -, rfl⟩ := Option.map_eq_some_iff.mp hs'
    cases stage with
    | testLimit =>
      simp only [IocpServer.acceptStep]
      split_ifs <;> exact .same (.refl _) rfl trivial
    | countClient => exact .same (.refl _) rfl trivial
    | allocate =>
      -- A context from the free list keeps its output.
      obtain ⟨hsame, hdrivers⟩ := h.output_allocate c i socket ok
      exact .same hsame hdrivers trivial
    | postAccept => cases ok <;> exact .same (.refl _) rfl trivial
  | recv d m_recvBuf =>
    simp only [IocpServer.step] at hs'
    split_ifs at hs'
    obtain rfl := Option.some.inj hs'
    by_cases hd : c = d
    · subst hd
      have hcode : ((IocpServer.recvCode m_recvBuf).map Instr.drives).sum = 0 := by cases m_recvBuf <;> rfl
      refine .same ?_ ?_ trivial
      all_goals simp only [IocpServer.setClient, Function.update_self]
      · exact ⟨rfl, rfl, rfl⟩
      · have hconcat := drivers_concat (s.client c) { s.client c with
            recvs := (s.client c).recvs - 1
            running := (s.client c).running ++ [IocpServer.recvCode m_recvBuf] } (IocpServer.recvCode m_recvBuf) rfl
        simp only at hconcat
        omega
    · refine .same ?_ ?_ trivial
      all_goals simp only [IocpServer.setClient, Function.update_of_ne hd]
      exact .refl _
  | send d j n =>
    simp only [IocpServer.step] at hs'
    split at hs'
    · cases hs'
    next len hj =>
    split_ifs at hs'
    obtain rfl := Option.some.inj hs'
    by_cases hd : c = d
    · subst hd
      obtain ⟨hlt, -⟩ := List.getElem?_eq_some_iff.mp hj
      have hlen := List.length_eraseIdx_of_lt hlt
      have hconcat := drivers_concat (s.client c) { s.client c with
          sends := (s.client c).sends.eraseIdx j
          running := (s.client c).running ++ [IocpServer.sendCode n] } (IocpServer.sendCode n) rfl
      simp only at hconcat
      cases n with
      | none =>
        have hcode : ((IocpServer.sendCode none).map Instr.drives).sum = 0 := rfl
        -- The handler closes the connection and leaves `m_outBuf` as it is.
        refine .broken ?_ ?_
        all_goals simp only [IocpServer.setClient, Function.update_self]
        omega
      | some n =>
        have hcode : ((IocpServer.sendCode (some n)).map Instr.drives).sum = 1 := rfl
        refine .handed ?_ ?_ ?_
        all_goals simp only [IocpServer.setClient, Function.update_self]
        omega
    · refine .same ?_ ?_ fun heq => absurd heq.symm hd
      all_goals simp only [IocpServer.setClient, Function.update_of_ne hd]
      exact .refl _
  | exec d i ok =>
    simp only [IocpServer.step] at hs'
    split at hs'
    swap
    · cases hs'
    next instr code hi =>
    obtain rfl := Option.some.inj hs'
    by_cases hd : c = d
    · subst hd
      refine .exec hi ?_
      rw [client_setClient_outside, Function.update_self, ClientContext.exec_running]
    · refine .same ?_ ?_ fun heq => absurd heq.symm hd
      all_goals rw [client_setClient_outside, Function.update_of_ne hd]
      exact .refl _

theorem driven_step (h : Inv app tight s) (hd : Driven (s.client c)) {act : Act} (hok : Continues c s act)
    (hs' : s.step app act = some s') : Driven (s'.client c) := by
  cases h.output hs' c with
  | same hsame hdrivers => exact hd.of_same hsame hdrivers
  | handed hout hqueue hdrivers =>
    refine ⟨?_, ?_⟩
    · rw [hdrivers, hd.drivers, ClientContext.busy, ClientContext.busy, hout]
    · rw [hqueue, hout]
      exact hd.queue
  | broken => exact absurd (hok rfl) Bool.false_ne_true
  | exec hi hcl' =>
    refine hd.exec (h.queue c) hi (fun len hlen => h.send_pos (hlen ▸ hi)) (fun hpost => ?_) hcl'
    exact hok rfl (IocpServer.next?_eq_some.mpr ⟨_, hpost ▸ hi⟩)

theorem mute_of_step (h : Inv app tight s) (hd : Driven (s.client c)) {act : Act}
    (hno : ¬ Continues c s act) (hs' : s.step app act = some s') : Mute (s'.client c) := by
  cases h.output hs' c with
  | same _ _ hok => exact absurd hok hno
  | handed => exact absurd (fun _ => rfl) hno
  | broken hout hdrivers =>
    have hdriven := hd.drivers
    have hbusy := (s.client c).busy_le
    refine ⟨by omega, fun hnil => ?_⟩
    rw [hout] at hnil
    rw [ClientContext.busy, if_pos hnil] at hdriven
    omega
  | @exec i ok instr code hi hcl' =>
    have hpost : instr = .postSend ∧ ¬ ((s.client c).m_socket.isSome ∧ ok = true) := by
      by_contra hcon
      refine hno fun _ hnext => ?_
      obtain ⟨code', hi'⟩ := IocpServer.next?_eq_some.mp hnext
      obtain ⟨rfl, -⟩ := List.cons.inj (Option.some.inj (hi.symm.trans hi'))
      exact not_not.mp fun hfail => hcon ⟨rfl, hfail⟩
    obtain ⟨rfl, hfail⟩ := hpost
    exact hd.breaks hi hfail hcl'

theorem mute_step (h : Inv app tight s) (hm : Mute (s.client c)) {act : Act}
    (hs' : s.step app act = some s') : Mute (s'.client c) := by
  cases h.output hs' c with
  | same hsame hdrivers => exact hm.of_same hsame hdrivers
  | handed hout hqueue hdrivers => exact ⟨hdrivers.trans hm.drivers, by rw [hout]; exact hm.outLen⟩
  | broken hout hdrivers =>
    rw [hm.drivers] at hdrivers
    cases hdrivers
  | exec hi hcl' => exact hm.exec hi hcl'

end Inv

/-- As long as neither a `WSASend` of it nor a completion of one failed, all that a context has to send is
being sent; from the first failure on nothing of it is, over all connections that it serves later. -/
theorem driven_or_mute {app : App} {max : ℕ} {acts : List Act} {s : IocpServer}
    (hmeets : Meets (IocpServer.step app) (fun s act => app ≠ .echo → Decodes s act) (.new max) acts)
    (hrun : run (IocpServer.step app) (.new max) acts = some s) (c : ℕ) :
    (Driven (s.client c) ↔ Meets (IocpServer.step app) (Continues c) (.new max) acts) ∧
    (Mute (s.client c) ↔ ¬ Meets (IocpServer.step app) (Continues c) (.new max) acts) := by
  have hend := good_or_doomed (Inv app False) (fun s => Driven (s.client c)) (fun s => Mute (s.client c))
    (.new app False max) Driven.new (fun s act s' h hdec hs' => h.step hs' hdec False.elim)
    (fun s act s' h _ hd hok hs' => h.driven_step hd hok hs')
    (fun s act s' h _ hd hno hs' => h.mute_of_step hd hno hs')
    (fun s act s' h hm hs' => h.mute_step hm hs') hmeets hrun
  constructor
  · refine ⟨fun hd => ?_, hend.1⟩
    by_contra hno
    exact hd.not_mute (hend.2 hno)
  · exact ⟨fun hm hall => (hend.1 hall).not_mute hm, hend.2⟩

/-- The echo of two bytes cannot be posted. The next connection has the same context, and its byte waits
behind them. -/
def unposted : List Act :=
  connect ++ [.recv 0 (some [1, 2]), .exec 0 0 true, .exec 0 0 true, .exec 0 0 false] ++
    List.replicate 8 (.exec 0 0 true) ++ connect ++ [.recv 0 (some [7])] ++ List.replicate 4 (.exec 0 0 true)

theorem driven_or_mute_unposted : ∃ s, run (IocpServer.step .echo) (.new 1) unposted = some s ∧
    (s.client 0).m_socket.isSome ∧ (s.client 0).m_outBufQueue = [1] ∧ Mute (s.client 0) := by
  have hend : (run (IocpServer.step .echo) (.new 1) unposted).any fun s =>
      decide ((s.client 0).m_socket.isSome ∧ (s.client 0).m_outBufQueue = [1]) := by
    decide +kernel
  obtain ⟨s, hs, hwaits⟩ := exists_of_any hend
  obtain ⟨hsocket, hqueue⟩ := of_decide_eq_true hwaits
  have hno : ¬ Meets (IocpServer.step .echo) (Continues 0) (.new 1) unposted := by decide +kernel
  exact ⟨s, hs, hsocket, hqueue,
    (driven_or_mute (meets_of_forall (fun _ _ h => absurd rfl h) _ unposted) hs 0).2.mpr hno⟩

end NetDemo.Server
