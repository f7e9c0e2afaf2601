import NetDemo.Client.InFlight
import NetDemo.Server.Refinement

/-! The memory that the network reads while the server runs. -/

namespace NetDemo.Server
open Foundation Memory Http Client

theorem aims_complete {app : App} {k k' : Client.ClientContext UInt8} (h : k.Aims) {fuel : ℕ}
    {e : Client.ClientContext.Event} (hk' : app.complete fuel k e = some k') : k'.Aims := by
  cases app with
  | http w => exact h.step hk'
  | echo =>
    cases e with
    | recv m_recvBuf =>
      obtain ⟨⟨k₁, received⟩, hstep, rfl⟩ := Option.map_eq_some_iff.mp hk'
      rw [Echo.step] at hstep
      split_ifs at hstep
      · simp only [Option.bind_eq_bind, Option.bind_eq_some_iff] at hstep
        obtain ⟨k₂, hrecv, hstep⟩ := hstep
        obtain ⟨rfl, -⟩ := Echo.mk.inj (Option.some.inj hstep)
        have htaken : (k.modify Link.takeRecv).Aims := h
        exact htaken.handleRecvEcho hrecv
      · obtain ⟨rfl, -⟩ := Echo.mk.inj (Option.some.inj hstep)
        exact h
    | recvClose | send n | sendClose =>
      rw [complete_echo_other (by simp)] at hk'
      exact h.step hk'

theorem aims_completeView {app : App} {x x' : View UInt8} (h : x.Aims) {fuel : ℕ}
    {e : Client.ClientContext.Event} (hx' : app.completeView fuel x e = some x') : x'.Aims := by
  cases app with
  | http w => exact h.step hx'
  | echo =>
    cases e with
    | recv m_recvBuf =>
      simp only [App.completeView] at hx'
      split_ifs at hx'
      · obtain rfl := Option.some.inj hx'
        have hreceived : ({ x.modify Link.takeRecv with inBuf := x.inBuf.write m_recvBuf } : View UInt8).Aims := h
        have haims := hreceived.echo
        exact haims
      · obtain rfl := Option.some.inj hx'
        exact h
    | recvClose | send n | sendClose =>
      rw [App.completeView] at hx'
      exact h.step hx'

/-- The calls in flight for this context fit both levels. -/
def Guarded (cl : Client.ClientContext UInt8) : Prop := ∃ x, Holds none cl x ∧ cl.Aims ∧ x.Aims

namespace Guarded
variable {cl cl' : Client.ClientContext UInt8}

theorem new (net : ℕ → Bool) : Guarded (.new net) :=
  ⟨View.new net, Holds.new net, Sole.of_void (by simp [Client.ClientContext.new]) _,
    Sole.of_void (by simp [View.new]) _⟩

theorem modify (h : Guarded cl) (f : Link UInt8 → Link UInt8) : Guarded (cl.modify f) := by
  obtain ⟨x, hx, haims, haims'⟩ := h
  exact ⟨x.modify f, hx.modify f, haims, haims'⟩

theorem complete (h : Guarded cl) {app : App} {fuel : ℕ} {e : Client.ClientContext.Event}
    (hcl' : app.complete fuel cl e = some cl') : Guarded cl' := by
  obtain ⟨x, hx, haims, haims'⟩ := h
  have hrel := complete_rel hx app fuel e
  rw [hcl'] at hrel
  obtain ⟨x', hstep, hx'⟩ := rel_some hrel
  exact ⟨x', hx', aims_complete haims hcl', aims_completeView haims' hstep⟩

end Guarded

def Process.Guarded (p : Process) : Prop := ∀ c, Server.Guarded (p.context c)

namespace Process.Guarded
variable {p p' : Process}

theorem setContext (h : p.Guarded) (c : ℕ) {cl : Client.ClientContext UInt8} (hcl : Server.Guarded cl) :
    (p.setContext c cl).Guarded := by
  intro d
  by_cases hd : d = c
  · rw [hd, context_setContext]
    exact hcl
  · have hother : (p.setContext c cl).context d = p.context d := Function.update_of_ne hd ..
    rw [hother]
    exact h d

theorem settle (h : p.Guarded) (c : ℕ) {cl : Client.ClientContext UInt8} (hcl : Server.Guarded cl) :
    (p.settle c cl).Guarded := h.setContext c hcl

theorem postAccept (h : p.Guarded) (ok : Bool) : (p.postAccept ok).Guarded := by
  cases ok <;> exact h

theorem allocate (h : p.Guarded) (net : ℕ → Bool) : (p.allocateClientContext net).2.Guarded := by
  unfold allocateClientContext
  split
  · exact h.setContext _ (.new net)
  · exact h.setContext _ ((h _).modify _)

theorem handleAccept (h : p.Guarded) (net : ℕ → Bool) (associated reposted : Bool) :
    (p.handleAccept net associated reposted).Guarded := by
  have htaken (m_nConnClientCnt : ℕ) : Guarded { p with
      accepts := p.accepts - 1, m_nConnClientCnt := m_nConnClientCnt } := h
  have halloc := (htaken ((p.m_nConnClientCnt + 1) % 2 ^ 32)).allocate net
  simp only [Process.handleAccept]
  split_ifs
  · exact (htaken p.m_nConnClientCnt).postAccept reposted
  · have hadded (c : ℕ) := (halloc.postAccept reposted).setContext c
      ((halloc c).modify fun l => l.enterIoLoop.addClient)
    exact (hadded _).settle _ ((hadded _ _).modify Link.postRecvOrClose)
  · exact halloc

theorem step (h : p.Guarded) {app : App} {fuel : ℕ} {job : Job} (hp' : p.step app fuel job = some p') :
    p'.Guarded := by
  cases job with
  | accept net associated reposted =>
    rw [Process.step] at hp'
    split_ifs at hp'
    obtain rfl := Option.some.inj hp'
    exact h.handleAccept net associated reposted
  | completion c e =>
    obtain ⟨cl, hcl, rfl⟩ := Option.map_eq_some_iff.mp hp'
    exact h.settle c ((h c).complete hcl)

end Process.Guarded

/-- Nobody touches what the network still has to read, in any run of the process. -/
theorem inFlight_run {app : App} {fuel max : ℕ} {jobs : List Job} {p : Process}
    (hrun : run (Process.step app fuel) (.new max) jobs = some p) (c : ℕ) : InFlight (p.context c) := by
  have hunused : Guarded Process.unused := (Guarded.new fun _ => false).modify _
  have hnew : (Process.new max).Guarded := fun _ => hunused
  have hguarded : p.Guarded := run_preserves Process.Guarded hnew (fun _ _ _ h => h.step) hrun
  obtain ⟨x, hx, haims, haims'⟩ := hguarded c
  exact hx.inFlight haims haims'

/-- The rest of an echo is in flight and another one waits behind it. -/
theorem inFlight_run_rest : ∃ p, run (Process.step .echo 0) (.new 1)
    [.accept (fun _ => true) true true, .completion 0 (.recv [1, 2, 3]), .completion 0 (.recv [4]),
      .completion 0 (.send 2)] = some p ∧
      (p.context 0).sends.map WsaSend.bytes = [[3]] ∧ (p.context 0).m_outBufQueue.length = 1 ∧
      InFlight (p.context 0) := by
  have hrest : (run (Process.step .echo 0) (.new 1)
      [.accept (fun _ => true) true true, .completion 0 (.recv [1, 2, 3]), .completion 0 (.recv [4]),
        .completion 0 (.send 2)]).any fun p =>
          (p.context 0).sends.map WsaSend.bytes = [[3]] ∧ (p.context 0).m_outBufQueue.length = 1 := by
    decide +kernel
  obtain ⟨p, hp, h⟩ := (Option.any_eq_true ..).mp hrest
  obtain ⟨hsends, hqueue⟩ := of_decide_eq_true h
  exact ⟨p, hp, hsends, hqueue, inFlight_run hp 0⟩

end NetDemo.Server
