import NetDemo.Client.Output

/-! The base class `IocpServer`, which sends back what it receives: one connection of it, with the
bytes that the receives brought. -/

namespace NetDemo.Client
open Foundation Memory

namespace ClientContext

/-- `send` copies what stands in `m_inBuf`. -/
def echo (s : ClientContext UInt8) : Option (ClientContext UInt8) := do
  let pData ← s.heap.load s.m_inBuf.m_pBegin 0 s.m_inBuf.getBufferLen
  let (_, s) ← s.send pData
  let (h, m_inBuf, _) ← s.m_inBuf.remove s.heap s.m_inBuf.getBufferLen
  return { s with heap := h, m_inBuf := m_inBuf }

/-- `handleRecv` of the base class, whose `notifyPackageReceived` is `echo`. -/
def handleRecvEcho (s : ClientContext UInt8) (m_recvBuf : List UInt8) : Option (ClientContext UInt8) := do
  let s ← s.appendToBuffer m_recvBuf
  let s ← s.echo
  return s.modify Link.postRecvOrClose

end ClientContext

/-- The receive that completed is no longer in flight. -/
def Link.takeRecv {α : Type} (l : Link α) : Link α := { l with recvs := l.recvs - 1 }

structure Echo where
  context : ClientContext UInt8
  received : List UInt8

namespace Echo
open ClientContext

def accepted (net : ℕ → Bool) : Echo := ⟨.accepted net, []⟩

def step (c : Echo) : Event → Option Echo
  | .recv m_recvBuf =>
    if 0 < c.context.link.recvs ∧ m_recvBuf ≠ [] ∧ m_recvBuf.length ≤ IO_BUF_SIZE then do
      let s ← (c.context.modify Link.takeRecv).handleRecvEcho m_recvBuf
      return ⟨s, c.received ++ m_recvBuf⟩
    else some c
  | .recvClose =>
    if 0 < c.context.link.recvs then
      some { c with context := (c.context.modify Link.takeRecv).modify Link.handleClose }
    else some c
  | .send dwBytesTransferred => do
    let s ← c.context.sendCompleted dwBytesTransferred
    return { c with context := s }
  | .sendClose =>
    match c.context.sends with
    | [] => some c
    | _ :: rest => some { c with context := { c.context with sends := rest }.modify Link.handleClose }

/-- What was reported and what is still in `m_outBuf` make up what was received, and an open
connection with nothing in flight has sent all of it back. -/
structure Echoed (c : Echo) : Prop where
  bytes : ∃ out, bufferBytes c.context.heap c.context.m_outBuf = some out ∧
    c.context.link.reported ++ out = c.received
  idle : c.context.link.m_socket = true → c.context.sends = [] → c.context.link.reported = c.received

/-- A receive finds `m_outBuf` empty. -/
def FindsEmpty (c : Echo) : Event → Prop
  | .recv m_recvBuf => 0 < c.context.link.recvs → m_recvBuf ≠ [] → m_recvBuf.length ≤ IO_BUF_SIZE →
      c.context.m_outBuf.getBufferLen = 0
  | _ => True

/-- What holds in every run, whatever the receives find. -/
structure Echoing (c : Echo) (x : View UInt8) : Prop where
  holds : Holds none c.context x
  inBuf : x.inBuf.len = 0
  order : x.link.reported ++ x.out ++ x.queue.flatten = c.received
  queue : ∀ pData ∈ x.queue, pData ≠ []
  sends : x.sends = [] ∨ x.sends = [x.out] ∧ x.out ≠ []
  idle : x.link.m_socket = true → x.sends = [] → x.out = []
  waiting : x.queue ≠ [] → x.out ≠ []

end Echo

/-! ### The connection on its view -/

theorem blind_reported {α : Type} : Blind (Note.asReported (α := α)) := ⟨fun _ => rfl, rfl⟩

namespace Link
variable {α : Type}

theorem reported_note (l : Link α) (bytes : List α) :
    (l.note (.reported bytes)).reported = l.reported ++ bytes := by
  simp [reported, filterMap_note, Note.asReported]

theorem reported_handleClose (l : Link α) : l.handleClose.reported = l.reported :=
  congrArg List.flatten (filterMap_close blind_reported l)

theorem reported_postRecvOrClose (l : Link α) : l.postRecvOrClose.reported = l.reported := by
  have hrecv : l.postRecv.2.reported = l.reported := by rw [reported, postRecv_log, reported]
  simp only [postRecvOrClose]
  split_ifs
  · exact (reported_handleClose _).trans hrecv
  · exact hrecv

theorem postRecvOrClose_socket (l : Link α) (h : l.postRecvOrClose.m_socket = true) : l.m_socket = true := by
  simp only [postRecvOrClose] at h
  split_ifs at h
  · rw [← handleClose, handleClose_socket] at h
    cases h
  · rwa [postRecv_socket] at h

end Link

namespace View
variable {α : Type} {x : View α}

theorem postRest_flow (hs : x.sends = []) : x.postRest.out = x.out ∧ x.postRest.inBuf = x.inBuf ∧
    x.postRest.link.reported = x.link.reported ∧
    (x.postRest.sends = [] ∨ x.postRest.sends = [x.out] ∧ x.out ≠ []) ∧
    (x.postRest.link.m_socket = true → x.postRest.sends = [] → x.out = []) := by
  have hreported : x.postRest.link.reported = x.link.reported :=
    congrArg List.flatten (filterMap_postRest blind_reported x)
  by_cases hout : x.out = []
  · rw [postRest_nil hout]
    exact ⟨rfl, rfl, rfl, .inl hs, fun _ _ => hout⟩
  · rcases x.postSend_cases with ⟨-, -, h⟩ | ⟨-, -, h⟩ | ⟨hclosed, h⟩
    · refine ⟨?_, ?_, hreported, ?_, ?_⟩ <;> simp [postRest, hout, h, hs]
    · have hclosed := x.link.answer.2.handleClose_socket
      rw [Link.handleClose] at hclosed
      refine ⟨?_, ?_, hreported, ?_, ?_⟩ <;> simp [postRest, hout, h, hs, hclosed]
    · refine ⟨?_, ?_, hreported, ?_, ?_⟩ <;> simp [postRest, hout, h, hs, hclosed]

theorem firstSend_eq {pData : List α} (hne : pData ≠ []) :
    (x.firstSend pData).2 = ({ x.modify Link.enterIoLoop with out := pData } : View α).postRest := by
  simp only [firstSend, postRest, if_pos hne]
  split_ifs <;> rfl

theorem sent_flow (hout : x.out = []) (hs : x.sends = []) {pData : List α} (hne : pData ≠ []) :
    (x.sent pData).2.out = pData ∧ (x.sent pData).2.queue = x.queue ∧
    (x.sent pData).2.link.reported = x.link.reported ∧
    ((x.sent pData).2.sends = [] ∨ (x.sent pData).2.sends = [pData] ∧ pData ≠ []) ∧
    ((x.sent pData).2.link.m_socket = true → (x.sent pData).2.sends ≠ []) := by
  have hreported : ((x.modify fun l => l.note (.send pData)).modify Link.enterIoLoop).link.reported =
      x.link.reported := by
    simp [Link.reported, Link.enterIoLoop, Link.filterMap_note, Note.asReported]
  obtain ⟨hout', -, hreported', hsends, hidle⟩ := postRest_flow
    (x := { (x.modify fun l => l.note (.send pData)).modify Link.enterIoLoop with out := pData }) hs
  rw [sent_idle hout]
  refine ⟨?_, queue_firstSend _ _, ?_, ?_, ?_⟩
  · rw [firstSend_eq hne, hout']
  · rw [firstSend_eq hne, hreported', hreported]
  · rwa [firstSend_eq hne]
  · rw [firstSend_eq hne]
    exact fun hopen hnil => hne (hidle hopen hnil)

theorem sent_waits (hout : x.out ≠ []) (pData : List α) :
    (x.sent pData).2.out = x.out ∧ (x.sent pData).2.queue = x.queue ++ [pData] ∧
    (x.sent pData).2.link.reported = x.link.reported ∧ (x.sent pData).2.sends = x.sends ∧
    (x.sent pData).2.link.m_socket = x.link.m_socket := by
  rw [sent_busy hout]
  refine ⟨rfl, rfl, ?_, rfl, rfl⟩
  simp [queueSend, Link.reported, Link.filterMap_note, Note.asReported]

end View

namespace Echo.Echoing
variable {c : Echo} {x : View UInt8}

theorem accepted (net : ℕ → Bool) :
    Echoing (.accepted net) ((View.new net).modify Link.handleAccept) where
  holds := (Holds.new net).modify Link.handleAccept
  inBuf := rfl
  order := by
    have h : ((View.new net).link.handleAccept : Link UInt8).reported = [] :=
      congrArg List.flatten (Link.filterMap_handleAccept blind_reported _)
    rw [View.modify_link, h]
    rfl
  queue := by simp [View.new]
  sends := .inl rfl
  idle _ _ := rfl
  waiting h := absurd rfl h

theorem modify (h : Echoing c x) {f : Link UInt8 → Link UInt8} (hr : (f x.link).reported = x.link.reported)
    (hs : (f x.link).m_socket = true → x.link.m_socket = true) :
    Echoing { c with context := c.context.modify f } (x.modify f) :=
  { h with
    holds := h.holds.modify f
    order := by rw [View.modify_link, hr]; exact h.order
    idle := fun hopen => h.idle (hs hopen) }

theorem handleClose (h : Echoing c x) :
    Echoing { c with context := c.context.modify Link.handleClose } (x.modify Link.handleClose) := by
  refine h.modify x.link.reported_handleClose fun hopen => ?_
  rw [Link.handleClose_socket] at hopen
  cases hopen

theorem sendClose (h : Echoing c x) {op : WsaSend UInt8} {rest : List (WsaSend UInt8)}
    (hs : c.context.sends = op :: rest) :
    ∃ x', Echoing { c with context := { c.context with sends := rest }.modify Link.handleClose } x' ∧
      x'.queue = x.queue := by
  have hsends := h.holds.sends
  rw [hs, List.map_cons] at hsends
  have hrest : rest.map WsaSend.bytes = [] := by
    rcases h.sends with hnil | ⟨hone, -⟩
    · rw [hnil] at hsends
      cases hsends
    · rw [hone] at hsends
      exact (List.cons.inj hsends).2
  refine ⟨({ x with sends := rest.map WsaSend.bytes } : View UInt8).modify Link.handleClose, ?_, rfl⟩
  exact {
    holds := (h.holds.popSend hs).modify Link.handleClose
    inBuf := h.inBuf
    order := by
      rw [View.modify_link, Link.reported_handleClose]
      exact h.order
    queue := h.queue
    sends := .inl hrest
    idle := fun hopen => by
      rw [View.modify_link, Link.handleClose_socket] at hopen
      cases hopen
    waiting := h.waiting }

end Echo.Echoing

/-- The live bytes are sent, and `m_inBuf` is emptied. -/
def View.echo (x : View UInt8) : View UInt8 :=
  let x := (x.sent x.inBuf.live).2
  { x with inBuf := x.inBuf.remove x.inBuf.len }

theorem View.echo_len (x : View UInt8) : x.echo.inBuf.len = 0 := by
  rw [echo, Cells.remove_len]
  exact Nat.sub_self _

namespace Holds
variable {s : ClientContext UInt8} {x : View UInt8}

theorem echo (hx : Holds none s x) : ∃ s', s.echo = some s' ∧ Holds none s' x.echo := by
  have hload : s.heap.load s.m_inBuf.m_pBegin 0 s.m_inBuf.getBufferLen = some x.inBuf.live := by
    rw [hx.inBuf.len, hx.inBuf.load_live le_rfl, ← Cells.length_live, List.take_length]
  have hlive : x.inBuf.live.length ≤ 2 ^ 32 - 1024 := by
    rw [Cells.length_live]
    exact Nat.le_trans x.inBuf.len_le_cap hx.inBuf.cap_le
  obtain ⟨s₁, e₁, hx₁, -⟩ := hx.send x.inBuf.live hlive
  obtain ⟨h₂, b₂, e₂, ho₂, hend₂, -, hr₂⟩ := hx₁.inBuf.remove_all
  have hempty : ((x.sent x.inBuf.live).2.inBuf.remove (x.sent x.inBuf.live).2.inBuf.len).len = 0 :=
    x.echo_len
  refine ⟨_, ?_, hx₁.setIn ho₂ (by rw [hend₂ hx₁.inEnd, hempty]; rfl) hr₂⟩
  simp only [ClientContext.echo, hload, e₁, e₂, Option.bind_eq_bind, Option.bind_some, Option.pure_def]

theorem handleRecvEcho (hx : Holds none s x) {m_recvBuf : List UInt8}
    (hlen : x.inBuf.len + m_recvBuf.length ≤ 2 ^ 32 - 1024) : ∃ s', s.handleRecvEcho m_recvBuf = some s' ∧
      Holds none s'
        (({ x with inBuf := x.inBuf.write m_recvBuf } : View UInt8).echo.modify Link.postRecvOrClose) := by
  obtain ⟨s₁, e₁, hx₁⟩ := hx.appendToBuffer hlen
  obtain ⟨s₂, e₂, hx₂⟩ := hx₁.echo
  refine ⟨_, ?_, hx₂.modify Link.postRecvOrClose⟩
  simp only [ClientContext.handleRecvEcho, e₁, e₂, Option.bind_eq_bind, Option.bind_some, Option.pure_def]

end Holds

namespace Echo.Echoing
variable {c : Echo} {x : View UInt8}

theorem recv (h : Echoing c x) {m_recvBuf : List UInt8} (hne : m_recvBuf ≠ [])
    (hlen : m_recvBuf.length ≤ ClientContext.IO_BUF_SIZE) :
    ∃ s' x', (c.context.modify Link.takeRecv).handleRecvEcho m_recvBuf = some s' ∧
      Echoing ⟨s', c.received ++ m_recvBuf⟩ x' ∧ (x'.queue = [] ↔ x.out = []) := by
  have hroom : x.inBuf.len + m_recvBuf.length ≤ 2 ^ 32 - 1024 := by
    rw [ClientContext.IO_BUF_SIZE] at hlen
    rw [h.inBuf]
    omega
  have hlive : (x.inBuf.write m_recvBuf).live = m_recvBuf := by
    have hnil : x.inBuf.live = [] := List.eq_nil_of_length_eq_zero (by rw [Cells.length_live, h.inBuf])
    simp [hnil]
  obtain ⟨s', e, hx'⟩ := (h.holds.modify Link.takeRecv).handleRecvEcho hroom
  generalize hy : ({ x.modify Link.takeRecv with inBuf := _ } : View UInt8) = y at hx'
  have hylive : y.inBuf.live = m_recvBuf := by
    rw [← hy]
    exact hlive
  have hv := y.echo_len
  rw [View.echo, hylive] at hx' hv
  have hyout : y.out = x.out := by rw [← hy]; rfl
  have hyqueue : y.queue = x.queue := by rw [← hy]; rfl
  have hysends : y.sends = x.sends := by rw [← hy]; rfl
  have hyreported : y.link.reported = x.link.reported := by rw [← hy]; rfl
  have hysocket : y.link.m_socket = x.link.m_socket := by rw [← hy]; rfl
  by_cases hout : x.out = []
  · -- `m_outBuf` is empty and takes the bytes at once.
    have hsends : x.sends = [] := h.sends.resolve_right fun hs => hs.2 hout
    have hqueue : x.queue = [] := by
      by_contra hq
      exact h.waiting hq hout
    obtain ⟨hout', hqueue', hreported', hsends', hidle⟩ :=
      View.sent_flow (hyout.trans hout) (hysends.trans hsends) hne
    rw [hyqueue, hqueue] at hqueue'
    refine ⟨s', _, e, ⟨hx', hv, ?_, ?_, ?_, ?_, ?_⟩, iff_of_true hqueue' hout⟩
    · have horder := h.order
      rw [hout, hqueue] at horder
      simp only [View.modify_link, View.modify_out, View.modify_queue, Link.reported_postRecvOrClose,
        hout', hqueue', hreported', hyreported]
      simpa using horder
    · simp [hqueue']
    · rw [View.modify_sends, View.modify_out, hout']
      exact hsends'
    · intro hopen hnil
      exact absurd hnil (hidle (Link.postRecvOrClose_socket _ hopen))
    · exact fun hq => absurd hqueue' hq
  · -- The bytes wait behind those in `m_outBuf`.
    obtain ⟨hout', hqueue', hreported', hsends', hsocket'⟩ := View.sent_waits (by rwa [hyout]) m_recvBuf
    rw [hyout] at hout'
    rw [hyqueue] at hqueue'
    rw [hyreported] at hreported'
    rw [hysends] at hsends'
    rw [hysocket] at hsocket'
    refine ⟨s', _, e, ⟨hx', hv, ?_, ?_, ?_, ?_, ?_⟩, iff_of_false ?_ hout⟩
    · simp only [View.modify_link, View.modify_out, View.modify_queue, Link.reported_postRecvOrClose,
        hout', hqueue', hreported', ← h.order]
      simp
    · simp only [View.modify_queue, hqueue', List.mem_append, List.mem_singleton]
      rintro pData (hmem | rfl)
      · exact h.queue pData hmem
      · exact hne
    · rw [View.modify_sends, View.modify_out, hout', hsends']
      exact h.sends
    · intro hopen hnil
      rw [View.modify_sends, hsends'] at hnil
      exact absurd (h.idle (hsocket' ▸ Link.postRecvOrClose_socket _ hopen) hnil) hout
    · intro _
      rwa [View.modify_out, hout']
    · simp [hqueue']

/-- A completion that empties `m_outBuf` while bytes wait finds a stale `Buffer`. -/
theorem view_sendCompleted (h : Echoing c x) (n : ℕ) :
    x.sendCompleted n = some x ∨
    (x.out.drop n ≠ [] ∧ x.sendCompleted n = some ({ x with
      sends := []
      link := x.link.note (.reported (x.out.take n))
      out := x.out.drop n } : View UInt8).postRest) ∨
    (x.out.drop n = [] ∧ x.queue = [] ∧ x.sendCompleted n = some (({ x with
      sends := [], link := x.link.note (.reported x.out), out := [] } : View UInt8).modify
        Link.releaseClientContext)) ∨
    (x.out.drop n = [] ∧ x.queue ≠ [] ∧ x.sendCompleted n = none) := by
  rcases h.sends with hs | ⟨hs, -⟩
  · exact .inl (by rw [View.sendCompleted, hs])
  by_cases hn : 0 < n ∧ n ≤ x.out.length
  swap
  · exact .inl (by simp only [View.sendCompleted, hs, if_neg hn])
  simp only [View.sendCompleted, hs, if_pos hn]
  by_cases hd : x.out.drop n = []
  · have htake : x.out.take n = x.out := by
      rw [List.drop_eq_nil_iff] at hd
      exact List.take_of_length_le hd
    rw [View.handleSend_done (x := { x with
      sends := [], link := x.link.note (.reported (x.out.take n)) }) hd, View.nextOutBuf, htake]
    cases hq : x.queue with
    | nil => exact .inr (.inr (.inl ⟨hd, rfl, by rw [Option.map_some, View.postRest_nil rfl]⟩))
    | cons front rest =>
      obtain ⟨a, bytes, rfl⟩ := List.exists_cons_of_ne_nil (h.queue front (by rw [hq]; exact .head _))
      exact .inr (.inr (.inr ⟨hd, by simp, rfl⟩))
  · exact .inr (.inl ⟨hd, View.handleSend_rest (x := { x with
      sends := [], link := x.link.note (.reported (x.out.take n)) }) hd⟩)

theorem view_completion (h : Echoing c x) {n : ℕ} {s' : ClientContext UInt8} {x' : View UInt8}
    (hx' : Holds none s' x') (e : x.sendCompleted n = some x') :
    Echoing { c with context := s' } x' ∧ x'.queue = x.queue := by
  rcases h.view_sendCompleted n with he | ⟨hd, he⟩ | ⟨hd, hq, he⟩ | ⟨-, -, he⟩
  · obtain rfl := Option.some.inj (he.symm.trans e)
    exact ⟨{ h with holds := hx' }, rfl⟩
  · obtain rfl := Option.some.inj (he.symm.trans e)
    obtain ⟨hout, hinBuf, hreported, hsends, hidle⟩ := View.postRest_flow (x := { x with
      sends := [], link := x.link.note (.reported (x.out.take n)), out := x.out.drop n }) rfl
    refine ⟨⟨hx', by rw [hinBuf, h.inBuf], ?_, ?_, ?_, ?_, ?_⟩, View.queue_postRest _⟩
    · rw [hreported, hout, View.queue_postRest, ← h.order, Link.reported_note,
        List.append_assoc x.link.reported, List.take_append_drop]
    · rw [View.queue_postRest]
      exact h.queue
    · rwa [hout]
    · rwa [hout]
    · rw [hout]
      exact fun _ => hd
  · obtain rfl := Option.some.inj (he.symm.trans e)
    refine ⟨⟨hx', h.inBuf, ?_, h.queue, .inl rfl, fun _ _ => rfl, fun hne => absurd hq hne⟩, rfl⟩
    have hlog : (x.link.note (.reported x.out)).releaseClientContext.reported = x.link.reported ++ x.out := by
      rw [← Link.reported_note, Link.reported, Link.releaseClientContext_log, Link.reported]
    rw [← h.order]
    simp only [View.modify_link, View.modify_out, View.modify_queue, hlog, hq, List.append_nil]
  · rw [he] at e
    cases e

theorem completion (h : Echoing c x) {n : ℕ} {s' : ClientContext UInt8}
    (e : c.context.sendCompleted n = some s') :
    ∃ x', Echoing { c with context := s' } x' ∧ x'.queue = x.queue := by
  have hrel := h.holds.sendCompleted n
  rw [e] at hrel
  obtain ⟨x', e', hx', -⟩ := rel_some hrel
  exact ⟨x', h.view_completion hx' e'⟩

theorem completion_of_nil (h : Echoing c x) (hq : x.queue = []) (n : ℕ) :
    ∃ s', c.context.sendCompleted n = some s' := by
  have hrel := h.holds.sendCompleted n
  obtain ⟨x', e'⟩ : ∃ x', x.sendCompleted n = some x' := by
    rcases h.view_sendCompleted n with he | ⟨-, he⟩ | ⟨-, -, he⟩ | ⟨-, hne, -⟩
    · exact ⟨_, he⟩
    · exact ⟨_, he⟩
    · exact ⟨_, he⟩
    · exact absurd hq hne
  rw [e'] at hrel
  obtain ⟨s', e, -⟩ := rel_some_right hrel
  exact ⟨s', e⟩

end Echo.Echoing
namespace Echo
variable {c c' : Echo} {x : View UInt8}

theorem Echoing.step (h : Echoing c x) {e : ClientContext.Event} (hs : c.step e = some c') :
    ∃ x', Echoing c' x' ∧ (FindsEmpty c e → x'.queue = x.queue) ∧
      (¬ FindsEmpty c e → x'.queue ≠ []) := by
  cases e with
  | recv m_recvBuf =>
    rw [Echo.step] at hs
    split_ifs at hs with hr
    · obtain ⟨s', x', e, hx', hq⟩ := h.recv hr.2.1 hr.2.2
      rw [e] at hs
      obtain rfl := Option.some.inj hs
      have hout : FindsEmpty c (.recv m_recvBuf) ↔ x.out = [] := by
        rw [← h.holds.out_eq_nil, eq_comm]
        exact ⟨fun hf => hf hr.1 hr.2.1 hr.2.2, fun hf _ _ _ => hf⟩
      rw [hout, ← hq]
      refine ⟨x', hx', fun hnil => ?_, id⟩
      rw [hnil, eq_comm]
      by_contra hne
      exact h.waiting hne (hq.mp hnil)
    · obtain rfl := Option.some.inj hs
      have hfinds : FindsEmpty c (.recv m_recvBuf) := fun h₁ h₂ h₃ => absurd ⟨h₁, h₂, h₃⟩ hr
      exact ⟨x, h, fun _ => rfl, absurd hfinds⟩
  | recvClose =>
    rw [Echo.step] at hs
    split_ifs at hs
    · obtain rfl := Option.some.inj hs
      exact ⟨_, (h.modify (f := Link.takeRecv) rfl id).handleClose, fun _ => rfl, absurd trivial⟩
    · obtain rfl := Option.some.inj hs
      exact ⟨x, h, fun _ => rfl, absurd trivial⟩
  | send n =>
    simp only [Echo.step, Option.bind_eq_bind, Option.bind_eq_some_iff, Option.pure_def,
      Option.some.injEq] at hs
    obtain ⟨s', e, rfl⟩ := hs
    obtain ⟨x', hx', hq⟩ := h.completion e
    exact ⟨x', hx', fun _ => hq, absurd trivial⟩
  | sendClose =>
    cases hsends : c.context.sends with
    | nil =>
      simp only [Echo.step, hsends, Option.some.injEq] at hs
      obtain rfl := hs
      exact ⟨x, h, fun _ => rfl, absurd trivial⟩
    | cons op rest =>
      simp only [Echo.step, hsends, Option.some.injEq] at hs
      obtain rfl := hs
      obtain ⟨x', hx', hq⟩ := h.sendClose hsends
      exact ⟨x', hx', fun _ => hq, absurd trivial⟩

theorem Echoing.exists_step (h : Echoing c x) (hq : x.queue = []) (e : ClientContext.Event) :
    ∃ c', c.step e = some c' := by
  cases e with
  | recv m_recvBuf =>
    rw [Echo.step]
    split_ifs with hr
    · obtain ⟨s', x', e, -⟩ := h.recv hr.2.1 hr.2.2
      exact ⟨_, by rw [e]; rfl⟩
    · exact ⟨c, rfl⟩
  | recvClose =>
    rw [Echo.step]
    split_ifs
    · exact ⟨_, rfl⟩
    · exact ⟨c, rfl⟩
  | send n =>
    obtain ⟨s', e⟩ := h.completion_of_nil hq n
    exact ⟨{ c with context := s' }, by rw [Echo.step, e]; rfl⟩
  | sendClose =>
    cases hsends : c.context.sends with
    | nil => exact ⟨c, by simp only [Echo.step, hsends]⟩
    | cons op rest => exact ⟨_, by simp only [Echo.step, hsends]; rfl⟩

theorem Echoing.reported_isPrefix (h : Echoing c x) : c.context.link.reported <+: c.received := by
  rw [h.holds.link, ← h.order, List.append_assoc]
  exact List.prefix_append _ _

theorem Echoing.echoed_iff_nil (h : Echoing c x) : Echoed c ↔ x.queue = [] := by
  constructor
  · rintro ⟨⟨out, hload, hbytes⟩, -⟩
    rw [bufferBytes, h.holds.load_out] at hload
    obtain rfl := Option.some.inj hload
    rw [h.holds.link, ← h.order, eq_comm, List.append_right_eq_self, List.flatten_eq_nil_iff] at hbytes
    exact List.eq_nil_iff_forall_not_mem.mpr fun pData hmem => h.queue pData hmem (hbytes pData hmem)
  · intro hq
    have horder := h.order
    rw [hq, List.flatten_nil, List.append_nil, ← h.holds.link] at horder
    refine ⟨⟨x.out, h.holds.load_out, horder⟩, fun hopen hsends => ?_⟩
    have hout : x.out = [] :=
      h.idle (by rw [← h.holds.link, hopen]) (by rw [← h.holds.sends, hsends]; rfl)
    rw [← horder, hout, List.append_nil]

/-- The echo never invents, repeats or reorders a byte. -/
theorem echo_sound (net : ℕ → Bool) {es : List ClientContext.Event}
    (hrun : run step (.accepted net) es = some c) : c.context.link.reported <+: c.received := by
  obtain ⟨x, h⟩ := run_preserves (fun c => ∃ x, Echoing c x) ⟨_, Echoing.accepted net⟩
    (fun c e c' ⟨x, h⟩ hs => (h.step hs).imp fun _ h => h.1) hrun
  exact h.reported_isPrefix

/-- Of three bytes that were received two are reported as sent back so far. -/
theorem echo_sound_partial : ∃ c,
    run step (.accepted fun _ => true) [.recv [7, 8, 9], .send 2] = some c ∧
      c.received = [7, 8, 9] ∧ c.context.link.reported = [7, 8] ∧
      c.context.link.reported <+: c.received := by
  have hend : (run step (.accepted fun _ => true) [.recv [7, 8, 9], .send 2]).any
      (fun c => decide (c.received = [7, 8, 9] ∧ c.context.link.reported = [7, 8])) = true := by decide +kernel
  obtain ⟨c, hrun, hc⟩ := exists_of_any hend
  obtain ⟨hreceived, hreported⟩ := of_decide_eq_true hc
  exact ⟨c, hrun, hreceived, hreported, echo_sound _ hrun⟩

/-- The echo is complete just when every receive finds `m_outBuf` empty. -/
theorem echo_complete_iff (net : ℕ → Bool) (es : List ClientContext.Event) :
    Always step Echoed (.accepted net) es ↔ Meets step FindsEmpty (.accepted net) es := by
  refine always_iff_meets (fun c => ∃ x, Echoing c x ∧ x.queue = []) ?_ ?_ ?_
    ⟨_, Echoing.accepted net, rfl⟩ es
  · rintro c ⟨x, h, hq⟩
    exact h.echoed_iff_nil.mpr hq
  · rintro c e ⟨x, h, hq⟩ hok
    obtain ⟨c', hs⟩ := h.exists_step hq e
    obtain ⟨x', h', hsame, -⟩ := h.step hs
    exact ⟨c', hs, x', h', (hsame hok).trans hq⟩
  · rintro c e c' ⟨x, h, hq⟩ hno hs hall
    obtain ⟨x', h', -, hne⟩ := h.step hs
    exact hne hno (h'.echoed_iff_nil.mp hall)

end Echo
end NetDemo.Client
