import NetDemo.Client.Probes

/-! A `ClientContext` that served other connections before. `ClientContext::reset` leaves the
`Buffer`s alone, so a later connection starts with what the earlier ones left in them. -/

namespace NetDemo.Client
open Foundation Memory Http

/-- `allocateClientContext` with a context of `m_freeClientList`, and `handleAccept` after it. The
connection has a network and a log of its own. -/
def Link.recycled {α : Type} (l : Link α) (net : ℕ → Bool) : Link α :=
  { l with m_socket := true, free := false, net := net, log := [] }.handleAccept

def ClientContext.recycled {α : Type} (s : ClientContext α) (net : ℕ → Bool) : ClientContext α :=
  s.modify fun l => l.recycled net

/-- A step in the life of a context: a completion, or a new connection. -/
inductive Turn
  | completion (e : ClientContext.Event)
  | connection (net : ℕ → Bool)

def ClientContext.turn (w fuel : ℕ) (s : ClientContext UInt8) : Turn → Option (ClientContext UInt8)
  | .completion e => s.step w fuel e
  | .connection net => if s.link.free then some (s.recycled net) else some s

/-- What the client and the server see of the connection that a context serves now, after these
completions; nothing is there when a completion faults or is never done with. -/
def ClientContext.behaviour (w fuel : ℕ) (s : ClientContext UInt8) (es : List ClientContext.Event) :
    Option (List (Note UInt8)) :=
  (run (ClientContext.step w fuel) s es).map fun s => s.link.log

/-- Nothing of an earlier connection is left but a block of the smallest size, and no requests tell it
from a block of zeros. -/
structure Spotless (w : ℕ) (s : ClientContext UInt8) : Prop where
  recvs : s.link.recvs = 0
  sends : s.sends = []
  queue : s.m_outBufQueue = []
  outLen : s.m_outBuf.getBufferLen = 0
  inLen : s.m_inBuf.getBufferLen = 0
  inBlock : s.m_inBuf.m_nSize = 0 ∨ s.m_inBuf.m_nSize = 1024 ∧
    ∃ m, s.heap.load s.m_inBuf.m_pBegin 0 1024 = some m ∧ ¬ Tells w m (List.replicate 1024 0)

namespace View

def recycled (x : View UInt8) (net : ℕ → Bool) : View UInt8 := x.modify fun l => l.recycled net

/-- What stands in `m_inBuf` between two completions is no answer yet. -/
def Waiting (w : ℕ) (x : View UInt8) : Prop :=
  x.inBuf.live = [] ∨ (HttpCodec.new.tryDecode w x.inBuf.live).1 = 0

end View

theorem Holds.behaviour {s : ClientContext UInt8} {x : View UInt8} (hx : Holds none s x) (w fuel : ℕ)
    (es : List ClientContext.Event) : s.behaviour w fuel es = x.seen w fuel es :=
  map_eq_of_rel (hx.run w fuel es) fun _ _ h => congrArg Link.log h.link

/-! ### After any history -/

namespace View
variable {w fuel : ℕ} {x x' : View UInt8}

theorem live_remove_len (v : Cells UInt8) : (v.remove v.len).live = [] := by
  rw [Cells.live_remove v v.len_le_cap, List.drop_of_length_le v.length_live.le]

theorem Waiting.notifyPackageReceived (h : x.notifyPackageReceived w fuel = some x') : x'.Waiting w := by
  have hrefuse (x : View UInt8) (codec : HttpCodec) (ret : ℤ) : (x.refuse codec ret).Waiting w := by
    left
    rw [refuse, modify_inBuf, inBuf_reply, live_remove_len]
  cases fuel with
  | zero => cases h
  | succ fuel =>
  rcases lt_trichotomy (HttpCodec.new.tryDecode w x.inBuf.live).1 0 with hneg | hzero | hpos
  · rw [notifyPackageReceived_refuses fuel hneg] at h
    obtain rfl := Option.some.inj h
    exact hrefuse x _ _
  · rw [notifyPackageReceived_waits fuel hzero] at h
    obtain rfl := Option.some.inj h
    exact .inr hzero
  cases fuel with
  | zero =>
    rw [notifyPackageReceived_one hpos] at h
    cases h
  | succ fuel =>
  rcases lt_trichotomy (x.second w).1 0 with hneg₂ | hzero₂ | hpos₂
  · rw [notifyPackageReceived_then_refuses fuel hpos hneg₂] at h
    obtain rfl := Option.some.inj h
    exact hrefuse (x.answer w) _ _
  · rw [notifyPackageReceived_then_waits fuel hpos hzero₂] at h
    obtain rfl := Option.some.inj h
    left
    rw [inBuf_answer, live_remove_len]
  · rw [notifyPackageReceived_stuck hpos hpos₂] at h
    cases h

theorem Waiting.step {e : ClientContext.Event} (hx : x.Waiting w) (h : x.step w fuel e = some x') :
    x'.Waiting w := by
  cases e with
  | recv d =>
    simp only [View.step] at h
    split_ifs at h
    · simp only [View.handleRecv] at h
      split_ifs at h
      obtain ⟨x₁, h₁, rfl⟩ := Option.map_eq_some_iff.mp h
      have hnext : x₁.Waiting w := Waiting.notifyPackageReceived h₁
      exact hnext
    · obtain rfl := Option.some.inj h
      exact hx
  | recvClose =>
    simp only [View.step] at h
    split_ifs at h <;> obtain rfl := Option.some.inj h <;> exact hx
  | send n =>
    have hkept := kept_sendCompleted h
    rw [Waiting, hkept.inBuf]
    exact hx
  | sendClose =>
    simp only [View.step] at h
    split at h <;> obtain rfl := Option.some.inj h <;> exact hx

end View

theorem Holds.turn (w fuel : ℕ) {s : ClientContext UInt8} {x : View UInt8} (hx : Holds none s x)
    (hwait : x.Waiting w) {t : Turn} {s' : ClientContext UInt8} (hs' : s.turn w fuel t = some s') :
    ∃ x', Holds none s' x' ∧ x'.Waiting w := by
  cases t with
  | completion e =>
    have hrel := hx.step w fuel e
    rw [show s.step w fuel e = some s' from hs'] at hrel
    obtain ⟨x', hstep, hx'⟩ := rel_some hrel
    exact ⟨x', hx', hwait.step hstep⟩
  | connection net =>
    simp only [ClientContext.turn] at hs'
    split_ifs at hs'
    · obtain rfl := Option.some.inj hs'
      exact ⟨x.recycled net, hx.modify fun l => l.recycled net, hwait⟩
    · obtain rfl := Option.some.inj hs'
      exact ⟨x, hx, hwait⟩

theorem Holds.turns (w fuel : ℕ) {s : ClientContext UInt8} {x : View UInt8} (hx : Holds none s x)
    (hwait : x.Waiting w) {ts : List Turn} {s' : ClientContext UInt8}
    (hs' : Foundation.run (ClientContext.turn w fuel) s ts = some s') :
    ∃ x', Holds none s' x' ∧ x'.Waiting w := by
  induction ts generalizing s x with
  | nil =>
    obtain rfl := Option.some.inj hs'
    exact ⟨x, hx, hwait⟩
  | cons t ts ih =>
    rw [run_cons, Option.bind_eq_some_iff] at hs'
    obtain ⟨s₁, h₁, hs'⟩ := hs'
    obtain ⟨x₁, hx₁, hwait₁⟩ := hx.turn w fuel hwait h₁
    exact ih hx₁ hwait₁ hs'

/-! ### A context that behaves like a new one -/

namespace Link

theorem handleAccept_open {l : Link UInt8} (h : l.Open) :
    l.handleAccept.Open ∧ l.handleAccept.recvs = l.recvs + 1 ∧ l.handleAccept.log = l.log := by
  have hopen : l.enterIoLoop.addClient.Open := ⟨h.socket, h.net⟩
  rw [handleAccept, postRecvOrClose_open hopen]
  exact ⟨⟨h.socket, fun k => h.net (k + 1)⟩, rfl, rfl⟩

theorem handleAccept_failed {l : Link UInt8} (hs : l.m_socket = true) (hn : l.net 0 = false) :
    l.handleAccept.recvs = l.recvs ∧ l.handleAccept.log = l.log ++ [.closed] := by
  have hpost : l.enterIoLoop.addClient.postRecv = (.failed, l.enterIoLoop.addClient.answer.2) := by
    simp [postRecv, enterIoLoop, addClient, answer, hs, hn]
  rw [handleAccept, postRecvOrClose]
  simp only [hpost, true_or, if_true]
  have hclosed : l.enterIoLoop.addClient.answer.2.closeClient.log = l.log ++ [.closed] := by
    rw [closeClient, if_pos (show l.enterIoLoop.addClient.answer.2.m_socket = true from hs)]
    rfl
  exact ⟨(Kept.handleClose _).recvs, (releaseClientContext_log _).trans hclosed⟩

theorem like_recycled {l : Link UInt8} (h : l.recvs = 0) (net : ℕ → Bool) :
    (l.recycled net).Like (Link.new net).handleAccept := by
  have hentered : ({ l with m_socket := true, free := false, net := net, log := [] } :
      Link UInt8).enterIoLoop.addClient.Like (Link.new net : Link UInt8).enterIoLoop.addClient :=
    ⟨rfl, rfl, h, rfl⟩
  exact hentered.postRecvOrClose

end Link

namespace View
variable {w : ℕ} {x y : View UInt8}

theorem fresh_accepted : (accepted fun _ => true).Fresh := by
  obtain ⟨hopen, hrecvs, -⟩ := Link.handleAccept_open (l := Link.new fun _ => true) ⟨rfl, fun _ => rfl⟩
  exact ⟨hopen, Nat.lt_of_lt_of_eq (Nat.succ_pos _) hrecvs.symm, rfl⟩

theorem log_accepted : (accepted fun _ => true).link.log = [] :=
  (Link.handleAccept_open (l := Link.new fun _ => true) ⟨rfl, fun _ => rfl⟩).2.2

theorem recycled_open (x : View UInt8) : (x.recycled fun _ => true).link.Open ∧
    (x.recycled fun _ => true).link.recvs = x.link.recvs + 1 ∧ (x.recycled fun _ => true).link.log = [] :=
  Link.handleAccept_open
    (l := { x.link with m_socket := true, free := false, net := fun _ => true, log := [] }) ⟨rfl, fun _ => rfl⟩

def greeting : Bytes := (Request.index 0).text

theorem asks_greeting (w : ℕ) : Asks w greeting := by
  have hlen := Request.length_index 0
  refine ⟨(HttpCodec.tryDecode_pos_iff (by rw [greeting]; omega)).mpr ?_, ?_⟩
  · have hanswers := (Request.index 0).answers w [] rfl (Request.index_plain 0) (by simp [hlen])
    rwa [List.append_nil] at hanswers
  · rw [greeting, hlen, ClientContext.IO_BUF_SIZE]
    omega

theorem req_greeting (w : ℕ) :
    (HttpCodec.new.tryDecode w greeting).2.m_req = (Request.index 0).decoded :=
  Request.tryDecode_text w rfl (Request.index_plain 0)

theorem second_greeting (hempty : y.inBuf = Cells.empty) : ((y.received greeting).second w).1 = 0 := by
  have hlen : greeting.length = 27 := Request.length_index 0
  have hin : (y.received greeting).inBuf = Cells.empty.write greeting := congrArg (Cells.write · greeting) hempty
  have hend : (Cells.empty.write greeting).live = greeting.take 25 ++ crlf := by
    rw [Cells.live_write, Cells.live_empty]
    decide +kernel
  have hnone := (Clean.empty.write greeting).getHeader_window hend (by
    rw [Cells.len_write, Cells.cap_write, hlen, Cells.len_empty, Cells.cap_empty, if_neg (Nat.not_lt_zero _)]
    decide)
  rw [second, hin, tryDecode_none hnone]

/-- What a new context shows of it. -/
def greeted : List (Note UInt8) :=
  [.decoded (Request.index 0).decoded, .send HttpCodec.okResponse, .posted HttpCodec.okResponse]

theorem log_answer_greeting (hx : x.Fresh) (hlog : x.link.log = []) (hout : x.out = []) :
    ((x.received greeting).answer w).link.log = greeted := by
  have hready := answer_ready (x := x.received greeting) ⟨hx.isOpen.socket, hx.isOpen.net⟩ hout
    (hx.pos (asks_greeting w))
  rw [hready.1, live_received, hx.live, List.nil_append, req_greeting]
  exact congrArg (· ++ greeted) hlog

theorem seen_greeting : (accepted fun _ => true).seen w 2 [.recv greeting] = some greeted := by
  have hlog := log_answer_greeting (w := w) fresh_accepted log_accepted rfl
  rw [← hlog]
  exact (fresh_accepted.seen_recv (asks_greeting w)).2.mpr (second_greeting rfl)

theorem seen_send_iff (hs : x.sends = [x.out]) (hne : x.out ≠ []) :
    x.seen w 2 [.send x.out.length] = some (x.link.log ++ [.reported x.out]) ↔ x.queue = [] := by
  have hcond : 0 < x.out.length ∧ x.out.length ≤ x.out.length := ⟨List.length_pos_of_ne_nil hne, le_rfl⟩
  have hstep : x.step w 2 (.send x.out.length) = ({ x with
      sends := [], out := [], link := x.link.note (.reported x.out) } : View UInt8).nextOutBuf.map postRest := by
    rw [View.step, sendCompleted, hs]
    simp only [if_pos hcond, List.take_length]
    exact handleSend_done (List.drop_length ..)
  rw [seen_one, hstep, nextOutBuf]
  cases hq : x.queue with
  | nil =>
    simp only [Option.map_some]
    rw [postRest_nil rfl, modify_link, Link.releaseClientContext_log]
    exact iff_of_true rfl trivial
  | cons pData rest =>
    refine iff_of_false (fun h => ?_) (by simp)
    cases pData with
    | nil =>
      simp only [Option.map_some, Option.some.injEq] at h
      rw [postRest_nil rfl] at h
      have hlen := congrArg List.length h
      simp [Link.note] at hlen
    | cons a t => simp at h

/-- On every network and in every run the same is seen as of a new context. -/
def LikeNew (w : ℕ) (x : View UInt8) : Prop :=
  ∀ net es, (x.recycled net).seen w 2 es = (accepted net).seen w 2 es

namespace LikeNew

theorem step_greeting (h : LikeNew w x) : ∃ x', (x.recycled fun _ => true).step w 2 (.recv greeting) = some x' ∧
    x'.link.log = greeted := by
  have hseen := h (fun _ => true) [.recv greeting]
  rw [seen_greeting, seen_one, Option.map_eq_some_iff] at hseen
  exact hseen

/-- No byte of an earlier connection stands before those of the new one. -/
theorem live (h : LikeNew w x) (hwait : x.Waiting w) (hsmall : x.inBuf.len < 2 ^ 32) : x.inBuf.live = [] := by
  obtain ⟨x', hstep, hlog⟩ := h.step_greeting
  obtain ⟨hopen, hrecvs, hnil⟩ := x.recycled_open
  have hd := asks_greeting w
  have hpos : 0 < (x.recycled fun _ => true).link.recvs := by omega
  have hlive : ((x.recycled fun _ => true).received greeting).inBuf.live = x.inBuf.live ++ greeting :=
    live_received ..
  rcases hwait with hwait | hwait
  · exact hwait
  by_cases hzero : (HttpCodec.new.tryDecode w (x.inBuf.live ++ greeting)).1 = 0
  · rw [step_recv hpos hd.ne_nil hd.short] at hstep
    split_ifs at hstep
    rw [notifyPackageReceived_waits 1 (by rw [hlive, hzero]), Option.map_some] at hstep
    have hreceived : ((x.recycled fun _ => true).received greeting).link.Open := ⟨hopen.socket, hopen.net⟩
    rw [← Option.some.inj hstep, modify_link, Link.postRecvOrClose_open hreceived] at hlog
    have hnone : [] = greeted := hnil.symm.trans hlog
    cases hnone
  have hstart := (log_reply _ _ _).trans (log_step_recv hpos hd.ne_nil hd.short hstep hzero)
  have hnil' : ((x.recycled fun _ => true).received greeting).link.log = [] := hnil
  rw [hlog, hlive, hnil', List.nil_append, greeted, List.cons_prefix_cons, firstNote] at hstart
  obtain ⟨hnote, -⟩ := hstart
  split_ifs at hnote with hret
  have hreq := Note.decoded.inj hnote
  have hcons : (0x47 : UInt8) :: greeting.drop 1 = greeting := by decide +kernel
  refine HttpCodec.eq_nil_of_waiting (i := 22) (g := greeting.drop 1) (by rwa [Cells.length_live]) hwait hret
    (by decide +kernel) ?_ ?_
  · rw [hcons, hreq]
    decide +kernel
  · rw [hcons, hreq]
    decide +kernel

theorem fresh (hin : x.inBuf.len = 0) : (x.recycled fun _ => true).Fresh := by
  obtain ⟨hopen, hrecvs, -⟩ := x.recycled_open
  exact ⟨hopen, by omega, hin⟩

/-- The first response would be queued behind bytes of an earlier connection. -/
theorem out (h : LikeNew w x) (hin : x.inBuf.len = 0) : x.out = [] := by
  by_contra hne
  obtain ⟨x', hstep, hlog⟩ := h.step_greeting
  have hx := fresh hin
  have hd := asks_greeting w
  have hpos := hx.pos hd
  have hbusy := log_answer_busy (x := (x.recycled fun _ => true).received greeting) hne hpos
  have hnil : ((x.recycled fun _ => true).received greeting).link.log = [] := x.recycled_open.2.2
  have hstart := log_step_recv hx.recvs hd.ne_nil hd.short hstep (by rw [← live_received]; omega)
  rw [hlog, hbusy, hnil] at hstart
  have heq := hstart.eq_of_length rfl
  simp [greeted] at heq

/-- A send that is still in flight would close the new connection. -/
theorem sends (h : LikeNew w x) : x.sends = [] := by
  have hseen := h (fun _ => true) [.sendClose]
  have hnew : (accepted fun _ => true).seen w 2 [.sendClose] = some [] := by
    rw [seen_one]
    exact congrArg some log_accepted
  rw [hnew, seen_one] at hseen
  obtain ⟨hopen, -, hnil⟩ := x.recycled_open
  cases hs : x.sends with
  | nil => rfl
  | cons op rest =>
    have hsends : (x.recycled fun _ => true).sends = op :: rest := hs
    simp only [View.step, hsends, Option.map_some, Option.some.injEq, modify_link] at hseen
    rw [Link.handleClose, Link.releaseClientContext_log, Link.closeClient, if_pos hopen.socket] at hseen
    have hne : (x.recycled fun _ => true).link.log ++ [.closed] ≠ [] := by simp
    exact absurd hseen hne

/-- A receive that is still in flight would bring bytes although the new one failed. -/
theorem recvs (h : LikeNew w x) (hin : x.inBuf.len = 0) : x.link.recvs = 0 := by
  by_contra hne
  have hd := asks_greeting w
  have hseen := h (fun _ => false) [.recv greeting]
  obtain ⟨hrecvs, hlog⟩ := Link.handleAccept_failed (l := Link.new fun _ => false) rfl rfl
  have hnew : (accepted fun _ => false).seen w 2 [.recv greeting] = some [.closed] := by
    rw [seen_one, View.step, if_neg]
    · exact congrArg some hlog
    · exact fun hr => Nat.lt_irrefl 0 (Nat.lt_of_lt_of_eq hr.1 hrecvs)
  obtain ⟨hrecvs', hlog'⟩ := Link.handleAccept_failed
    (l := { x.link with m_socket := true, free := false, net := fun _ => false, log := [] }) rfl rfl
  have hpos : 0 < (x.recycled fun _ => false).link.recvs :=
    Nat.lt_of_lt_of_eq (Nat.pos_of_ne_zero hne) hrecvs'.symm
  rw [hnew, seen_one, Option.map_eq_some_iff] at hseen
  obtain ⟨x', hstep, hx'⟩ := hseen
  have hlive : (x.recycled fun _ => false).inBuf.live = [] :=
    List.eq_nil_of_length_eq_zero (x.inBuf.length_live.trans hin)
  have hstart := (log_reply _ _ _).trans (log_step_recv hpos hd.ne_nil hd.short hstep
    (by rw [hlive, List.nil_append]; exact (Int.ne_of_gt hd.pos)))
  have hclosed : ((x.recycled fun _ => false).received greeting).link.log = [.closed] := hlog'
  have hlen := hstart.length_le
  rw [hx', hclosed, List.length_append, List.length_singleton, List.length_singleton] at hlen
  omega

/-- A queued message would be taken up once the first response is sent. -/
theorem queue (h : LikeNew w x) (hin : x.inBuf.len = 0) : x.queue = [] := by
  have hout := h.out hin
  have hx := fresh hin
  have hd := asks_greeting w
  have hnil : (x.recycled fun _ => true).link.log = [] := x.recycled_open.2.2
  have hlog := log_answer_greeting (w := w) hx hnil hout
  have hlog' := log_answer_greeting (w := w) fresh_accepted log_accepted rfl
  have hseen := h (fun _ => true) [.recv greeting]
  rw [seen_greeting, ← hlog, (hx.seen_recv hd).2] at hseen
  have hstep := hx.step_waits hd hseen
  have hstep' := fresh_accepted.step_waits hd (second_greeting rfl)
  obtain ⟨-, hout₁, hsends₁, hqueue₁⟩ := answer_ready (x := (x.recycled fun _ => true).received greeting)
    ⟨hx.isOpen.socket, hx.isOpen.net⟩ hout (hx.pos hd)
  obtain ⟨-, hout₂, hsends₂, hqueue₂⟩ := answer_ready (x := (accepted fun _ => true).received greeting)
    ⟨fresh_accepted.isOpen.socket, fresh_accepted.isOpen.net⟩ rfl (fresh_accepted.pos hd)
  have hsends : ((x.recycled fun _ => true).received greeting).sends = [] := h.sends
  rw [hsends] at hsends₁
  have hdone := h (fun _ => true) [.recv greeting, .send HttpCodec.okResponse.length]
  rw [seen_cons hstep, seen_cons hstep'] at hdone
  have hqueue := seen_send_iff (w := w)
    (x := ((x.recycled fun _ => true).received greeting |>.answer w).modify Link.postRecvOrClose)
    (by rw [modify_sends, modify_out, hsends₁, hout₁]; rfl)
    (by rw [modify_out, hout₁]; exact HttpCodec.okResponse_ne)
  have hqueue' := seen_send_iff (w := w)
    (x := ((accepted fun _ => true).received greeting |>.answer w).modify Link.postRecvOrClose)
    (by rw [modify_sends, modify_out, hsends₂, hout₂]; rfl)
    (by rw [modify_out, hout₂]; exact HttpCodec.okResponse_ne)
  rw [modify_out, hout₁, (hx.answered hd).2, hlog, modify_queue, hqueue₁] at hqueue
  rw [modify_out, hout₂, (fresh_accepted.answered hd).2, hlog', modify_queue, hqueue₂] at hqueue'
  exact hqueue.mp (hdone.trans (hqueue'.mpr rfl))

end LikeNew

theorem front_recycled (hrecvs : x.link.recvs = 0) (hsends : x.sends = []) (hqueue : x.queue = [])
    (hout : x.out = []) (net : ℕ → Bool) : (x.recycled net).Front (accepted net) :=
  ⟨Link.like_recycled hrecvs net, hout, hqueue, hsends⟩

theorem over_self {v : Cells UInt8} (h : v.len = 0) : Over v.mem [] v := ⟨rfl, h⟩

theorem alike_blank (w : ℕ) : Alike w { accepted fun _ => true with inBuf := blank } (accepted fun _ => true) where
  front := ⟨⟨rfl, rfl, rfl, rfl⟩, rfl, rfl, rfl⟩
  few := (Link.postRecvOrClose_recvs _).1
  inBuf := .inl (.first ⟨List.length_replicate, List.length_replicate, Nat.zero_lt_succ _,
    fun ht => ht.ne rfl, over_blank, over_blank⟩ rfl)

/-- Two requests would show that the block has another size or is not like a new one. -/
theorem LikeNew.block (h : LikeNew w x) (hin : x.inBuf.len = 0) : x.inBuf.cap = 0 ∨
    x.inBuf.cap = 1024 ∧ ¬ Tells w x.inBuf.mem (List.replicate 1024 0) := by
  have hx := fresh hin
  have hfront := front_recycled (h.recvs hin) h.sends (h.queue hin) (h.out hin) fun _ => true
  have hsmall : x.inBuf.mem.length < 2048 := length_lt_of_seen (w := w) hx fresh_accepted hfront (over_self hin) rfl
    fun d _ => h (fun _ => true) [.recv d]
  obtain ⟨k, hk⟩ := x.inBuf.aligned
  have hcap : x.inBuf.cap = 0 ∨ x.inBuf.cap = 1024 := by
    rw [Cells.cap]
    omega
  refine hcap.imp_right fun hcap => ⟨hcap, fun ht => ?_⟩
  -- A new context with a block of zeros does what one without a block does.
  have hfront' : (x.recycled fun _ => true).Front { accepted fun _ => true with inBuf := blank } :=
    ⟨hfront.link, hfront.out, hfront.queue, hfront.sends⟩
  have hfresh : View.Fresh { accepted fun _ => true with inBuf := blank } :=
    ⟨fresh_accepted.isOpen, fresh_accepted.recvs, rfl⟩
  obtain ⟨ds, hds⟩ := exists_seen_ne ht hfront' hx hfresh hcap.ge List.length_replicate.ge (over_self hin) over_blank
  exact hds ((h _ _).trans ((alike_blank w).log_run 2 _).symm)

theorem alike_recycled (hfront : ∀ net, (x.recycled net).Front (accepted net)) (hin : x.inBuf.len = 0)
    (hblock : x.inBuf.cap = 0 ∨ x.inBuf.cap = 1024 ∧ ¬ Tells w x.inBuf.mem (List.replicate 1024 0))
    (net : ℕ → Bool) : Alike w (x.recycled net) (accepted net) where
  front := hfront net
  few := (Link.postRecvOrClose_recvs _).1
  inBuf := by
    left
    rcases hblock with hnull | ⟨hfull, htells⟩
    · refine .same ?_
      have hmem : x.inBuf.mem = [] := List.eq_nil_of_length_eq_zero hnull
      ext1
      · exact hmem
      · exact hin
    · exact .first ⟨hfull, List.length_replicate, Nat.zero_lt_succ _, htells, over_self hin, over_blank⟩ rfl

end View

namespace Spotless
variable {w : ℕ} {s : ClientContext UInt8} {x : View UInt8}

theorem iff_view (hx : Holds none s x) : Spotless w s ↔
    x.link.recvs = 0 ∧ x.sends = [] ∧ x.queue = [] ∧ x.out = [] ∧ x.inBuf.len = 0 ∧ (x.inBuf.cap = 0 ∨
      x.inBuf.cap = 1024 ∧ ¬ Tells w x.inBuf.mem (List.replicate 1024 0)) := by
  have hsends : s.sends = [] ↔ x.sends = [] := by rw [← hx.sends, List.map_eq_nil_iff]
  have hqueue : s.m_outBufQueue = [] ↔ x.queue = [] := by
    have hq := hx.queue
    constructor <;> intro h <;> rw [h] at hq
    · exact List.forall₂_nil_left_iff.mp hq
    · exact List.forall₂_nil_right_iff.mp hq
  have hout : s.m_outBuf.getBufferLen = 0 ↔ x.out = [] := by rw [eq_comm, hx.out_eq_nil]
  have hblock : (s.m_inBuf.m_nSize = 0 ∨ s.m_inBuf.m_nSize = 1024 ∧
      ∃ m, s.heap.load s.m_inBuf.m_pBegin 0 1024 = some m ∧ ¬ Tells w m (List.replicate 1024 0)) ↔
      (x.inBuf.cap = 0 ∨ x.inBuf.cap = 1024 ∧ ¬ Tells w x.inBuf.mem (List.replicate 1024 0)) := by
    rw [hx.inBuf.size]
    refine or_congr_right (and_congr_right fun hcap => ?_)
    have hload := hx.load_window hcap.ge
    rw [List.take_of_length_le hcap.le] at hload
    refine ⟨?_, fun ht => ⟨_, hload, ht⟩⟩
    rintro ⟨m, hm, ht⟩
    obtain rfl := Option.some.inj (hload.symm.trans hm)
    exact ht
  rw [← hx.link, ← hsends, ← hqueue, ← hout, ← hx.inLen, ← hblock]
  exact ⟨fun h => ⟨h.recvs, h.sends, h.queue, h.outLen, h.inLen, h.inBlock⟩,
    fun ⟨h₁, h₂, h₃, h₄, h₅, h₆⟩ => ⟨h₁, h₂, h₃, h₄, h₅, h₆⟩⟩

end Spotless

end NetDemo.Client
