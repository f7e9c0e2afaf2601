import NetDemo.Client.View
import NetDemo.Http.Verdict

/-! The HTTP server on views. The loop of `notifyPackageReceived` never faults there: the only thing
that can go wrong is that it does not end. -/

namespace NetDemo.Client
open Foundation Memory Http

namespace View

def reply (x : View UInt8) (codec : HttpCodec) (ret : ℤ) : View UInt8 :=
  let x := if 0 < ret then x.modify fun l => l.note (.decoded codec.m_req) else x
  let x := (x.sent codec.responseMessage).2
  { x with inBuf := x.inBuf.remove x.inBuf.len }

/-- One round of the loop: what `tryDecode` answers, and what is there afterwards. -/
def round (w size : ℕ) (codec : HttpCodec) (x : View UInt8) : ℤ × HttpCodec × View UInt8 :=
  let (ret, codec) := codec.tryDecode w (x.inBuf.mem.take size)
  let x := if ret ≠ 0 then x.reply codec ret else x
  (ret, codec, if ret < 0 then x.modify fun l => l.closeClient.releaseClientContext else x)

theorem round_ret (w size : ℕ) (codec : HttpCodec) (x : View UInt8) :
    (x.round w size codec).1 = (codec.tryDecode w (x.inBuf.mem.take size)).1 := rfl

theorem round_codec (w size : ℕ) (codec : HttpCodec) (x : View UInt8) :
    (x.round w size codec).2.1 = (codec.tryDecode w (x.inBuf.mem.take size)).2 := rfl

theorem round_pos {w size : ℕ} {codec : HttpCodec} {x : View UInt8}
    (h : 0 < (codec.tryDecode w (x.inBuf.mem.take size)).1) :
    (x.round w size codec).2.2 = x.reply (codec.tryDecode w (x.inBuf.mem.take size)).2
      (codec.tryDecode w (x.inBuf.mem.take size)).1 := by
  simp only [round, if_neg (Int.not_lt.mpr h.le), if_pos (Int.ne_of_gt h)]

theorem round_neg {w size : ℕ} {codec : HttpCodec} {x : View UInt8}
    (h : (codec.tryDecode w (x.inBuf.mem.take size)).1 < 0) : (x.round w size codec).2.2 =
      (x.reply (codec.tryDecode w (x.inBuf.mem.take size)).2
        (codec.tryDecode w (x.inBuf.mem.take size)).1).modify fun l => l.closeClient.releaseClientContext := by
  simp only [round, if_pos h, if_pos (Int.ne_of_lt h)]

theorem round_zero {w size : ℕ} {codec : HttpCodec} {x : View UInt8}
    (h : (codec.tryDecode w (x.inBuf.mem.take size)).1 = 0) : (x.round w size codec).2.2 = x := by
  simp only [round, h, lt_irrefl, if_false, ne_eq, not_true]

/-- `none` is returned when the fuel is used up. -/
def requestLoop (w size : ℕ) : ℕ → HttpCodec → View UInt8 → Option (View UInt8)
  | 0, _, _ => none
  | fuel + 1, codec, x =>
    let (ret, codec, x) := x.round w size codec
    if 0 < ret then requestLoop w size fuel codec x else some x

def notifyPackageReceived (w fuel : ℕ) (x : View UInt8) : Option (View UInt8) :=
  requestLoop w x.inBuf.len fuel HttpCodec.new x

def handleRecv (w fuel : ℕ) (x : View UInt8) (m_recvBuf : Bytes) : Option (View UInt8) :=
  if x.inBuf.len + m_recvBuf.length ≤ 2 ^ 32 - 1024 then
    ({ x with inBuf := x.inBuf.write m_recvBuf }.notifyPackageReceived w fuel).map
      fun x : View UInt8 => x.modify Link.postRecvOrClose
  else none

def step (w fuel : ℕ) (x : View UInt8) : ClientContext.Event → Option (View UInt8)
  | .recv m_recvBuf =>
    if 0 < x.link.recvs ∧ m_recvBuf ≠ [] ∧ m_recvBuf.length ≤ ClientContext.IO_BUF_SIZE then
      { x with link.recvs := x.link.recvs - 1 }.handleRecv w fuel m_recvBuf
    else some x
  | .recvClose =>
    if 0 < x.link.recvs then some ({ x with link.recvs := x.link.recvs - 1 }.modify Link.handleClose)
    else some x
  | .send dwBytesTransferred => x.sendCompleted dwBytesTransferred
  | .sendClose =>
    match x.sends with
    | [] => some x
    | _ :: rest => some ({ x with sends := rest }.modify Link.handleClose)

end View

namespace Holds
variable {s : ClientContext UInt8} {x : View UInt8}

theorem inLen {q : Ptr} (hx : Holds q s x) : s.m_inBuf.getBufferLen = x.inBuf.len := hx.inBuf.len

theorem reply {codec : HttpCodec} (hx : Holds none s x) (hshort : codec.m_outBuf.length ≤ 2 ^ 32 - 1024)
    (ret : ℤ) : ∃ s', s.reply codec ret = some s' ∧ Holds none s' (x.reply codec ret) ∧
      s'.m_inBuf.m_pBegin = s.m_inBuf.m_pBegin := by
  have hx₀ : Holds none (if 0 < ret then s.modify fun l => l.note (.decoded codec.m_req) else s)
      (if 0 < ret then x.modify fun l => l.note (.decoded codec.m_req) else x) := by
    split_ifs
    · exact hx.modify _
    · exact hx
  have hin₀ : (if 0 < ret then s.modify fun l => l.note (.decoded codec.m_req) else s).m_inBuf =
      s.m_inBuf := by
    split_ifs <;> rfl
  obtain ⟨s₁, e₁, hx₁, hin₁⟩ := hx₀.send codec.responseMessage hshort
  obtain ⟨h₂, b₂, e₂, ho₂, hend₂, hp₂, hr₂⟩ := hx₁.inBuf.remove_all
  have hx₂ := hx₁.setIn ho₂ (by rw [hend₂ hx₁.inEnd, Cells.remove_len]; simp [Cells.shift]) hr₂
  refine ⟨_, ?_, hx₂, by rw [hp₂, hin₁, hin₀]⟩
  simp only [ClientContext.reply, e₁, Option.bind_eq_bind, Option.bind_some, e₂, Option.pure_def]

theorem load_window {q : Ptr} (hx : Holds q s x) {size : ℕ} (hsize : size ≤ x.inBuf.cap) :
    s.heap.load s.m_inBuf.m_pBegin 0 size = some (x.inBuf.mem.take size) := by
  rw [Heap.load_points hx.inBuf.points le_rfl (by simpa [Cells.cap] using hsize)]
  rfl

end Holds

/-- The loop on a context and the loop on its view end together, or both run out of fuel. -/
inductive Follows : Except Stop (ClientContext UInt8) → Option (View UInt8) → Prop
  | fuel : Follows (.error .fuel) none
  | ok {s : ClientContext UInt8} {x : View UInt8} : Holds none s x → Follows (.ok s) (some x)

theorem View.cap_reply (x : View UInt8) (codec : HttpCodec) (ret : ℤ) :
    (x.reply codec ret).inBuf.cap = x.inBuf.cap := by
  simp only [View.reply, Cells.cap_remove, View.sent_inBuf]
  split_ifs <;> rfl

theorem View.cap_round (w size : ℕ) (codec : HttpCodec) (x : View UInt8) :
    (x.round w size codec).2.2.inBuf.cap = x.inBuf.cap := by
  simp only [View.round]
  split_ifs <;> simp only [View.modify_inBuf, View.cap_reply]

def Tame (codec : HttpCodec) : Prop := codec.m_outBuf = [] ∨ codec.m_outBuf = HttpCodec.okResponse

theorem Tame.short {codec : HttpCodec} (h : Tame codec) : codec.m_outBuf.length ≤ 2 ^ 32 - 1024 := by
  have hok : HttpCodec.okResponse.length ≤ 2 ^ 32 - 1024 := by decide
  rcases h with h | h <;> rw [h]
  · exact Nat.zero_le _
  · exact hok

theorem Tame.tryDecode {codec : HttpCodec} (h : Tame codec) (w : ℕ) (d : Bytes) :
    Tame (codec.tryDecode w d).2 := by
  rcases HttpCodec.tryDecode_outBuf w codec d with h' | h'
  · unfold Tame
    rwa [h']
  · exact .inr h'

namespace Holds
variable {s : ClientContext UInt8} {x : View UInt8}

theorem round (hx : Holds none s x) (w : ℕ) {size : ℕ} (hsize : size ≤ x.inBuf.cap)
    {codec : HttpCodec} (hc : Tame codec) :
    ∃ s', s.round w s.m_inBuf.m_pBegin size codec =
        some ((x.round w size codec).1, (x.round w size codec).2.1, s') ∧
      Holds none s' (x.round w size codec).2.2 ∧ s'.m_inBuf.m_pBegin = s.m_inBuf.m_pBegin := by
  have hc' := hc.tryDecode w (x.inBuf.mem.take size)
  simp only [ClientContext.round, View.round, hx.load_window hsize, Option.bind_eq_bind, Option.bind_some]
  generalize codec.tryDecode w (x.inBuf.mem.take size) = d at hc' ⊢
  by_cases h0 : d.1 = 0
  · simp only [h0, ne_eq, not_true, if_false, lt_irrefl]
    exact ⟨s, rfl, hx, rfl⟩
  · obtain ⟨s₁, e₁, hx₁, hp₁⟩ := hx.reply hc'.short d.1
    simp only [ne_eq, h0, not_false_eq_true, if_true, e₁, Option.bind_some, Option.pure_def]
    refine ⟨_, rfl, ?_, ?_⟩
    · split_ifs
      · exact hx₁.modify fun l => l.closeClient.releaseClientContext
      · exact hx₁
    · split_ifs
      · rwa [ClientContext.modify_inBuf]
      · exact hp₁

theorem requestLoop (hx : Holds none s x) (w : ℕ) {size : ℕ} (hsize : size ≤ x.inBuf.cap) (fuel : ℕ)
    {codec : HttpCodec} (hc : Tame codec) :
    Follows (s.requestLoop w s.m_inBuf.m_pBegin size fuel codec) (x.requestLoop w size fuel codec) := by
  induction fuel generalizing s x codec with
  | zero => exact .fuel
  | succ fuel ih =>
    obtain ⟨s', e, hx', hp⟩ := hx.round w hsize hc
    have hcap := x.cap_round w size codec
    have hc' : Tame (x.round w size codec).2.1 := hc.tryDecode w _
    simp only [ClientContext.requestLoop, View.requestLoop, e, orFault_some_bind]
    by_cases hret : 0 < (x.round w size codec).1
    · have hrest := ih hx' (by omega) hc'
      rw [hp] at hrest
      simpa only [hret, if_true] using hrest
    · simp only [hret, if_false]
      exact .ok hx'

theorem notifyPackageReceived (hx : Holds none s x) (w fuel : ℕ) :
    Follows (s.notifyPackageReceived w fuel) (x.notifyPackageReceived w fuel) := by
  rw [ClientContext.notifyPackageReceived, View.notifyPackageReceived, hx.inLen]
  exact hx.requestLoop w x.inBuf.len_le_cap fuel (.inl rfl)

theorem handleRecv (hx : Holds none s x) (w fuel : ℕ) {m_recvBuf : Bytes}
    (hshort : m_recvBuf.length < 2 ^ 32) :
    Option.Rel (Holds none) (s.handleRecv w fuel m_recvBuf).toOption (x.handleRecv w fuel m_recvBuf) := by
  by_cases hlen : x.inBuf.len + m_recvBuf.length ≤ 2 ^ 32 - 1024
  swap
  · have hfault := hx.appendToBuffer_fault hshort (Nat.lt_of_not_le hlen)
    rw [ClientContext.handleRecv, View.handleRecv, if_neg hlen, hfault, orFault_none_bind]
    exact .none
  obtain ⟨s', e, hx'⟩ := hx.appendToBuffer hlen
  have hloop := hx'.notifyPackageReceived w fuel
  rw [ClientContext.handleRecv, View.handleRecv, if_pos hlen, e, orFault_some_bind]
  generalize ClientContext.notifyPackageReceived _ _ _ = r at hloop ⊢
  generalize View.notifyPackageReceived _ _ _ = r' at hloop ⊢
  cases hloop with
  | fuel => exact .none
  | ok hx'' => exact .some (hx''.modify Link.postRecvOrClose)

theorem step (w fuel : ℕ) (hx : Holds none s x) (e : ClientContext.Event) :
    Option.Rel (Holds none) (s.step w fuel e) (x.step w fuel e) := by
  cases e with
  | recv m_recvBuf =>
    simp only [ClientContext.step, View.step, hx.link]
    split_ifs with h
    · have hx' : Holds none { s with link.recvs := s.link.recvs - 1 }
          { x with link.recvs := x.link.recvs - 1 } :=
        hx.modify fun l => { l with recvs := l.recvs - 1 }
      have hshort : m_recvBuf.length < 2 ^ 32 := by
        have := h.2.2
        simp only [ClientContext.IO_BUF_SIZE] at this
        omega
      rw [← hx.link] at hx' ⊢
      exact hx'.handleRecv w fuel hshort
    · exact .some hx
  | recvClose =>
    simp only [ClientContext.step, View.step, hx.link]
    split_ifs with h
    · have hx' : Holds none { s with link.recvs := s.link.recvs - 1 }
          { x with link.recvs := x.link.recvs - 1 } :=
        hx.modify fun l => { l with recvs := l.recvs - 1 }
      rw [← hx.link] at hx' ⊢
      exact .some (hx'.modify Link.handleClose)
    · exact .some hx
  | send n => 
    rw [ClientContext.step, View.step]
    exact rel_mono (hx.sendCompleted n) fun _ _ h => h.1
  | sendClose =>
    have hsends := hx.sends
    simp only [ClientContext.step, View.step]
    cases hs : s.sends with
    | nil =>
      rw [hs, List.map_nil] at hsends
      rw [← hsends]
      exact .some hx
    | cons op rest =>
      rw [hs, List.map_cons] at hsends
      rw [← hsends]
      exact .some ((hx.popSend hs).modify Link.handleClose)

theorem run (w fuel : ℕ) (hx : Holds none s x) (es : List ClientContext.Event) :
    Option.Rel (Holds none) (run (ClientContext.step w fuel) s es) (run (View.step w fuel) x es) :=
  run_rel (fun _ _ e h => h.step w fuel e) hx es

end Holds
end NetDemo.Client
