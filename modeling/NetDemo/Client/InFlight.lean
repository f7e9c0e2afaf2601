import NetDemo.Client.Echo
import NetDemo.Client.Fifo
import NetDemo.Client.HttpView

/-! What a `WSASend` in flight reads. It is given the block of `m_outBuf` and no copy, so nobody may change or
release that block before the call completes. -/

namespace NetDemo.Foundation
variable {β γ : Type}

/-- Of the requests `l` that are out, all but one are for nothing, and that one is for `cur`. -/
structure Sole (f : β → γ) (void : γ → Prop) [DecidablePred void] (l : List β) (cur : γ) : Prop where
  current : ∀ a ∈ l, ¬ void (f a) → f a = cur
  one : (l.filter fun a => ¬ void (f a)).length ≤ 1

namespace Sole
variable {f : β → γ} {void : γ → Prop} [DecidablePred void] {l : List β} {a : β} {cur : γ}

theorem filter_eq_nil (h : ∀ a ∈ l, void (f a)) : (l.filter fun a => ¬ void (f a)) = [] := by
  rw [List.filter_eq_nil_iff]
  intro a ha
  simpa using h a ha

theorem of_void (h : ∀ a ∈ l, void (f a)) (cur : γ) : Sole f void l cur where
  current a ha hno := absurd (h a ha) hno
  one := by
    rw [filter_eq_nil h]
    exact Nat.zero_le 1

theorem void_of_cur (h : Sole f void l cur) (hcur : void cur) (b : β) (hb : b ∈ l) : void (f b) := by
  by_contra hno
  exact hno (h.current b hb hno ▸ hcur)

theorem concat (h : ∀ b ∈ l, void (f b)) (ha : f a = cur) : Sole f void (l ++ [a]) cur where
  current b hb hno := by
    rcases List.mem_append.mp hb with hb | hb
    · exact absurd (h b hb) hno
    · rw [List.mem_singleton.mp hb, ha]
  one := by
    rw [List.filter_append, filter_eq_nil h, List.nil_append]
    exact List.length_filter_le _ [a]

theorem tail (h : Sole f void (a :: l) cur) : Sole f void l cur where
  current b hb := h.current b (List.mem_cons_of_mem a hb)
  one := by
    have hone := h.one
    rw [List.filter_cons] at hone
    split_ifs at hone
    · rw [List.length_cons] at hone
      omega
    · exact hone

theorem void_tail (h : Sole f void (a :: l) cur) (ha : ¬ void (f a)) (b : β) (hb : b ∈ l) : void (f b) := by
  have hone := h.one
  rw [List.filter_cons_of_pos (by simpa using ha), List.length_cons] at hone
  have hnil := List.eq_nil_of_length_eq_zero (Nat.le_zero.mp (Nat.le_of_succ_le_succ hone))
  rw [List.filter_eq_nil_iff] at hnil
  simpa using hnil b hb

end Sole
end NetDemo.Foundation

namespace NetDemo.Client
open Foundation Memory Http

/-! ### The range of a call -/

section
variable {α : Type}

def WsaSend.range (op : WsaSend α) : Ptr × ℕ := (op.buf, op.len)

def Blank (range : Ptr × ℕ) : Prop := range.2 = 0

instance : DecidablePred Blank := fun range => inferInstanceAs (Decidable (range.2 = 0))

namespace ClientContext

/-- The calls in flight are for all of `m_outBuf`, or for no bytes at all. -/
def Aims (s : ClientContext α) : Prop :=
  Sole WsaSend.range Blank s.sends (s.m_outBuf.m_pBegin, s.m_outBuf.getBufferLen)

def Idle (s : ClientContext α) : Prop := ∀ op ∈ s.sends, Blank op.range

variable {s s' : ClientContext α}

theorem Aims.idle (h : s.Aims) (h0 : s.m_outBuf.getBufferLen = 0) : s.Idle := h.void_of_cur h0

theorem Idle.aims (h : s.Idle) : s.Aims := Sole.of_void h _

theorem Idle.postSend (h : s.Idle) {r : PostResult} (hs' : s.setWsaBuf.postSend = some (r, s')) : s'.Aims := by
  unfold ClientContext.postSend at hs'
  split_ifs at hs'
  · simp only [Option.bind_eq_bind, Option.bind_eq_some_iff] at hs'
    obtain ⟨bytes, -, hs'⟩ := hs'
    split_ifs at hs'
    · obtain ⟨-, rfl⟩ := Prod.mk.inj (Option.some.inj hs')
      exact Sole.concat h rfl
    · obtain ⟨-, rfl⟩ := Prod.mk.inj (Option.some.inj hs')
      exact h.aims
  · obtain ⟨-, rfl⟩ := Prod.mk.inj (Option.some.inj hs')
    exact h.aims

variable [Inhabited α]

theorem Idle.firstSend (h : s.Idle) {b : Buffer} {ok : Bool} (hs' : s.firstSend b = some (ok, s')) : s'.Aims := by
  simp only [ClientContext.firstSend, Option.bind_eq_bind, Option.bind_eq_some_iff] at hs'
  obtain ⟨⟨h₁, m_outBuf⟩, -, ⟨r, s₁⟩, hpost, hs'⟩ := hs'
  have hidle : Idle { s.modify Link.enterIoLoop with heap := h₁, m_outBuf := m_outBuf } := h
  have haims := hidle.postSend hpost
  split_ifs at hs'
  all_goals
    obtain ⟨-, rfl⟩ := Prod.mk.inj (Option.some.inj hs')
    exact haims

theorem Aims.send (h : s.Aims) {pData : List α} {ok : Bool} (hs' : s.send pData = some (ok, s')) : s'.Aims := by
  simp only [ClientContext.send, Option.bind_eq_bind, Option.bind_eq_some_iff] at hs'
  obtain ⟨⟨h₁, sendBuf, n⟩, -, hs'⟩ := hs'
  split_ifs at hs' with hlen
  · simp only [Option.bind_eq_some_iff] at hs'
    obtain ⟨⟨ok₁, s₁⟩, hsent, h₂, -, hs'⟩ := hs'
    obtain ⟨-, rfl⟩ := Prod.mk.inj (Option.some.inj hs')
    have hidle : Idle { s with heap := h₁, link := s.link.note (.send pData) } := h.idle hlen.symm
    have haims : s₁.Aims := hidle.firstSend hsent
    exact haims
  · simp only [Option.bind_eq_some_iff] at hs'
    obtain ⟨⟨ok₁, s₁⟩, hqueued, h₂, -, hs'⟩ := hs'
    obtain ⟨-, rfl⟩ := Prod.mk.inj (Option.some.inj hs')
    obtain ⟨-, rfl⟩ := Prod.mk.inj (Option.some.inj hqueued)
    exact h

omit [Inhabited α] in
theorem Idle.postRest (h : s.Idle) (hs' : s.postRest = some s') : s'.Aims := by
  rw [ClientContext.postRest] at hs'
  split_ifs at hs'
  · simp only [Option.bind_eq_bind, Option.bind_eq_some_iff] at hs'
    obtain ⟨⟨r, s₁⟩, hpost, hs'⟩ := hs'
    have haims := h.postSend hpost
    split_ifs at hs'
    all_goals
      obtain rfl := Option.some.inj hs'
      exact haims
  · obtain rfl := Option.some.inj hs'
    exact h.aims

theorem Idle.handleSend (h : s.Idle) {n : ℕ} (hs' : s.handleSend n = some s') : s'.Aims := by
  simp only [ClientContext.handleSend, Option.bind_eq_bind, Option.bind_eq_some_iff] at hs'
  obtain ⟨⟨h₁, m_outBuf, n'⟩, -, hs'⟩ := hs'
  have hidle : Idle { s with heap := h₁, m_outBuf := m_outBuf } := h
  split_ifs at hs'
  · obtain ⟨s₁, hnext, hs'⟩ := Option.bind_eq_some_iff.mp hs'
    refine Idle.postRest (fun op hop => hidle op ?_) hs'
    rwa [nextOutBuf_sends hnext] at hop
  · exact hidle.postRest hs'

theorem Aims.sendCompleted (h : s.Aims) {n : ℕ} (hs' : s.sendCompleted n = some s') : s'.Aims := by
  rw [ClientContext.sendCompleted] at hs'
  split at hs'
  · obtain rfl := Option.some.inj hs'
    exact h
  next op rest hsends =>
  split_ifs at hs' with hn
  · rw [Aims, hsends] at h
    have hop : ¬ Blank op.range := Nat.ne_of_gt (Nat.lt_of_lt_of_le hn.1 hn.2)
    have hidle : Idle { s with
      sends := rest
      link := s.link.note (.reported (op.bytes.take n)) } := h.void_tail hop
    exact hidle.handleSend hs'
  · obtain rfl := Option.some.inj hs'
    exact h

end ClientContext
end

namespace ClientContext
variable {s s' : ClientContext UInt8}

theorem Aims.reply (h : s.Aims) {codec : HttpCodec} {ret : ℤ} (hs' : s.reply codec ret = some s') : s'.Aims := by
  simp only [ClientContext.reply, Option.bind_eq_bind, Option.bind_eq_some_iff] at hs'
  obtain ⟨⟨ok, s₁⟩, hsent, ⟨h₂, m_inBuf, n⟩, -, hs'⟩ := hs'
  obtain rfl := Option.some.inj hs'
  have hnoted : Aims (if 0 < ret then s.modify fun l => l.note (.decoded codec.m_req) else s) := by
    split_ifs <;> exact h
  have hsends : s₁.Aims := hnoted.send hsent
  exact hsends

theorem Aims.round (h : s.Aims) {w size : ℕ} {pData : Ptr} {codec : HttpCodec}
    {r : ℤ × HttpCodec × ClientContext UInt8} (hr : s.round w pData size codec = some r) : r.2.2.Aims := by
  simp only [ClientContext.round, Option.bind_eq_bind, Option.bind_eq_some_iff] at hr
  obtain ⟨m_inBuf, -, hr⟩ := hr
  have hround {s₁ : ClientContext UInt8} (h₁ : s₁.Aims) : Aims (if (codec.tryDecode w m_inBuf).1 < 0 then
      s₁.modify fun l => l.closeClient.releaseClientContext else s₁) := by
    split_ifs <;> exact h₁
  by_cases hret : (codec.tryDecode w m_inBuf).1 = 0
  · simp only [hret, ne_eq, not_true, if_false, Option.bind_some] at hr
    obtain rfl := Option.some.inj hr
    exact h
  · simp only [ne_eq, hret, not_false_eq_true, if_true, Option.bind_eq_some_iff] at hr
    obtain ⟨s₁, hreply, hr⟩ := hr
    obtain rfl := Option.some.inj hr
    exact hround (h.reply hreply)

theorem Aims.requestLoop (h : s.Aims) {w size fuel : ℕ} {pData : Ptr} {codec : HttpCodec}
    (hs' : s.requestLoop w pData size fuel codec = .ok s') : s'.Aims := by
  induction fuel generalizing s codec with
  | zero => cases hs'
  | succ fuel ih =>
    rw [ClientContext.requestLoop] at hs'
    cases hround : s.round w pData size codec with
    | none =>
      rw [hround, orFault_none_bind] at hs'
      cases hs'
    | some r =>
      obtain ⟨ret, codec', s₁⟩ := r
      have hs₁ : s₁.Aims := h.round hround
      simp only [hround, orFault_some_bind] at hs'
      split_ifs at hs'
      · exact ih hs₁ hs'
      · obtain rfl := Except.ok.inj hs'
        exact hs₁

theorem Aims.appendToBuffer (h : s.Aims) {pInBuf : Bytes} (hs' : s.appendToBuffer pInBuf = some s') :
    s'.Aims := by
  simp only [ClientContext.appendToBuffer, Option.bind_eq_bind, Option.bind_eq_some_iff] at hs'
  obtain ⟨⟨h₁, m_inBuf, n⟩, -, hs'⟩ := hs'
  obtain rfl := Option.some.inj hs'
  exact h

theorem Aims.handleRecv (h : s.Aims) {w fuel : ℕ} {m_recvBuf : Bytes}
    (hs' : (s.handleRecv w fuel m_recvBuf).toOption = some s') : s'.Aims := by
  rw [ClientContext.handleRecv] at hs'
  cases happend : s.appendToBuffer m_recvBuf with
  | none =>
    rw [happend, orFault_none_bind] at hs'
    cases hs'
  | some s₁ =>
    have hs₁ := h.appendToBuffer happend
    rw [happend, orFault_some_bind] at hs'
    cases hloop : s₁.notifyPackageReceived w fuel with
    | error stop =>
      rw [hloop] at hs'
      cases hs'
    | ok s₂ =>
      rw [hloop] at hs'
      obtain rfl := Option.some.inj hs'
      have hs₂ : s₂.Aims := hs₁.requestLoop hloop
      exact hs₂

theorem Aims.sendClose (h : s.Aims) {op : WsaSend UInt8} {rest : List (WsaSend UInt8)}
    (hs : s.sends = op :: rest) : Aims ({ s with sends := rest }.modify Link.handleClose) := by
  rw [Aims, hs] at h
  exact h.tail

theorem Aims.step (h : s.Aims) {w fuel : ℕ} {e : Event} (hs' : s.step w fuel e = some s') : s'.Aims := by
  cases e with
  | recv m_recvBuf =>
    rw [ClientContext.step] at hs'
    split_ifs at hs'
    · have htaken : Aims { s with link.recvs := s.link.recvs - 1 } := h
      exact htaken.handleRecv hs'
    · obtain rfl := Option.some.inj hs'
      exact h
  | recvClose =>
    rw [ClientContext.step] at hs'
    split_ifs at hs'
    all_goals
      obtain rfl := Option.some.inj hs'
      exact h
  | send n => exact h.sendCompleted hs'
  | sendClose =>
    rw [ClientContext.step] at hs'
    split at hs'
    · obtain rfl := Option.some.inj hs'
      exact h
    next op rest hsends =>
    obtain rfl := Option.some.inj hs'
    exact h.sendClose hsends

theorem Aims.handleRecvEcho (h : s.Aims) {m_recvBuf : Bytes} (hs' : s.handleRecvEcho m_recvBuf = some s') :
    s'.Aims := by
  simp only [ClientContext.handleRecvEcho, ClientContext.echo, Option.bind_eq_bind, Option.bind_eq_some_iff] at hs'
  obtain ⟨s₁, happend, s₂, ⟨pData, -, ⟨ok, s₃⟩, hsent, ⟨h₄, m_inBuf, n⟩, -, hs₂⟩, hs'⟩ := hs'
  obtain rfl := Option.some.inj hs₂
  obtain rfl := Option.some.inj hs'
  have hs₃ : s₃.Aims := (h.appendToBuffer happend).send hsent
  exact hs₃

end ClientContext

/-! ### What is in flight, seen without the addresses -/

namespace View

section
variable {α : Type}

/-- The messages in flight are what stands in `m_outBuf`, or empty. -/
def Aims (x : View α) : Prop := Sole id (fun bytes => bytes = []) x.sends x.out

def Idle (x : View α) : Prop := ∀ bytes ∈ x.sends, bytes = []

variable {x x' : View α}

theorem Idle.aims (h : x.Idle) : x.Aims := Sole.of_void (fun bytes hbytes => h bytes hbytes) _

theorem Aims.idle (h : x.Aims) (hout : x.out = []) : x.Idle := h.void_of_cur hout

theorem Idle.postSend (h : x.Idle) : x.postSend.2.Aims := by
  rcases x.postSend_cases with ⟨-, -, hpost⟩ | ⟨-, -, hpost⟩ | ⟨-, hpost⟩
  · rw [hpost]
    exact Sole.concat h rfl
  · rw [hpost]
    exact h.aims
  · rw [hpost]
    exact h.aims

theorem Aims.sent (h : x.Aims) (pData : List α) : (x.sent pData).2.Aims := by
  simp only [View.sent]
  split_ifs with hout
  · have hidle : Idle { (x.modify fun l => l.note (.send pData)).modify Link.enterIoLoop with out := pData } :=
      h.idle hout
    have haims := hidle.postSend
    simp only [View.firstSend]
    split_ifs <;> exact haims
  · exact h

theorem Idle.nextOutBuf (h : x.Idle) (hx' : x.nextOutBuf = some x') : x'.Idle := by
  unfold View.nextOutBuf at hx'
  split at hx'
  · obtain rfl := Option.some.inj hx'
    exact h
  · obtain rfl := Option.some.inj hx'
    exact h
  · cases hx'

theorem Idle.postRest (h : x.Idle) : x.postRest.Aims := by
  have haims := h.postSend
  simp only [View.postRest]
  split_ifs
  · exact haims
  · exact haims
  · exact h.aims

theorem Idle.handleSend (h : x.Idle) {n : ℕ} (hx' : x.handleSend n = some x') : x'.Aims := by
  have hidle (out : List α) : Idle { x with out := out } := h
  by_cases hdone : x.out.drop n = []
  · rw [handleSend_done hdone, Option.map_eq_some_iff] at hx'
    obtain ⟨x₁, hnext, rfl⟩ := hx'
    exact ((hidle []).nextOutBuf hnext).postRest
  · rw [handleSend_rest hdone] at hx'
    obtain rfl := Option.some.inj hx'
    exact (hidle _).postRest

theorem Aims.sendCompleted (h : x.Aims) {n : ℕ} (hx' : x.sendCompleted n = some x') : x'.Aims := by
  unfold View.sendCompleted at hx'
  split at hx'
  · obtain rfl := Option.some.inj hx'
    exact h
  next bytes rest hsends =>
  split_ifs at hx' with hn
  · rw [Aims, hsends] at h
    have hne : bytes ≠ [] := List.ne_nil_of_length_pos (hn.1.trans_le hn.2)
    have hidle : Idle { x with sends := rest, link := x.link.note (.reported (bytes.take n)) } :=
      h.void_tail hne
    exact hidle.handleSend hx'
  · obtain rfl := Option.some.inj hx'
    exact h

theorem Aims.sendClose (h : x.Aims) {bytes : List α} {rest : List (List α)} (hs : x.sends = bytes :: rest) :
    Aims ({ x with sends := rest }.modify Link.handleClose) := by
  rw [Aims, hs] at h
  exact h.tail

end

variable {x x' : View UInt8}

theorem Aims.reply (h : x.Aims) (codec : HttpCodec) (ret : ℤ) : (x.reply codec ret).Aims := by
  have hnoted : Aims (if 0 < ret then x.modify fun l => l.note (.decoded codec.m_req) else x) := by
    split_ifs <;> exact h
  exact hnoted.sent _

theorem Aims.round (h : x.Aims) (w size : ℕ) (codec : HttpCodec) : (x.round w size codec).2.2.Aims := by
  have hreply := h.reply (codec.tryDecode w (x.inBuf.mem.take size)).2
    (codec.tryDecode w (x.inBuf.mem.take size)).1
  simp only [View.round]
  split_ifs <;> first | exact hreply | exact h

theorem Aims.requestLoop (h : x.Aims) {w size fuel : ℕ} {codec : HttpCodec}
    (hx' : View.requestLoop w size fuel codec x = some x') : x'.Aims := by
  induction fuel generalizing x codec with
  | zero => cases hx'
  | succ fuel ih =>
    have hround := h.round w size codec
    simp only [View.requestLoop] at hx'
    split_ifs at hx'
    · exact ih hround hx'
    · obtain rfl := Option.some.inj hx'
      exact hround

theorem Aims.step (h : x.Aims) {w fuel : ℕ} {e : ClientContext.Event} (hx' : x.step w fuel e = some x') :
    x'.Aims := by
  cases e with
  | recv m_recvBuf =>
    rw [View.step] at hx'
    split_ifs at hx'
    · rw [View.handleRecv] at hx'
      split_ifs at hx'
      obtain ⟨x₁, hloop, rfl⟩ := Option.map_eq_some_iff.mp hx'
      have hreceived : Aims { x with
          link.recvs := x.link.recvs - 1, inBuf := x.inBuf.write m_recvBuf } := h
      have haims : x₁.Aims := hreceived.requestLoop hloop
      exact haims
    · obtain rfl := Option.some.inj hx'
      exact h
  | recvClose =>
    rw [View.step] at hx'
    split_ifs at hx'
    all_goals
      obtain rfl := Option.some.inj hx'
      exact h
  | send n => exact h.sendCompleted hx'
  | sendClose =>
    rw [View.step] at hx'
    split at hx'
    · obtain rfl := Option.some.inj hx'
      exact h
    next bytes rest hsends =>
    obtain rfl := Option.some.inj hx'
    exact h.sendClose hsends

theorem Aims.echo (h : x.Aims) : x.echo.Aims := h.sent _

end View

/-! ### A `WSASend` reads what it was posted with -/

/-- The calls in flight read memory that is allocated and holds what they were posted with, and at most one
of them reads any bytes. -/
structure InFlight {α : Type} (s : ClientContext α) : Prop where
  one : (s.sends.filter fun op => op.bytes ≠ []).length ≤ 1
  reads : ∀ op ∈ s.sends, op.bytes ≠ [] →
    op.buf = s.m_outBuf.m_pBegin ∧ s.heap.load op.buf 0 op.len = some op.bytes

theorem Holds.inFlight {α : Type} {s : ClientContext α} {x : View α} (hx : Holds none s x) (h : s.Aims)
    (h' : x.Aims) : InFlight s where
  one := by
    have hone := h'.one
    rw [← hx.sends, List.filter_map, List.length_map] at hone
    exact hone
  reads op hop hne := by
    have hbytes : op.bytes = x.out := h'.current op.bytes (hx.sends ▸ List.mem_map_of_mem hop) hne
    have hrange : op.range = (s.m_outBuf.m_pBegin, s.m_outBuf.getBufferLen) := by
      refine h.current op hop fun hblank => hne ?_
      rw [← List.length_eq_zero_iff, ← hx.whole op hop]
      exact hblank
    obtain ⟨hbuf, hlen⟩ := Prod.mk.inj hrange
    exact ⟨hbuf, by rw [hbuf, hlen, hbytes, hx.load_out]⟩

end NetDemo.Client
