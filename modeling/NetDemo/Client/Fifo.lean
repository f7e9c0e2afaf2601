import NetDemo.Client.Output
import Mathlib.Data.List.Induction
import Mathlib.Data.List.Nodup

/-! Order of the output. The bytes of the messages are replaced by their positions, so that a byte
lost, sent twice or out of turn is seen. -/

namespace NetDemo.Client
open Foundation Memory

/-- The positions of the message of one call of `send`. -/
def positions (call len : ℕ) : List (ℕ × ℕ) := (List.range len).map fun offset => (call, offset)

def allPositions (lens : List ℕ) : List (ℕ × ℕ) := lens.zipIdx.flatMap fun m => positions m.2 m.1

theorem length_positions (call len : ℕ) : (positions call len).length = len := by simp [positions]

theorem allPositions_concat (lens : List ℕ) (len : ℕ) :
    allPositions (lens ++ [len]) = allPositions lens ++ positions lens.length len := by
  simp [allPositions, List.zipIdx_append]

theorem mem_positions {call len : ℕ} {p : ℕ × ℕ} : p ∈ positions call len ↔ p.1 = call ∧ p.2 < len := by
  obtain ⟨c, o⟩ := p
  simp only [positions, List.mem_map, List.mem_range, Prod.mk.injEq]
  constructor
  · rintro ⟨a, ha, rfl, rfl⟩
    exact ⟨rfl, ha⟩
  · rintro ⟨rfl, ho⟩
    exact ⟨o, ho, rfl, rfl⟩

theorem nodup_allPositions (lens : List ℕ) : (allPositions lens).Nodup := by
  induction lens using List.reverseRecOn with
  | nil => exact List.nodup_nil
  | append_singleton lens len ih =>
    rw [allPositions_concat, List.nodup_append]
    refine ⟨ih, List.Nodup.map (fun a b h => (Prod.mk.inj h).2) List.nodup_range, ?_⟩
    rintro p hp _ hp' rfl
    simp only [allPositions, List.mem_flatMap, mem_positions] at hp
    obtain ⟨m, hm, hcall, -⟩ := hp
    have hlt := List.snd_lt_of_mem_zipIdx hm
    rw [mem_positions] at hp'
    omega

inductive OutEvent
  | send (len : ℕ) (hpos : 0 < len) (hlen : len < 2 ^ 32)
  | completion (dwBytesTransferred : ℕ)

namespace ClientContext

def event (s : ClientContext (ℕ × ℕ)) : OutEvent → Option (ClientContext (ℕ × ℕ))
  | .send len _ _ => (s.send (positions s.link.sent.length len)).map Prod.snd
  | .completion dwBytesTransferred => s.sendCompleted dwBytesTransferred

def lens (s : ClientContext (ℕ × ℕ)) : List ℕ := s.link.sent.map List.length

end ClientContext

/-- What was reported, `m_outBuf` and the queue make up all messages in order, and one `WSASend` for
the whole of `m_outBuf` is outstanding just when that is not empty. -/
structure Fifo (s : ClientContext (ℕ × ℕ)) : Prop where
  order : ∃ out rest, bufferBytes s.heap s.m_outBuf = some out ∧ s.QueueHolds rest ∧
    s.link.reported ++ out ++ rest.flatten = allPositions s.lens
  once : (allPositions s.lens).Nodup
  outstanding : s.sends.map (fun op => (op.buf, op.len)) =
    if s.m_outBuf.getBufferLen = 0 then [] else [(s.m_outBuf.m_pBegin, s.m_outBuf.getBufferLen)]
  wsaBuf : s.m_outBuf.getBufferLen ≠ 0 → s.m_wsaBuf = (s.m_outBuf.m_pBegin, s.m_outBuf.getBufferLen)

/-- A message finds `m_outBuf` empty, and it is not too long to be rounded up. -/
def FindsRoom (s : ClientContext (ℕ × ℕ)) : OutEvent → Prop
  | .send len _ _ => s.m_outBuf.getBufferLen = 0 ∧ len ≤ 2 ^ 32 - 1024
  | .completion _ => True

/-- The pending `WSASend` is about the present `m_outBuf`. -/
def Aimed {α : Type} (s : ClientContext α) : Prop :=
  ∀ op ∈ s.sends, (op.buf, op.len) = (s.m_outBuf.m_pBegin, s.m_outBuf.getBufferLen) ∧
    s.m_wsaBuf = (s.m_outBuf.m_pBegin, s.m_outBuf.getBufferLen)

/-- Nothing is queued, and what is in `m_outBuf` is on its way. -/
structure Flowing (s : ClientContext (ℕ × ℕ)) (x : View (ℕ × ℕ)) : Prop where
  holds : Holds none s x
  socket : x.link.m_socket = true
  net : ∀ k, x.link.net k = true
  queue : x.queue = []
  sends : x.sends = if x.out = [] then [] else [x.out]
  aimed : Aimed s
  order : x.link.reported ++ x.out = allPositions (x.link.sent.map List.length)

section
variable {α : Type}

theorem postSend_inv {s s' : ClientContext α} {r : PostResult} (h : s.postSend = some (r, s')) :
    s'.m_outBuf = s.m_outBuf ∧ s'.m_wsaBuf = s.m_wsaBuf ∧
      ∀ op ∈ s'.sends, op ∈ s.sends ∨ (op.buf, op.len) = s.m_wsaBuf := by
  unfold ClientContext.postSend at h
  split_ifs at h
  · simp only [Option.bind_eq_bind, Option.bind_eq_some_iff] at h
    obtain ⟨bytes, -, h⟩ := h
    split_ifs at h
    · obtain ⟨-, rfl⟩ := Prod.mk.inj (Option.some.inj h)
      refine ⟨rfl, rfl, fun op hop => ?_⟩
      rcases List.mem_append.mp hop with hop | hop
      · exact .inl hop
      · rw [List.mem_singleton.mp hop]
        exact .inr rfl
    · obtain ⟨-, rfl⟩ := Prod.mk.inj (Option.some.inj h)
      exact ⟨rfl, rfl, fun op hop => .inl hop⟩
  · obtain ⟨-, rfl⟩ := Prod.mk.inj (Option.some.inj h)
    exact ⟨rfl, rfl, fun op hop => .inl hop⟩

theorem aimed_modify {s : ClientContext α} (h : Aimed s) (f : Link α → Link α) : Aimed (s.modify f) := h

/-- On a context without a pending `WSASend`, whatever is posted is about the present `m_outBuf`. -/
theorem postSend_aimed_of_nil {s s' : ClientContext α} {r : PostResult} (hs : s.sends = [])
    (h : s.setWsaBuf.postSend = some (r, s')) : Aimed s' := by
  obtain ⟨hout, hwsa, hsends⟩ := postSend_inv h
  intro op hop
  rw [hout]
  refine ⟨(hsends op hop).resolve_left ?_, hwsa⟩
  change op ∉ s.sends
  rw [hs]
  exact List.not_mem_nil

variable [Inhabited α]

theorem firstSend_aimed {s s' : ClientContext α} {b : Buffer} {ok : Bool} (hs : s.sends = [])
    (h : s.firstSend b = some (ok, s')) : Aimed s' := by
  simp only [ClientContext.firstSend, Option.bind_eq_bind, Option.bind_eq_some_iff] at h
  obtain ⟨⟨h₁, m_outBuf⟩, -, ⟨r, s₁⟩, hpost, h⟩ := h
  have haim := postSend_aimed_of_nil (s := { s.modify Link.enterIoLoop with
    heap := h₁, m_outBuf := m_outBuf }) hs hpost
  by_cases hf : r = .failed
  · simp only [hf, if_true, Option.pure_def, Option.some.injEq, Prod.mk.injEq] at h
    rw [← h.2]
    exact aimed_modify haim _
  · simp only [hf, if_false, Option.pure_def, Option.some.injEq, Prod.mk.injEq] at h
    rw [← h.2]
    exact haim

theorem send_aimed {s s' : ClientContext α} {pData : List α} {ok : Bool} (hs : s.sends = [])
    (hout : s.m_outBuf.getBufferLen = 0) (h : s.send pData = some (ok, s')) : Aimed s' := by
  simp only [ClientContext.send, hout, if_true, Option.bind_eq_bind, Option.bind_eq_some_iff] at h
  obtain ⟨⟨h₁, sendBuf, n⟩, -, ⟨ok₁, s₁⟩, hfirst, h₂, -, h⟩ := h
  have haim := firstSend_aimed (s := { s with heap := h₁, link := s.link.note (.send pData) }) hs hfirst
  simp only [Option.pure_def, Option.some.injEq, Prod.mk.injEq] at h
  rw [← h.2]
  exact haim

omit [Inhabited α] in
theorem postRest_aimed {s s' : ClientContext α} (hs : s.sends = []) (h : s.postRest = some s') :
    Aimed s' := by
  rw [ClientContext.postRest] at h
  split_ifs at h
  · simp only [Option.bind_eq_bind, Option.bind_eq_some_iff] at h
    obtain ⟨⟨r, s₁⟩, hpost, h⟩ := h
    have haim := postSend_aimed_of_nil hs hpost
    by_cases hf : r = .failed
    · simp only [hf, if_true, Option.pure_def, Option.some.injEq] at h
      rw [← h]
      exact aimed_modify haim _
    · simp only [hf, if_false, Option.pure_def, Option.some.injEq] at h
      rw [← h]
      exact haim
  · obtain rfl := Option.some.inj h
    intro op hop
    rw [hs] at hop
    cases hop

theorem nextOutBuf_sends {s s' : ClientContext α} (h : s.nextOutBuf = some s') : s'.sends = s.sends := by
  simp only [ClientContext.nextOutBuf, Option.bind_eq_bind, Option.bind_eq_some_iff] at h
  obtain ⟨⟨h₁, m_outBuf⟩, -, h⟩ := h
  cases hq : s.m_outBufQueue with
  | nil =>
    simp only [hq, Option.pure_def, Option.some.injEq] at h
    rw [← h, ClientContext.modify_sends]
  | cons front rest =>
    simp only [hq, Option.bind_eq_some_iff, Option.pure_def, Option.some.injEq] at h
    obtain ⟨_, -, _, -, _, -, h⟩ := h
    rw [← h]

theorem handleSend_aimed {s s' : ClientContext α} {n : ℕ} (hs : s.sends = [])
    (h : s.handleSend n = some s') : Aimed s' := by
  simp only [ClientContext.handleSend, Option.bind_eq_bind, Option.bind_eq_some_iff] at h
  obtain ⟨⟨h₁, m_outBuf, n'⟩, -, h⟩ := h
  by_cases hout : 0 = m_outBuf.getBufferLen
  · simp only [hout, if_true, Option.bind_eq_some_iff] at h
    obtain ⟨s₁, hnext, h⟩ := h
    exact postRest_aimed ((nextOutBuf_sends hnext).trans hs) h
  · simp only [hout, if_false] at h
    exact postRest_aimed (s := { s with heap := h₁, m_outBuf := m_outBuf }) hs h

end

/-! ### Messages sent one at a time -/

namespace View

theorem handleSend_open {α : Type} {x : View α} (hs : x.link.m_socket = true)
    (hn : ∀ k, x.link.net k = true) (hq : x.queue = []) (hsends : x.sends = []) (n : ℕ) :
    ∃ x', x.handleSend n = some x' ∧ x'.link.m_socket = true ∧ (∀ k, x'.link.net k = true) ∧
      x'.queue = [] ∧ x'.sends = (if x'.out = [] then [] else [x'.out]) ∧ x'.out = x.out.drop n ∧
      x'.link.reported = x.link.reported ∧ x'.link.sent = x.link.sent ∧
      x'.link.m_nPendingIoCnt =
        if x'.out = [] then x.link.releaseClientContext.m_nPendingIoCnt else x.link.m_nPendingIoCnt := by
  by_cases hd : x.out.drop n = []
  · refine ⟨({ x with out := [] } : View α).modify Link.releaseClientContext, ?_, ?_⟩
    · rw [handleSend_done hd, nextOutBuf]
      simp only [hq]
      rw [Option.map_some, postRest_nil (by rw [modify_out])]
    · rw [modify_link, Link.releaseClientContext_eq]
      exact ⟨hs, hn, hq, by simp [hsends], by rw [hd, modify_out], rfl, rfl, (if_pos rfl).symm⟩
  · have hpost := postSend_open (x := { x with out := x.out.drop n }) hs hn
    refine ⟨_, handleSend_rest hd, ?_⟩
    rw [postRest, if_pos hd, hpost]
    refine ⟨hs, fun k => hn (k + 1), hq, by simp [hd, hsends], rfl, ?_, ?_, (if_neg hd).symm⟩
    · simp [Link.reported, Link.filterMap_note, Link.answer, Note.asReported]
    · simp [Link.sent, Link.filterMap_note, Link.answer, Note.asSent]

end View

namespace Flowing
variable {s : ClientContext (ℕ × ℕ)} {x : View (ℕ × ℕ)}

theorem accepted : Flowing (.accepted fun _ => true)
    ((View.new fun _ => true).modify Link.handleAccept) where
  holds := (Holds.new _).modify Link.handleAccept
  socket := rfl
  net _ := rfl
  queue := rfl
  sends := rfl
  aimed _ h := by cases h
  order := rfl

theorem send (h : Flowing s x) {len : ℕ} (hpos : 0 < len) (hlen : len < 2 ^ 32)
    (hok : FindsRoom s (.send len hpos hlen)) :
    ∃ s' x', s.event (.send len hpos hlen) = some s' ∧ Flowing s' x' := by
  have hx := h.holds
  have hout : x.out = [] := hx.out_eq_nil.mp hok.1.symm
  have hsends : x.sends = [] := by rw [h.sends, if_pos hout]
  have hlen' := length_positions s.link.sent.length len
  have hne : positions s.link.sent.length len ≠ [] := fun he => by
    rw [he] at hlen'
    simp at hlen'
    omega
  obtain ⟨s', e, hx', -⟩ := hx.send (positions s.link.sent.length len) (by rw [hlen']; exact hok.2)
  have haim := send_aimed (by simpa [hsends] using hx.sends) hok.1 e
  have hpost := View.postSend_open
    (x := { (x.modify fun l => l.note (.send (positions s.link.sent.length len))).modify
      Link.enterIoLoop with out := positions s.link.sent.length len }) h.socket h.net
  rw [View.sent_idle hout, View.firstSend, hpost] at hx'
  refine ⟨s', _, by rw [ClientContext.event, e]; rfl, hx', h.socket, fun k => h.net (k + 1), h.queue, ?_,
    haim, ?_⟩
  · simp [hne, hsends]
  · have horder := h.order
    rw [hout, List.append_nil] at horder
    simp only [hx.link, Link.sent, Link.reported] at horder ⊢
    simp [Link.filterMap_note, Link.answer, Link.enterIoLoop, Note.asSent, Note.asReported, horder,
      allPositions_concat, length_positions]

theorem completion (h : Flowing s x) (n : ℕ) : ∃ s' x', s.sendCompleted n = some s' ∧ Flowing s' x' := by
  have hx := h.holds
  have hsends := hx.sends
  cases hs : s.sends with
  | nil => exact ⟨s, x, by rw [ClientContext.sendCompleted, hs], h⟩
  | cons op rest =>
    rw [hs, h.sends] at hsends
    have hout : x.out ≠ [] := fun he => by simp [he] at hsends
    obtain ⟨hop, hrest⟩ : op.bytes = x.out ∧ rest = [] := by simpa [hout] using hsends
    have hwhole := hx.whole op (by rw [hs]; exact List.mem_cons_self)
    by_cases hn : 0 < n ∧ n ≤ op.len
    swap
    · exact ⟨s, x, by simp only [ClientContext.sendCompleted, hs, if_neg hn], h⟩
    -- The view tells what is left, as nothing is queued and no other call is in flight.
    have hrel := hx.sendCompleted n
    have hxs : x.sends = [x.out] := by rw [h.sends, if_neg hout]
    have hview : x.sendCompleted n =
        ({ x with sends := [], link := x.link.note (.reported (x.out.take n)) } : View _).handleSend n := by
      simp only [View.sendCompleted, hxs]
      exact if_pos ⟨hn.1, by rw [← hop, ← hwhole]; exact hn.2⟩
    obtain ⟨x', e, hsocket, hnet, hqueue, hsends', hout', hreported, hsent, -⟩ :=
      View.handleSend_open (x := { x with
        sends := [], link := x.link.note (.reported (x.out.take n)) }) h.socket h.net h.queue rfl n
    rw [hview, e] at hrel
    obtain ⟨s', e', hx', -⟩ := rel_some_right hrel
    refine ⟨s', x', e', hx', hsocket, hnet, hqueue, hsends', ?_, ?_⟩
    · simp only [ClientContext.sendCompleted, hs, if_pos hn] at e'
      exact handleSend_aimed (by exact hrest) e'
    · have hr : (x.link.note (.reported (x.out.take n))).reported = x.link.reported ++ x.out.take n := by
        simp [Link.reported, Link.filterMap_note, Note.asReported]
      have hs : (x.link.note (.reported (x.out.take n))).sent = x.link.sent := by
        simp [Link.sent, Link.filterMap_note, Note.asSent]
      rw [hreported, hr, hout', hsent, hs, List.append_assoc, List.take_append_drop]
      exact h.order

theorem fifo (h : Flowing s x) : Fifo s where
  order := by
    refine ⟨x.out, [], h.holds.load_out, ?_, ?_⟩
    · have hq := h.holds.queue
      rw [h.queue, List.forall₂_nil_right_iff] at hq
      rw [ClientContext.QueueHolds, hq]
      exact .nil
    · rw [List.flatten_nil, List.append_nil, ClientContext.lens, h.holds.link]
      exact h.order
  once := nodup_allPositions _
  outstanding := by
    have hlen := h.holds.outLen
    have hsends := h.holds.sends
    rw [h.sends] at hsends
    by_cases hout : x.out = []
    · rw [if_pos hout, List.map_eq_nil_iff] at hsends
      simp [hsends, hlen, hout]
    · rw [if_neg hout] at hsends
      obtain ⟨op, hop, -⟩ := List.map_eq_singleton_iff.mp hsends
      rw [if_neg (by rw [hlen]; simpa using hout), hop, List.map_singleton,
        (h.aimed op (by rw [hop]; exact List.mem_singleton.mpr rfl)).1]
  wsaBuf hne := by
    have hlen := h.holds.outLen
    have hsends := h.holds.sends
    have hout : x.out ≠ [] := fun he => hne (by rw [hlen, he]; rfl)
    rw [h.sends, if_neg hout] at hsends
    obtain ⟨op, hop, -⟩ := List.map_eq_singleton_iff.mp hsends
    exact (h.aimed op (by rw [hop]; exact List.mem_singleton.mpr rfl)).2

end Flowing

theorem not_queueHolds {α : Type} {s : ClientContext α} {b : Buffer} (hb : b ∈ s.m_outBufQueue) {pData : List α}
    (hq : Queued s.heap b pData) (hne : pData ≠ []) (messages : List (List α)) :
    ¬ s.QueueHolds messages := by
  intro hholds
  have hbytes : ∃ bytes, bufferBytes s.heap b = some bytes := by
    unfold ClientContext.QueueHolds at hholds
    generalize s.m_outBufQueue = bs at hb hholds
    induction hholds with
    | nil => cases hb
    | cons hfront _ ih =>
      rcases List.mem_cons.mp hb with rfl | hb
      · exact ⟨_, hfront⟩
      · exact ih hb
  cases hq with
  | empty => exact hne rfl
  | lost a pData w hd hlen =>
    obtain ⟨bytes, hbytes⟩ := hbytes
    rw [bufferBytes, hd.load (by rw [hlen]; exact Nat.succ_ne_zero _)] at hbytes
    cases hbytes

theorem Fifo.not_crowded {s s' : ClientContext (ℕ × ℕ)} {x : View (ℕ × ℕ)} (hx : Holds none s x) {len : ℕ}
    {hpos : 0 < len} {hlen : len < 2 ^ 32} (hbad : ¬ FindsRoom s (.send len hpos hlen))
    (hs' : s.event (.send len hpos hlen) = some s') : ¬ Fifo s' := by
  have hlen' := length_positions s.link.sent.length len
  have hne : positions s.link.sent.length len ≠ [] := fun he => by
    rw [he] at hlen'
    simp at hlen'
    omega
  by_cases hshort : len ≤ 2 ^ 32 - 1024
  swap
  · rw [ClientContext.event, Holds.send_fault s (by rw [hlen']; exact hlen) (by omega)] at hs'
    cases hs'
  obtain ⟨s'', e, hx', -⟩ := hx.send (positions s.link.sent.length len) (by rw [hlen']; exact hshort)
  obtain rfl : s'' = s' := by simpa [ClientContext.event, e] using hs'
  have hout : x.out ≠ [] := fun hnil => hbad ⟨(hx.out_eq_nil.mpr hnil).symm, hshort⟩
  rw [View.sent_busy hout] at hx'
  obtain ⟨b, hb, hq⟩ := hx'.exists_queued (List.mem_append_right _ (List.mem_singleton.mpr rfl))
  rintro ⟨⟨-, rest, -, hholds, -⟩, -⟩
  exact not_queueHolds hb hq hne rest hholds

theorem Flowing.always_iff {s : ClientContext (ℕ × ℕ)} {x : View (ℕ × ℕ)} (h : Flowing s x)
    (es : List OutEvent) :
    Always ClientContext.event Fifo s es ↔ Meets ClientContext.event FindsRoom s es := by
  refine always_iff_meets (fun s => ∃ x, Flowing s x) (fun s ⟨x, h⟩ => h.fifo) ?_ ?_ ⟨x, h⟩ es
  · rintro s (⟨len, hpos, hlen⟩ | n) ⟨x, h⟩ hok
    · obtain ⟨s', x', e, h'⟩ := h.send hpos hlen hok
      exact ⟨s', e, x', h'⟩
    · obtain ⟨s', x', e, h'⟩ := h.completion n
      exact ⟨s', e, x', h'⟩
  · rintro s (⟨len, hpos, hlen⟩ | n) s' ⟨x, h⟩ hno hs'
    · exact Fifo.not_crowded h.holds hno hs'
    · exact absurd trivial hno

/-- The output is in order and complete just when every message finds `m_outBuf` empty. -/
theorem fifo_iff (es : List OutEvent) :
    Always ClientContext.event Fifo (.accepted fun _ => true) es ↔
      Meets ClientContext.event FindsRoom (.accepted fun _ => true) es :=
  Flowing.accepted.always_iff es

/-- Two messages, the second one before the first is on its way, are already too many. -/
theorem not_fifo_two_sends : ¬ Always ClientContext.event Fifo (.accepted fun _ => true)
    [.send 1 (by decide) (by decide), .send 1 (by decide) (by decide)] := by
  have h := Flowing.accepted
  rw [h.always_iff]
  rintro ⟨-, hsecond⟩
  obtain ⟨s', e, hx', -⟩ := h.holds.send (positions 0 1) (by decide)
  have hlen := hx'.outLen
  have hevent : (ClientContext.accepted fun _ => true).event (.send 1 (by decide) (by decide)) = some s' := by
    have hsent : (ClientContext.accepted (α := ℕ × ℕ) fun _ => true).link.sent = [] := rfl
    rw [ClientContext.event, hsent, List.length_nil, e]
    rfl
  obtain ⟨hmeets, -⟩ := hsecond s' hevent
  rw [hmeets.1] at hlen
  exact absurd hlen (by decide)

end NetDemo.Client
