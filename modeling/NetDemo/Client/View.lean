import NetDemo.Client.Context
import NetDemo.Memory.Ownership
import NetDemo.Foundation.Transition
import Mathlib.Data.List.Forall2

/-! A `ClientContext` without addresses: the cells of `m_inBuf`, the live bytes of `m_outBuf` and the
messages in the queue. A queued message that is not empty has lost its block. -/

namespace NetDemo.Client
open Foundation Memory Http

structure View (α : Type) where
  link : Link α
  inBuf : Cells α
  out : List α
  queue : List (List α)
  sends : List (List α)

namespace View
variable {α : Type}

def new (net : ℕ → Bool) : View α := ⟨Link.new net, Cells.empty, [], [], []⟩

def modify (x : View α) (f : Link α → Link α) : View α := { x with link := f x.link }

@[simp] theorem modify_link (x : View α) (f : Link α → Link α) : (x.modify f).link = f x.link := rfl

@[simp] theorem modify_inBuf (x : View α) (f : Link α → Link α) : (x.modify f).inBuf = x.inBuf := rfl

@[simp] theorem modify_out (x : View α) (f : Link α → Link α) : (x.modify f).out = x.out := rfl

@[simp] theorem modify_queue (x : View α) (f : Link α → Link α) : (x.modify f).queue = x.queue := rfl

@[simp] theorem modify_sends (x : View α) (f : Link α → Link α) : (x.modify f).sends = x.sends := rfl

def postSend (x : View α) : PostResult × View α :=
  if x.link.m_socket then
    let (ok, link) := x.link.answer
    let x := { x with link := link }
    if ok then
      (.successful, { x with sends := x.sends ++ [x.out], link := x.link.note (.posted x.out) })
    else (.failed, x)
  else (.invalidSocket, x)

def firstSend (x : View α) (pData : List α) : Bool × View α :=
  let (result, x) := { x.modify Link.enterIoLoop with out := pData }.postSend
  if result = .failed then (false, x.modify fun l => l.closeClient.releaseClientContext)
  else (true, x)

def queueSend (x : View α) (pData : List α) : View α :=
  { x with queue := x.queue ++ [pData], link := x.link.note (.queued pData) }

/-- The effect of a call of `send` that does not fault. -/
def sent (x : View α) (pData : List α) : Bool × View α :=
  let x := x.modify fun l => l.note (.send pData)
  if x.out = [] then x.firstSend pData else (true, x.queueSend pData)

def send (x : View α) (pData : List α) : Option (Bool × View α) :=
  if pData.length ≤ 2 ^ 32 - 1024 then some (x.sent pData) else none

theorem postSend_cases (x : View α) :
    (x.link.m_socket = true ∧ x.link.net 0 = true ∧ x.postSend = (.successful, { x with
      sends := x.sends ++ [x.out], link := x.link.answer.2.note (.posted x.out) })) ∨
    (x.link.m_socket = true ∧ x.link.net 0 = false ∧
      x.postSend = (.failed, { x with link := x.link.answer.2 })) ∨
    (x.link.m_socket = false ∧ x.postSend = (.invalidSocket, x)) := by
  by_cases hs : x.link.m_socket
  · by_cases hn : x.link.net 0
    · exact .inl ⟨hs, hn, by simp only [postSend, hs, if_true, Link.answer, hn]⟩
    · rw [Bool.not_eq_true] at hn
      exact .inr (.inl ⟨hs, hn, by simp [postSend, hs, Link.answer, hn]⟩)
  · rw [Bool.not_eq_true] at hs
    exact .inr (.inr ⟨hs, by simp [postSend, hs]⟩)

theorem postSend_open {x : View α} (hs : x.link.m_socket = true)
    (hn : ∀ k, x.link.net k = true) : x.postSend = (.successful, { x with
      sends := x.sends ++ [x.out], link := x.link.answer.2.note (.posted x.out) }) := by
  rcases x.postSend_cases with ⟨-, -, h⟩ | ⟨-, hno, -⟩ | ⟨hno, -⟩
  · exact h
  · rw [hn] at hno
    cases hno
  · rw [hs] at hno
    cases hno

theorem postSend_inBuf (x : View α) : x.postSend.2.inBuf = x.inBuf := by
  rcases x.postSend_cases with ⟨-, -, h⟩ | ⟨-, -, h⟩ | ⟨-, h⟩ <;> rw [h]

theorem firstSend_inBuf (x : View α) (pData : List α) : (x.firstSend pData).2.inBuf = x.inBuf := by
  simp only [firstSend]
  split_ifs <;> simp only [modify_inBuf, postSend_inBuf]

theorem sent_inBuf (x : View α) (pData : List α) : (x.sent pData).2.inBuf = x.inBuf := by
  simp only [sent]
  split_ifs
  · rw [firstSend_inBuf, modify_inBuf]
  · simp only [queueSend, modify_inBuf]

def nextOutBuf (x : View α) : Option (View α) :=
  match x.queue with
  | [] => some (x.modify Link.releaseClientContext)
  | [] :: rest => some { x with queue := rest, out := [], link := x.link.note (.copied []) }
  | (_ :: _) :: _ => none

def postRest (x : View α) : View α :=
  if x.out ≠ [] then
    let (result, x) := x.postSend
    if result = .failed then x.modify fun l => l.closeClient.releaseClientContext else x
  else x

def handleSend (x : View α) (dwBytesTransferred : ℕ) : Option (View α) :=
  let x := { x with out := x.out.drop dwBytesTransferred }
  (if x.out = [] then x.nextOutBuf else some x).map postRest

theorem handleSend_rest {x : View α} {n : ℕ} (h : x.out.drop n ≠ []) :
    x.handleSend n = some { x with out := x.out.drop n }.postRest := by
  simp only [handleSend, if_neg h, Option.map_some]

theorem handleSend_done {x : View α} {n : ℕ} (h : x.out.drop n = []) :
    x.handleSend n = ({ x with out := [] } : View α).nextOutBuf.map postRest := by
  simp only [handleSend, h, if_true]

theorem postRest_nil {x : View α} (h : x.out = []) : x.postRest = x := by
  simp only [postRest, h, ne_eq, not_true, if_false]

def sendCompleted (x : View α) (dwBytesTransferred : ℕ) : Option (View α) :=
  match x.sends with
  | [] => some x
  | bytes :: rest =>
    if 0 < dwBytesTransferred ∧ dwBytesTransferred ≤ bytes.length then
      { x with
        sends := rest
        link := x.link.note (.reported (bytes.take dwBytesTransferred)) }.handleSend
          dwBytesTransferred
    else some x

end View

/-- What is left of a `Buffer` that was pushed with these bytes. -/
inductive Queued {α : Type} (h : Heap α) (b : Buffer) : List α → Prop
  | empty : b = Buffer.new → Queued h b []
  | lost (a : α) (pData : List α) (w : Cells α) : Dead h b → b.getBufferLen = (a :: pData).length →
      b.m_nSize = w.cap → w.cap ≤ 2 ^ 32 - 1024 → Queued h b (a :: pData)

/-- The context `s` holds what the view `x` shows; `q` is the block of a local `Buffer`. -/
structure Holds {α : Type} (q : Ptr) (s : ClientContext α) (x : View α) : Prop where
  link : s.link = x.link
  inBuf : Owns s.heap s.m_inBuf x.inBuf
  inEnd : s.m_inBuf.m_pEnd = x.inBuf.len
  out : ∃ u, Owns s.heap s.m_outBuf u ∧ u.live = x.out
  apart : ∀ i, s.m_inBuf.m_pBegin = some i → s.m_outBuf.m_pBegin ≠ some i
  queue : List.Forall₂ (Queued s.heap) s.m_outBufQueue x.queue
  sends : s.sends.map WsaSend.bytes = x.sends
  whole : ∀ op ∈ s.sends, op.len = op.bytes.length
  room : ∀ op ∈ s.sends, op.len ≤ s.m_outBuf.m_nSize
  owned : ∀ i, (s.heap.block i).isSome →
    s.m_inBuf.m_pBegin = some i ∨ s.m_outBuf.m_pBegin = some i ∨ q = some i

section
variable {α : Type}

theorem Queued.frame {h h' : Heap α} {b : Buffer} {pData : List α} {p p' : Ptr} {cells : List α}
    (hq : Queued h b pData) (hp : h.Points p cells) (hr : Heap.Replaces h p h' p') :
    Queued h' b pData := by
  cases hq with
  | empty hb => exact .empty hb
  | lost a pData w hd hlen hsize hcap => exact .lost a pData w (hd.frame hp hr) hlen hsize hcap

namespace Holds

theorem new (net : ℕ → Bool) : Holds none (ClientContext.new (α := α) net) (View.new net) where
  link := rfl
  inBuf := Owns.new _
  inEnd := rfl
  out := ⟨Cells.empty, Owns.new _, rfl⟩
  apart i hi := by cases hi
  queue := .nil
  sends := rfl
  whole := by simp [ClientContext.new]
  room := by simp [ClientContext.new]
  owned i hi := by cases hi

variable {q : Ptr} {s : ClientContext α} {x : View α}

theorem modify (hx : Holds q s x) (f : Link α → Link α) : Holds q (s.modify f) (x.modify f) :=
  { hx with link := congrArg f hx.link }

theorem outLen (hx : Holds q s x) : s.m_outBuf.getBufferLen = x.out.length := by
  obtain ⟨u, hu, hlive⟩ := hx.out
  rw [hu.len, ← hlive, u.length_live]

theorem out_eq_nil (hx : Holds q s x) : 0 = s.m_outBuf.getBufferLen ↔ x.out = [] := by
  rw [hx.outLen, eq_comm, List.length_eq_zero_iff]

theorem load_out (hx : Holds q s x) :
    s.heap.load s.m_outBuf.m_pBegin 0 s.m_outBuf.getBufferLen = some x.out := by
  obtain ⟨u, hu, hlive⟩ := hx.out
  rw [hu.len, hu.load_live le_rfl, ← hlive, ← u.length_live, List.take_length]

theorem exists_queued (hx : Holds q s x) {pData : List α} (hd : pData ∈ x.queue) :
    ∃ b ∈ s.m_outBufQueue, Queued s.heap b pData := by
  have hq := hx.queue
  generalize s.m_outBufQueue = bs at hq
  generalize x.queue = ds at hq hd
  induction hq with
  | nil => cases hd
  | @cons b d bs ds hb _ ih =>
    rcases List.mem_cons.mp hd with rfl | hd
    · exact ⟨b, List.mem_cons_self, hb⟩
    · obtain ⟨b', hb', hq'⟩ := ih hd
      exact ⟨b', List.mem_cons_of_mem _ hb', hq'⟩

theorem queue_frame {h' : Heap α} {p p' : Ptr} {cells : List α} (hx : Holds q s x)
    (hp : s.heap.Points p cells) (hr : Heap.Replaces s.heap p h' p') :
    List.Forall₂ (Queued h') s.m_outBufQueue x.queue :=
  hx.queue.imp fun _ _ hq => hq.frame hp hr

theorem setLocal {h' : Heap α} {q' : Ptr} {cells : List α} (hx : Holds q s x)
    (hp : s.heap.Points q cells) (hr : Heap.Replaces s.heap q h' q')
    (hin : ∀ i, s.m_inBuf.m_pBegin = some i → q ≠ some i)
    (hout : ∀ i, s.m_outBuf.m_pBegin = some i → q ≠ some i) : Holds q' { s with heap := h' } x where
  link := hx.link
  inBuf := hx.inBuf.frame hr hin
  inEnd := hx.inEnd
  out := by
    obtain ⟨u, hu, hlive⟩ := hx.out
    exact ⟨u, hu.frame hr hout, hlive⟩
  apart := hx.apart
  queue := hx.queue_frame hp hr
  sends := hx.sends
  whole := hx.whole
  room := hx.room
  owned i hi := by
    rcases hr.of_isSome hi with he | ⟨hold, hne⟩
    · exact .inr (.inr he)
    · rcases hx.owned i hold with h | h | h
      · exact .inl h
      · exact .inr (.inl h)
      · exact absurd h hne

theorem setOut {h' : Heap α} {b : Buffer} {u : Cells α} (hx : Holds q s x) (hu : Owns h' b u)
    (hr : Heap.Replaces s.heap s.m_outBuf.m_pBegin h' b.m_pBegin) (hcap : s.m_outBuf.m_nSize ≤ u.cap) :
    Holds q { s with heap := h', m_outBuf := b } { x with out := u.live } where
  link := hx.link
  inBuf := hx.inBuf.frame hr fun i hi => hx.apart i hi
  inEnd := hx.inEnd
  out := ⟨u, hu, rfl⟩
  apart i hi := by
    have hp := hx.inBuf.points
    rw [hi] at hp
    exact hr.apart hp.lt_next (hx.apart i hi)
  queue := by
    obtain ⟨u, hu, -⟩ := hx.out
    exact hx.queue_frame hu.points hr
  sends := hx.sends
  whole := hx.whole
  room op hop := by
    have := hx.room op hop
    simp only [hu.size]
    omega
  owned i hi := by
    rcases hr.of_isSome hi with he | ⟨hold, hne⟩
    · exact .inr (.inl he)
    · rcases hx.owned i hold with h | h | h
      · exact .inl h
      · exact absurd h hne
      · exact .inr (.inr h)

theorem setIn {h' : Heap α} {b : Buffer} {v : Cells α} (hx : Holds q s x) (hv : Owns h' b v)
    (hend : b.m_pEnd = v.len) (hr : Heap.Replaces s.heap s.m_inBuf.m_pBegin h' b.m_pBegin) :
    Holds q { s with heap := h', m_inBuf := b } { x with inBuf := v } where
  link := hx.link
  inBuf := hv
  inEnd := hend
  out := by
    obtain ⟨u, hu, hlive⟩ := hx.out
    exact ⟨u, hu.frame hr fun i hi he => hx.apart i he hi, hlive⟩
  apart i hi he := by
    obtain ⟨u, hu, -⟩ := hx.out
    have hp := hu.points
    rw [he] at hp
    exact hr.apart hp.lt_next (fun hin => hx.apart i hin he) hi
  queue := hx.queue_frame hx.inBuf.points hr
  sends := hx.sends
  whole := hx.whole
  room := hx.room
  owned i hi := by
    rcases hr.of_isSome hi with he | ⟨hold, hne⟩
    · exact .inl he
    · rcases hx.owned i hold with h | h | h
      · exact absurd h hne
      · exact .inr (.inl h)
      · exact .inr (.inr h)

theorem postSend (hx : Holds q s x) : ∃ s', s.setWsaBuf.postSend = some (x.postSend.1, s') ∧
    Holds q s' x.postSend.2 ∧ s'.heap = s.heap ∧ s'.m_inBuf = s.m_inBuf ∧ s'.m_outBuf = s.m_outBuf := by
  have hlen := hx.outLen
  have hroom : s.m_outBuf.getBufferLen ≤ s.m_outBuf.m_nSize := by
    obtain ⟨u, hu, -⟩ := hx.out
    rw [hu.len, hu.size]
    exact u.len_le_cap
  simp only [ClientContext.postSend, View.postSend, ClientContext.setWsaBuf, hx.link, hx.load_out]
  by_cases hs : x.link.m_socket
  · simp only [hs, if_true, Option.bind_eq_bind, Option.bind_some, Link.answer, Option.pure_def]
    by_cases hok : x.link.net 0
    · simp only [hok, if_true]
      refine ⟨_, rfl, ?_, rfl, rfl, rfl⟩
      have hall {P : WsaSend α → Prop} (h : ∀ op ∈ s.sends, P op)
          (hl : P ⟨s.m_outBuf.m_pBegin, s.m_outBuf.getBufferLen, x.out⟩) : ∀ op ∈ s.sends ++
            [⟨s.m_outBuf.m_pBegin, s.m_outBuf.getBufferLen, x.out⟩], P op := by
        intro op hop
        rcases List.mem_append.mp hop with hop | hop
        · exact h op hop
        · rwa [List.mem_singleton.mp hop]
      exact { hx with
        link := rfl
        sends := by simp [hx.sends]
        whole := hall hx.whole hlen
        room := hall hx.room hroom }
    · simp only [hok]
      exact ⟨_, rfl, { hx with link := rfl }, rfl, rfl, rfl⟩
  · simp only [hs, Bool.false_eq_true, if_false]
    exact ⟨_, rfl, { hx with link := rfl }, rfl, rfl, rfl⟩

variable [Inhabited α]

theorem appendToBuffer (hx : Holds q s x) {pInBuf : List α}
    (hlen : x.inBuf.len + pInBuf.length ≤ 2 ^ 32 - 1024) :
    ∃ s', s.appendToBuffer pInBuf = some s' ∧ Holds q s' { x with inBuf := x.inBuf.write pInBuf } := by
  obtain ⟨h', b', e, ho', hend', hr⟩ := hx.inBuf.write pInBuf (.inl hx.inEnd) hlen
  refine ⟨_, ?_, hx.setIn ho' hend' hr⟩
  simp only [ClientContext.appendToBuffer, e, Option.bind_eq_bind, Option.bind_some, Option.pure_def]

theorem appendToBuffer_fault (hx : Holds q s x) {pInBuf : List α} (hshort : pInBuf.length < 2 ^ 32)
    (hlong : 2 ^ 32 - 1024 < x.inBuf.len + pInBuf.length) : s.appendToBuffer pInBuf = none := by
  have hw := hx.inBuf.write_fault hshort hlong
  simp only [ClientContext.appendToBuffer, hw, Option.bind_eq_bind, Option.bind_none]

theorem sendBuf (hx : Holds none s x) {pData : List α} (hlen : pData.length ≤ 2 ^ 32 - 1024) :
    ∃ h b, Buffer.new.write s.heap pData = some (h, b, pData.length) ∧
      Owns h b (Cells.empty.write pData) ∧ b.m_pEnd = pData.length ∧
      Holds b.m_pBegin { s with heap := h } x ∧ Heap.Replaces s.heap none h b.m_pBegin ∧
      (∀ i, s.m_inBuf.m_pBegin = some i → b.m_pBegin ≠ some i) ∧
      (∀ i, s.m_outBuf.m_pBegin = some i → b.m_pBegin ≠ some i) := by
  obtain ⟨h, b, e, ho, hend, hr⟩ := (Owns.new s.heap).write pData (.inl rfl) (by simpa [Cells.empty] using hlen)
  have hin : ∀ i, s.m_inBuf.m_pBegin = some i → b.m_pBegin ≠ some i := fun i hi => by
    have hp := hx.inBuf.points
    rw [hi] at hp
    exact hr.apart hp.lt_next (by simp [Buffer.new])
  have hout : ∀ i, s.m_outBuf.m_pBegin = some i → b.m_pBegin ≠ some i := fun i hi => by
    obtain ⟨u, hu, -⟩ := hx.out
    have hp := hu.points
    rw [hi] at hp
    exact hr.apart hp.lt_next (by simp [Buffer.new])
  refine ⟨h, b, e, ho, by simpa [Cells.empty] using hend, ?_, hr, hin, hout⟩
  have hp : s.heap.Points none [] := rfl
  exact hx.setLocal hp hr (by simp) (by simp)

theorem firstSend {b : Buffer} {w : Cells α} (hx : Holds q s x) (hb : Owns s.heap b w)
    (hne : ∀ i, b.m_pBegin = some i → s.m_outBuf.m_pBegin ≠ some i) :
    ∃ s', s.firstSend b = some ((x.firstSend w.live).1, s') ∧ Holds q s' (x.firstSend w.live).2 ∧
      s'.m_inBuf = s.m_inBuf ∧
      Heap.Replaces s.heap s.m_outBuf.m_pBegin s'.heap s'.m_outBuf.m_pBegin := by
  obtain ⟨u, hu, -⟩ := hx.out
  obtain ⟨h', m_outBuf, e, hu', -, hr⟩ := hu.copy hb hne
  have hcap : s.m_outBuf.m_nSize ≤ (u.copy w).cap := by
    rw [hu.size, Cells.cap_copy]
    exact Nat.le_trans (Nat.le_max_right ..) (Nat.le_max_right ..)
  have hx' := (hx.modify Link.enterIoLoop).setOut hu' hr hcap
  rw [Cells.live_copy] at hx'
  obtain ⟨s', ep, hs', hheap, hinBuf, houtBuf⟩ := hx'.postSend
  have hr' : Heap.Replaces s.heap s.m_outBuf.m_pBegin s'.heap s'.m_outBuf.m_pBegin := by
    rw [hheap, houtBuf]
    exact hr
  have e' : (s.modify Link.enterIoLoop).m_outBuf.copy (s.modify Link.enterIoLoop).heap b =
    some (h', m_outBuf) := e
  rw [ClientContext.firstSend, View.firstSend]
  simp only [e', Option.bind_eq_bind, Option.bind_some, ep]
  split_ifs with hf
  · refine ⟨_, rfl, hs'.modify fun l => l.closeClient.releaseClientContext, ?_, ?_⟩
    · rw [ClientContext.modify_inBuf, hinBuf, ClientContext.modify_inBuf]
    · rwa [ClientContext.modify_heap, ClientContext.modify_outBuf]
  · exact ⟨_, rfl, hs', hinBuf, hr'⟩

theorem send_fault (s : ClientContext α) {pData : List α} (hlen : pData.length < 2 ^ 32)
    (hlong : 2 ^ 32 - 1024 < pData.length) : s.send pData = none := by
  have hw := (Owns.new s.heap).write_fault hlen (by simpa [Cells.empty] using hlong)
  simp [ClientContext.send, hw]

theorem send (hx : Holds none s x) (pData : List α) (hshort : pData.length ≤ 2 ^ 32 - 1024) :
    ∃ s', s.send pData = some ((x.sent pData).1, s') ∧ Holds none s' (x.sent pData).2 ∧
      s'.m_inBuf = s.m_inBuf := by
  obtain ⟨h, b, e, hb, hend, hx₁, hr, hin, hout⟩ := hx.sendBuf hshort
  replace hx₁ : Holds b.m_pBegin { s with heap := h, link := s.link.note (.send pData) }
      (x.modify fun l => l.note (.send pData)) := hx₁.modify fun l => l.note (.send pData)
  have hlive : (Cells.empty.write pData).live = pData := by simp
  by_cases hnil : x.out = []
  · obtain ⟨s₂, e₂, hx₂, hinBuf, hr₂⟩ := hx₁.firstSend hb fun i hi he => hout i he hi
    rw [hlive] at e₂ hx₂
    have hb₂ : Owns s₂.heap b _ := hb.frame hr₂ fun i hi he => hout i he hi
    have hout₂ : ∀ i, s₂.m_outBuf.m_pBegin = some i → b.m_pBegin ≠ some i := fun i hi he => by
      have hp := hb.points
      rw [he] at hp
      exact hr₂.apart hp.lt_next (fun ho => hout i ho he) hi
    obtain ⟨h₃, e₃, hr₃⟩ := hb₂.destroy
    have hx₃ := hx₂.setLocal hb₂.points hr₃ (by rw [hinBuf]; exact hin) hout₂
    have hsent : x.sent pData = (x.modify fun l => l.note (.send pData)).firstSend pData :=
      if_pos hnil
    rw [hsent]
    refine ⟨_, ?_, hx₃, hinBuf⟩
    simp only [ClientContext.send, e, Option.bind_eq_bind, Option.bind_some, hx.out_eq_nil, hnil, if_true,
      e₂, e₃, Option.pure_def]
  · obtain ⟨h₃, e₃, hr₃⟩ := hb.destroy
    have hx₃ := hx₁.setLocal hb.points hr₃ hin hout
    have hsent : x.sent pData = (true, (x.modify fun l => l.note (.send pData)).queueSend pData) :=
      if_neg hnil
    have hq : Queued h₃ b.copyConstructor pData := by
      cases pData with
      | nil => exact .empty (hb.eq_new (by simp [Cells.cap_write, alignUp]) hend)
      | cons a pData =>
        have hlen : (Cells.empty.write (a :: pData)).len = (a :: pData).length := by
          rw [← Cells.length_live, hlive]
        refine .lost a pData _ (.of_released hb.points ?_ rfl hr₃) (hb.len.trans hlen) hb.size hb.cap_le
        intro hmem
        have hle := (Cells.empty.write (a :: pData)).len_le
        rw [hmem, hlen] at hle
        simp at hle
    rw [hsent]
    refine ⟨{ s with
        heap := h₃
        m_outBufQueue := s.m_outBufQueue ++ [b.copyConstructor]
        link := (s.link.note (.send pData)).note (.queued pData) }, ?_, ?_, rfl⟩
    · simp only [ClientContext.send, e, Option.bind_eq_bind, Option.bind_some, hx.out_eq_nil, hnil,
        if_false, e₃, Option.pure_def]
    · exact { hx₃ with
        link := congrArg (fun l => (l.note (.send pData)).note (.queued pData)) hx.link
        queue := List.rel_append hx₃.queue (.cons hq .nil) }

theorem nextOutBuf (hx : Holds none s x) (hnil : x.out = []) :
    Option.Rel (fun s' x' => Holds none s' x' ∧ s'.m_inBuf = s.m_inBuf) s.nextOutBuf x.nextOutBuf := by
  obtain ⟨u, hu, hlive⟩ := hx.out
  obtain ⟨h₁, b₁, e₁, hu₁, -, hr₁⟩ := hu.clear
  have hcap₁ : s.m_outBuf.m_nSize ≤ u.clear.cap := by
    rw [hu.size, Cells.cap_clear]
    exact Nat.le_max_right ..
  have hx₁ := hx.setOut hu₁ hr₁ hcap₁
  have hself : ({ x with out := u.clear.live } : View α) = x := by rw [Cells.live_clear, ← hnil]
  rw [hself] at hx₁
  have hqueue := hx₁.queue
  simp only [ClientContext.nextOutBuf, View.nextOutBuf, e₁, Option.bind_eq_bind, Option.bind_some]
  cases hs : s.m_outBufQueue with
  | nil =>
    simp only [hs, List.forall₂_nil_left_iff] at hx₁ hqueue
    simp only [hqueue]
    exact .some ⟨hx₁.modify Link.releaseClientContext, rfl⟩
  | cons front rest =>
    simp only [hs] at hqueue
    obtain ⟨pData, rest', hfront, hrest, hxq⟩ := List.forall₂_cons_left_iff.mp hqueue
    rw [hxq]
    cases hfront with
    | lost a pData w hd hlen hsize hcap =>
      -- `send` destroyed its local `Buffer`, and with it the block of this one.
      simp only [hu₁.copy_dead hd (by simp [hlen]) hsize hcap, Option.bind_none]
      exact .none
    | empty hnew =>
      subst hnew
      obtain ⟨h₂, b₂, e₂, hu₂, -, hr₂⟩ := hu₁.copy (Owns.new h₁) (by simp [Buffer.new])
      have hcap₂ : b₁.m_nSize ≤ (u.clear.copy Cells.empty).cap := by
        rw [hu₁.size, Cells.cap_copy]
        exact Nat.le_trans (Nat.le_max_right ..) (Nat.le_max_right ..)
      have hx₂ := hx₁.setOut hu₂ hr₂ hcap₂
      rw [Cells.live_copy, Cells.live_empty] at hx₂
      have hload := hx₂.load_out
      simp only at hload
      have hdestroy : Buffer.new.destroy h₂ = some h₂ := rfl
      simp only [e₂, hload, hdestroy, Option.bind_some, Option.pure_def]
      refine .some ⟨?_, rfl⟩
      exact { hx₂ with
        link := congrArg (fun l => l.note (.copied [])) hx.link
        queue := by
          have hall := hx₂.queue
          simp only [hs, hxq] at hall
          exact (List.forall₂_cons.mp hall).2 }

omit [Inhabited α] in
theorem postRest (hx : Holds none s x) :
    ∃ s', s.postRest = some s' ∧ Holds none s' x.postRest ∧ s'.m_inBuf = s.m_inBuf := by
  have hcond : 0 ≠ s.m_outBuf.getBufferLen ↔ x.out ≠ [] := not_congr hx.out_eq_nil
  simp only [ClientContext.postRest, View.postRest, hcond]
  by_cases hout : x.out = []
  · simp only [hout, ne_eq, not_true, if_false]
    exact ⟨s, rfl, hx, rfl⟩
  · obtain ⟨s', e, hx', -, hin, -⟩ := hx.postSend
    simp only [if_pos hout, e, Option.bind_eq_bind, Option.bind_some, Option.pure_def]
    by_cases hf : x.postSend.1 = .failed
    · simp only [if_pos hf]
      exact ⟨_, rfl, hx'.modify fun l => l.closeClient.releaseClientContext, by rwa [ClientContext.modify_inBuf]⟩
    · simp only [if_neg hf]
      exact ⟨s', rfl, hx', hin⟩

theorem handleSend (hx : Holds none s x) {n : ℕ} (hn : n ≤ s.m_outBuf.m_nSize) :
    Option.Rel (fun s' x' => Holds none s' x' ∧ s'.m_inBuf = s.m_inBuf) (s.handleSend n)
      (x.handleSend n) := by
  obtain ⟨u, hu, hlive⟩ := hx.out
  obtain ⟨h₁, b₁, e₁, hu₁, -, hr₁⟩ := hu.remove n
  have hx₁ := hx.setOut hu₁ hr₁ (by rw [hu.size, Cells.cap_remove])
  rw [Cells.live_remove u (by rwa [← hu.size]), hlive] at hx₁
  simp only [ClientContext.handleSend, View.handleSend, e₁, Option.bind_eq_bind, Option.bind_some,
    hx₁.out_eq_nil]
  by_cases hnil : x.out.drop n = []
  · simp only [if_pos hnil, Option.map_eq_bind]
    refine rel_bind (hx₁.nextOutBuf hnil) fun s' x' ⟨hx', hin⟩ => ?_
    obtain ⟨s'', e, hx'', hin'⟩ := hx'.postRest
    rw [e]
    exact .some ⟨hx'', hin'.trans hin⟩
  · obtain ⟨s', e, hx', hin⟩ := hx₁.postRest
    simp only [if_neg hnil, e, Option.map_some]
    exact .some ⟨hx', hin⟩

omit [Inhabited α] in
theorem popSend {op : WsaSend α} {rest : List (WsaSend α)} (hx : Holds q s x)
    (hs : s.sends = op :: rest) :
    Holds q { s with sends := rest } { x with sends := rest.map WsaSend.bytes } := by
  have hmem : ∀ op' ∈ rest, op' ∈ s.sends := fun op' h => by
    rw [hs]
    exact List.mem_cons_of_mem _ h
  exact { hx with
    sends := rfl
    whole := fun op' h => hx.whole op' (hmem op' h)
    room := fun op' h => hx.room op' (hmem op' h) }

theorem sendCompleted (hx : Holds none s x) (n : ℕ) :
    Option.Rel (fun s' x' => Holds none s' x' ∧ s'.m_inBuf = s.m_inBuf) (s.sendCompleted n)
      (x.sendCompleted n) := by
  have hsends := hx.sends
  rw [ClientContext.sendCompleted, View.sendCompleted]
  cases hs : s.sends with
  | nil =>
    rw [hs, List.map_nil] at hsends
    rw [← hsends]
    exact .some ⟨hx, rfl⟩
  | cons op rest =>
    rw [hs, List.map_cons] at hsends
    rw [← hsends]
    have hmem : op ∈ s.sends := by
      rw [hs]
      exact List.mem_cons_self
    simp only [hx.whole op hmem]
    split_ifs with hn
    · exact ((hx.popSend hs).modify fun l => l.note (.reported (op.bytes.take n))).handleSend
        (Nat.le_trans hn.2 (hx.whole op hmem ▸ hx.room op hmem))
    · exact .some ⟨hx, rfl⟩

end Holds
end
end NetDemo.Client
