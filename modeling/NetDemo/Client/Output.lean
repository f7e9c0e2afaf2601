import NetDemo.Client.View

/-! The output of one client: what `send` and `handleSend` do to the bytes of the messages. -/

namespace NetDemo.Client
open Foundation Memory
variable {α : Type}

namespace Note

def asSent : Note α → Option (List α)
  | .send pData => some pData
  | _ => none

def asQueued : Note α → Option (List α)
  | .queued pData => some pData
  | _ => none

def asCopied : Note α → Option (List α)
  | .copied bytes => some bytes
  | _ => none

def asReported : Note α → Option (List α)
  | .reported bytes => some bytes
  | _ => none

end Note

def Link.sent (l : Link α) : List (List α) := l.log.filterMap Note.asSent

def Link.queued (l : Link α) : List (List α) := l.log.filterMap Note.asQueued

def Link.copied (l : Link α) : List (List α) := l.log.filterMap Note.asCopied

def Link.reported (l : Link α) : List α := (l.log.filterMap Note.asReported).flatten

theorem Link.filterMap_note {β : Type} (p : Note α → Option β) (l : Link α) (n : Note α) :
    (l.note n).log.filterMap p = l.log.filterMap p ++ (p n).toList := by
  rw [note, List.filterMap_append]
  cases h : p n <;> simp [h]

/-- The notes of `WSASend` and `CloseClient` do not count for `p`. -/
structure Blind {β : Type} (p : Note α → Option β) : Prop where
  posted : ∀ bytes, p (.posted bytes) = none
  closed : p .closed = none

theorem Link.releaseClientContext_log (l : Link α) : l.releaseClientContext.log = l.log := by
  rw [releaseClientContext_eq]

theorem Link.filterMap_close {β : Type} {p : Note α → Option β} (hp : Blind p) (l : Link α) :
    l.closeClient.releaseClientContext.log.filterMap p = l.log.filterMap p := by
  rw [releaseClientContext_log, closeClient]
  split_ifs
  · simp [note, hp.closed]
  · rfl

theorem Link.postRecv_log (l : Link α) : l.postRecv.2.log = l.log := by
  rcases l.postRecv_cases with ⟨-, -, h⟩ | ⟨-, -, h⟩ | ⟨-, h⟩ <;> rw [h] <;> rfl

theorem Link.filterMap_handleAccept {β : Type} {p : Note α → Option β} (hp : Blind p) (l : Link α) :
    l.handleAccept.log.filterMap p = l.log.filterMap p := by
  simp only [handleAccept, postRecvOrClose]
  split_ifs
  · rw [filterMap_close hp, postRecv_log]
    rfl
  · rw [postRecv_log]
    rfl

theorem blind_queued : Blind (Note.asQueued (α := α)) := ⟨fun _ => rfl, rfl⟩

theorem blind_copied : Blind (Note.asCopied (α := α)) := ⟨fun _ => rfl, rfl⟩

namespace View
variable {β : Type} {p : Note α → Option β}

theorem filterMap_postSend (hp : Blind p) (x : View α) :
    x.postSend.2.link.log.filterMap p = x.link.log.filterMap p := by
  rcases x.postSend_cases with ⟨-, -, h⟩ | ⟨-, -, h⟩ | ⟨-, h⟩
  · simp [h, Link.note, Link.answer, hp.posted]
  · rw [h]
    rfl
  · rw [h]

theorem filterMap_firstSend (hp : Blind p) (x : View α) (pData : List α) :
    (x.firstSend pData).2.link.log.filterMap p = x.link.log.filterMap p := by
  simp only [firstSend]
  split_ifs <;> simp only [modify_link, Link.filterMap_close hp, filterMap_postSend hp] <;> rfl

theorem filterMap_postRest (hp : Blind p) (x : View α) :
    x.postRest.link.log.filterMap p = x.link.log.filterMap p := by
  simp only [postRest]
  split_ifs <;> simp only [modify_link, Link.filterMap_close hp, filterMap_postSend hp]

theorem queue_postSend (x : View α) : x.postSend.2.queue = x.queue := by
  rcases x.postSend_cases with ⟨-, -, h⟩ | ⟨-, -, h⟩ | ⟨-, h⟩ <;> rw [h]

theorem queue_firstSend (x : View α) (pData : List α) : (x.firstSend pData).2.queue = x.queue := by
  simp only [firstSend]
  split_ifs <;> simp only [modify_queue, queue_postSend]

theorem queue_postRest (x : View α) : x.postRest.queue = x.queue := by
  simp only [postRest]
  split_ifs <;> simp only [modify_queue, queue_postSend]

theorem sent_idle {x : View α} (h : x.out = []) (pData : List α) :
    x.sent pData = (x.modify fun l => l.note (.send pData)).firstSend pData := if_pos h

theorem sent_busy {x : View α} (h : x.out ≠ []) (pData : List α) :
    x.sent pData = (true, (x.modify fun l => l.note (.send pData)).queueSend pData) := if_neg h

end View

/-! ### The queue -/

/-- An entry point of the output side; the length of a message is a `UINT`. -/
inductive Call (α : Type)
  | send (pData : List α) (hlen : pData.length < 2 ^ 32)
  | completion (dwBytesTransferred : ℕ)

variable [Inhabited α]

def ClientContext.call (s : ClientContext α) : Call α → Option (ClientContext α)
  | .send pData _ => (s.send pData).map Prod.snd
  | .completion dwBytesTransferred => s.sendCompleted dwBytesTransferred

omit [Inhabited α] in
def bufferBytes (h : Heap α) (b : Buffer) : Option (List α) := h.load b.m_pBegin 0 b.getBufferLen

/-- The queued `Buffer`s hold these messages. -/
def ClientContext.QueueHolds (s : ClientContext α) (messages : List (List α)) : Prop :=
  List.Forall₂ (fun b bytes => bufferBytes s.heap b = some bytes) s.m_outBufQueue messages

def ClientContext.buffers (s : ClientContext α) : List Buffer := s.m_inBuf :: s.m_outBuf :: s.m_outBufQueue

/-- Every `Buffer` has a live block for itself, no live block is without a `Buffer`, and the queue
holds the messages that were put into it and not yet copied. -/
structure KeepsBytes (s : ClientContext α) : Prop where
  live : ∀ b ∈ s.buffers, ∀ i, b.m_pBegin = some i → (s.heap.block i).isSome
  single : s.buffers.Pairwise fun b b' => ∀ i, b.m_pBegin = some i → b'.m_pBegin ≠ some i
  owned : ∀ i, (s.heap.block i).isSome → ∃ b ∈ s.buffers, b.m_pBegin = some i
  bytes : ∃ rest, s.QueueHolds rest ∧ s.link.queued = s.link.copied ++ rest

/-- A message that is not empty finds `m_outBuf` empty, and it is not too long to be rounded up. -/
def SendsAlone (s : ClientContext α) : Call α → Prop
  | .send pData _ => pData ≠ [] → s.m_outBuf.getBufferLen = 0 ∧ pData.length ≤ 2 ^ 32 - 1024
  | .completion _ => True

/-- The queue holds empty messages only. -/
structure Idle (s : ClientContext α) (x : View α) : Prop where
  holds : Holds none s x
  empty : ∀ pData ∈ x.queue, pData = []
  queued : x.link.queued = x.link.copied ++ x.queue

omit [Inhabited α] in
theorem Idle.accepted (net : ℕ → Bool) :
    Idle (.accepted net : ClientContext α) ((View.new net).modify Link.handleAccept) where
  holds := (Holds.new net).modify Link.handleAccept
  empty := by simp [View.new]
  queued := by
    have hq := (Link.new net).filterMap_handleAccept (blind_queued (α := α))
    have hc := (Link.new net).filterMap_handleAccept (blind_copied (α := α))
    simp only [Link.queued, Link.copied, View.modify_link, View.modify_queue]
    exact hq.trans (by rw [View.new, hc]; rfl)

namespace Idle
variable {s : ClientContext α} {x : View α}

omit [Inhabited α]

theorem queue_new (h : Idle s x) : ∀ b ∈ s.m_outBufQueue, b = Buffer.new := by
  have hq := h.holds.queue
  have he := h.empty
  generalize s.m_outBufQueue = bs at hq
  generalize x.queue = ds at hq he
  induction hq with
  | nil => simp
  | cons hb _ ih =>
    intro b' hb'
    rcases List.mem_cons.mp hb' with rfl | hb'
    · obtain rfl := he _ List.mem_cons_self
      cases hb with
      | empty hnew => exact hnew
    · exact ih (fun d hd => he d (List.mem_cons_of_mem _ hd)) b' hb'

theorem queueHolds (h : Idle s x) : s.QueueHolds x.queue := by
  have hq := h.holds.queue
  have he := h.empty
  unfold ClientContext.QueueHolds
  generalize s.m_outBufQueue = bs at hq ⊢
  generalize x.queue = ds at hq he ⊢
  induction hq with
  | nil => exact .nil
  | cons hb _ ih =>
    obtain rfl := he _ List.mem_cons_self
    cases hb with
    | empty hnew => exact .cons (by rw [hnew]; rfl) (ih fun d hd => he d (List.mem_cons_of_mem _ hd))

theorem keepsBytes (h : Idle s x) : KeepsBytes s := by
  have hx := h.holds
  have hnull : ∀ b ∈ s.m_outBufQueue, b.m_pBegin = none := fun b hb => by rw [h.queue_new b hb]; rfl
  obtain ⟨u, hu, -⟩ := hx.out
  refine ⟨?_, ?_, ?_, x.queue, h.queueHolds, by rw [hx.link]; exact h.queued⟩
  · intro b hb i hi
    simp only [ClientContext.buffers, List.mem_cons] at hb
    rcases hb with rfl | rfl | hb
    · have hp := hx.inBuf.points
      rw [hi] at hp
      exact hp.isSome
    · have hp := hu.points
      rw [hi] at hp
      exact hp.isSome
    · rw [hnull b hb] at hi
      cases hi
  · simp only [ClientContext.buffers, List.pairwise_cons, List.mem_cons]
    refine ⟨?_, ?_, ?_⟩
    · rintro b (rfl | hb) i hi
      · exact hx.apart i hi
      · rw [hnull b hb]
        simp
    · intro b hb i _
      rw [hnull b hb]
      simp
    · exact List.pairwise_of_forall_mem_list fun b hb b' _ i hi => by
        rw [hnull b hb] at hi
        cases hi
  · intro i hi
    rcases hx.owned i hi with h | h | h
    · exact ⟨_, List.mem_cons_self, h⟩
    · exact ⟨_, List.mem_cons_of_mem _ List.mem_cons_self, h⟩
    · cases h

end Idle

namespace Idle
variable {s : ClientContext α} {x : View α}

theorem send (h : Idle s x) {pData : List α} (hlen : pData.length < 2 ^ 32)
    (hok : SendsAlone s (.send pData hlen)) : ∃ s' x', s.call (.send pData hlen) = some s' ∧ Idle s' x' := by
  have hx := h.holds
  have hshort : pData.length ≤ 2 ^ 32 - 1024 := by
    by_cases hd : pData = []
    · simp [hd]
    · exact (hok hd).2
  obtain ⟨s', e, hx', -⟩ := hx.send pData hshort
  refine ⟨s', (x.sent pData).2, by simp [ClientContext.call, e], hx', ?_, ?_⟩
  · by_cases hout : x.out = []
    · rw [View.sent_idle hout, View.queue_firstSend]
      exact h.empty
    · -- Only an empty message may wait.
      have hd : pData = [] := by
        by_contra hd
        exact hout (hx.out_eq_nil.mp (hok hd).1.symm)
      rw [View.sent_busy hout]
      intro d hmem
      rcases List.mem_append.mp hmem with hmem | hmem
      · exact h.empty d hmem
      · rwa [List.mem_singleton.mp hmem]
  · have hq := h.queued
    by_cases hout : x.out = []
    · rw [View.sent_idle hout, View.queue_firstSend]
      simp only [Link.queued, Link.copied, View.filterMap_firstSend blind_queued,
        View.filterMap_firstSend blind_copied] at hq ⊢
      simpa [Link.filterMap_note, Note.asQueued, Note.asCopied] using hq
    · rw [View.sent_busy hout]
      simp only [Link.queued, Link.copied] at hq ⊢
      simp [View.queueSend, Link.filterMap_note, Note.asQueued, Note.asCopied, hq]

omit [Inhabited α] in
theorem nextOutBuf {x : View α} (he : ∀ pData ∈ x.queue, pData = [])
    (hq : x.link.queued = x.link.copied ++ x.queue) :
    ∃ x', x.nextOutBuf = some x' ∧ (∀ pData ∈ x'.queue, pData = []) ∧
      x'.link.queued = x'.link.copied ++ x'.queue := by
  cases hxq : x.queue with
  | nil =>
    refine ⟨x.modify Link.releaseClientContext, by rw [View.nextOutBuf, hxq], he, ?_⟩
    have hlog : x.link.releaseClientContext.log = x.link.log := x.link.releaseClientContext_log
    simp only [Link.queued, Link.copied, View.modify_link, View.modify_queue, hlog] at hq ⊢
    exact hq
  | cons pData rest =>
    obtain rfl := he pData (by rw [hxq]; exact List.mem_cons_self)
    refine ⟨_, by rw [View.nextOutBuf, hxq], fun d hd => he d (by rw [hxq]; exact .tail _ hd), ?_⟩
    simp only [Link.queued, Link.copied, hxq] at hq ⊢
    simp [Link.filterMap_note, Note.asQueued, Note.asCopied, hq]

omit [Inhabited α] in
theorem handleSend {x : View α} (n : ℕ) (he : ∀ pData ∈ x.queue, pData = [])
    (hq : x.link.queued = x.link.copied ++ x.queue) :
    ∃ x', x.handleSend n = some x' ∧ (∀ pData ∈ x'.queue, pData = []) ∧
      x'.link.queued = x'.link.copied ++ x'.queue := by
  have hrest {x : View α} (he : ∀ pData ∈ x.queue, pData = [])
      (hq : x.link.queued = x.link.copied ++ x.queue) : (∀ pData ∈ x.postRest.queue, pData = []) ∧
        x.postRest.link.queued = x.postRest.link.copied ++ x.postRest.queue := by
    simp only [Link.queued, Link.copied, View.queue_postRest, View.filterMap_postRest blind_queued,
      View.filterMap_postRest blind_copied] at hq ⊢
    exact ⟨he, hq⟩
  rw [View.handleSend]
  dsimp only
  split_ifs
  · obtain ⟨x', e, he', hq'⟩ := nextOutBuf (x := { x with out := x.out.drop n }) he hq
    exact ⟨x'.postRest, by rw [e, Option.map_some], hrest he' hq'⟩
  · exact ⟨_, rfl, hrest he hq⟩

theorem completion (h : Idle s x) (n : ℕ) : ∃ s' x', s.sendCompleted n = some s' ∧ Idle s' x' := by
  have hrel := h.holds.sendCompleted n
  have hq := h.queued
  obtain ⟨x', e, he', hq'⟩ : ∃ x', x.sendCompleted n = some x' ∧ (∀ pData ∈ x'.queue, pData = []) ∧
      x'.link.queued = x'.link.copied ++ x'.queue := by
    rw [View.sendCompleted]
    split
    · exact ⟨x, rfl, h.empty, hq⟩
    split_ifs
    swap
    · exact ⟨x, rfl, h.empty, hq⟩
    next bytes rest _ _ =>
    have hq₁ : (x.link.note (.reported (bytes.take n))).queued =
        (x.link.note (.reported (bytes.take n))).copied ++ x.queue := by
      simpa [Link.queued, Link.copied, Link.filterMap_note, Note.asQueued, Note.asCopied] using hq
    exact handleSend n h.empty hq₁
  rw [e] at hrel
  obtain ⟨s', e', hx', -⟩ := rel_some_right hrel
  exact ⟨s', x', e', hx', he', hq'⟩

end Idle

/-- After a message was queued that is not empty, its `Buffer` has no block. -/
theorem KeepsBytes.not_busy {s s' : ClientContext α} {x : View α} (h : Holds none s x) {pData : List α}
    {hlen : pData.length < 2 ^ 32} (hbad : ¬ SendsAlone s (.send pData hlen))
    (hs' : s.call (.send pData hlen) = some s') : ¬ KeepsBytes s' := by
  simp only [SendsAlone, Classical.not_imp, not_and] at hbad
  obtain ⟨hne, hbad⟩ := hbad
  by_cases hshort : pData.length ≤ 2 ^ 32 - 1024
  swap
  · rw [ClientContext.call, Holds.send_fault s hlen (by omega)] at hs'
    cases hs'
  obtain ⟨s'', e, hx', -⟩ := h.send _ hshort
  obtain rfl : s'' = s' := by simpa [ClientContext.call, e] using hs'
  have hout : x.out ≠ [] := fun hnil => hbad (h.out_eq_nil.mpr hnil).symm hshort
  rw [View.sent_busy hout] at hx'
  obtain ⟨b, hb, hq⟩ := hx'.exists_queued (List.mem_append_right _ (List.mem_singleton.mpr rfl))
  intro hkeep
  cases hq with
  | empty => exact hne rfl
  | lost a pData w hd =>
    obtain ⟨i, hi, -, hnone⟩ := hd
    have hlive := hkeep.live b (List.mem_cons_of_mem _ (List.mem_cons_of_mem _ hb)) i hi
    rw [hnone] at hlive
    cases hlive

theorem Idle.always_iff {s : ClientContext α} {x : View α} (h : Idle s x) (calls : List (Call α)) :
    Always ClientContext.call KeepsBytes s calls ↔ Meets ClientContext.call SendsAlone s calls := by
  refine always_iff_meets (fun s => ∃ x, Idle s x) (fun s ⟨x, h⟩ => h.keepsBytes) ?_ ?_
    ⟨x, h⟩ calls
  · rintro s (⟨pData, hlen⟩ | n) ⟨x, h⟩ hok
    · obtain ⟨s', x', e, h'⟩ := h.send hlen hok
      exact ⟨s', e, x', h'⟩
    · obtain ⟨s', x', e, h'⟩ := h.completion n
      exact ⟨s', e, x', h'⟩
  · rintro s (⟨pData, hlen⟩ | n) s' ⟨x, h⟩ hno hs'
    · exact KeepsBytes.not_busy h.holds hno hs'
    · exact absurd trivial hno

/-- The queue keeps the bytes of all messages just when no message has to be queued. -/
theorem keepsBytes_iff (net : ℕ → Bool) (calls : List (Call α)) :
    Always ClientContext.call KeepsBytes (.accepted net) calls ↔
      Meets ClientContext.call SendsAlone (.accepted net) calls :=
  (Idle.accepted net).always_iff calls

/-- A second message right behind the first one has no block in the queue. -/
theorem not_keepsBytes_two_sends : ¬ Always ClientContext.call KeepsBytes
    (.accepted fun _ => true : ClientContext UInt8) [.send [1] (by decide), .send [2] (by decide)] := by
  have h := Idle.accepted (α := UInt8) fun _ => true
  rw [h.always_iff]
  rintro ⟨-, hsecond⟩
  obtain ⟨s', e, hx', -⟩ := h.holds.send [1] (by decide)
  have hlen := hx'.outLen
  obtain ⟨hmeets, -⟩ := hsecond s' (by simp [ClientContext.call, e])
  rw [(hmeets (by decide)).1] at hlen
  exact absurd hlen (by decide)

end NetDemo.Client
