import NetDemo.Client.Delivery

/-! The course of a connection of `HttpServer` for any bytes at all: what is sent, and when it is
closed. -/

namespace NetDemo.Client
open Foundation Http

/-- What a client can see of its connection, and whether the socket is still open afterwards. -/
inductive Conversation : Bool → List (Note UInt8) → Prop
  | nil : Conversation true []
  /-- A request that was decoded is answered before anything else happens. -/
  | answer {b : Bool} {notes : List (Note UInt8)} (req : HttpRequest) : Conversation b notes →
      Conversation b (notes ++ [.decoded req, .send HttpCodec.okResponse])
  /-- After an error the codec's output is sent as it stands, and the connection is closed. -/
  | refuse {notes : List (Note UInt8)} {pData : Bytes} : pData = [] ∨ pData = HttpCodec.okResponse →
      Conversation true notes → Conversation false (notes ++ [.send pData, .closed])
  | refuseClosed {notes : List (Note UInt8)} {pData : Bytes} : pData = [] ∨ pData = HttpCodec.okResponse →
      Conversation false notes → Conversation false (notes ++ [.send pData])
  | close {notes : List (Note UInt8)} : Conversation true notes → Conversation false (notes ++ [.closed])

/-- Between `l` and `l'` nothing happened but that the connection may have been closed. -/
inductive Link.Quiet {α : Type} (l l' : Link α) : Prop
  | same : l'.m_socket = l.m_socket → l'.visible = l.visible → Quiet l l'
  | closed : l.m_socket = true → l'.m_socket = false → l'.visible = l.visible ++ [.closed] → Quiet l l'

namespace Link
section
variable {α : Type} {l l' l'' : Link α}

theorem Quiet.refl (l : Link α) : l.Quiet l := .same rfl rfl

theorem Quiet.trans (h : l.Quiet l') (h' : l'.Quiet l'') : l.Quiet l'' := by
  cases h with
  | same hs hv =>
    cases h' with
    | same hs' hv' => exact .same (hs'.trans hs) (hv'.trans hv)
    | closed ho hs' hv' => exact .closed (hs ▸ ho) hs' (by rw [hv', hv])
  | closed ho hs hv =>
    cases h' with
    | same hs' hv' => exact .closed ho (hs'.trans hs) (hv'.trans hv)
    | closed ho' _ _ =>
      rw [hs] at ho'
      cases ho'

theorem quiet_note (l : Link α) {n : Note α} (hn : n.asVisible = none) : l.Quiet (l.note n) :=
  .same rfl (by rw [visible, filterMap_note, hn, visible]; exact List.append_nil _)

theorem quiet_closeClient (l : Link α) : l.Quiet l.closeClient := by
  unfold closeClient
  split_ifs with hs
  · exact .closed hs rfl (filterMap_note _ { l with m_socket := false } _)
  · exact .refl l

theorem quiet_release (l : Link α) : l.Quiet l.releaseClientContext := by
  rw [releaseClientContext_eq]
  exact .same rfl rfl

theorem quiet_handleClose (l : Link α) : l.Quiet l.handleClose :=
  l.quiet_closeClient.trans (quiet_release _)

theorem quiet_answer (l : Link α) : l.Quiet l.answer.2 := .same rfl rfl

theorem quiet_postRecvOrClose (l : Link α) : l.Quiet l.postRecvOrClose := by
  have hrecv : l.Quiet l.postRecv.2 := by
    rcases l.postRecv_cases with ⟨-, -, h⟩ | ⟨-, -, h⟩ | ⟨-, h⟩ <;> rw [h] <;> exact .same rfl rfl
  simp only [postRecvOrClose]
  split_ifs
  · exact hrecv.trans (quiet_handleClose _)
  · exact hrecv

end
end Link

namespace View
section
variable {α : Type} {x : View α}

theorem quiet_postSend (x : View α) : x.link.Quiet x.postSend.2.link := by
  rcases x.postSend_cases with ⟨-, -, h⟩ | ⟨-, -, h⟩ | ⟨-, h⟩ <;> rw [h]
  · exact x.link.quiet_answer.trans (Link.quiet_note _ rfl)
  · exact x.link.quiet_answer
  · exact .refl _

theorem quiet_postRest (x : View α) : x.link.Quiet x.postRest.link := by
  simp only [postRest]
  split_ifs
  · exact x.quiet_postSend.trans (Link.quiet_handleClose _)
  · exact x.quiet_postSend
  · exact .refl _

theorem quiet_firstSend (x : View α) (pData : List α) : x.link.Quiet (x.firstSend pData).2.link := by
  have hpost := quiet_postSend { x.modify Link.enterIoLoop with out := pData }
  have henter : x.link.Quiet (x.modify Link.enterIoLoop).link := .same rfl rfl
  simp only [firstSend]
  split_ifs
  · exact henter.trans (hpost.trans (Link.quiet_handleClose _))
  · exact henter.trans hpost

theorem quiet_sent (x : View α) (pData : List α) :
    (x.link.note (.send pData)).Quiet (x.sent pData).2.link := by
  by_cases hout : x.out = []
  · rw [sent_idle hout]
    exact quiet_firstSend (x.modify fun l => l.note (.send pData)) pData
  · rw [sent_busy hout]
    exact Link.quiet_note _ rfl

theorem quiet_handleSend {x' : View α} {n : ℕ} (h : x.handleSend n = some x') : x.link.Quiet x'.link := by
  rw [handleSend] at h
  obtain ⟨y, hy, rfl⟩ := Option.map_eq_some_iff.mp h
  refine Link.Quiet.trans ?_ y.quiet_postRest
  split_ifs at hy
  · rw [nextOutBuf] at hy
    split at hy
    · obtain rfl := Option.some.inj hy
      exact Link.quiet_release _
    · obtain rfl := Option.some.inj hy
      exact Link.quiet_note _ rfl
    · cases hy
  · obtain rfl := Option.some.inj hy
    exact .refl _

theorem quiet_sendCompleted {x' : View α} {n : ℕ} (h : x.sendCompleted n = some x') :
    x.link.Quiet x'.link := by
  rw [sendCompleted] at h
  split at h
  · obtain rfl := Option.some.inj h
    exact .refl _
  · split_ifs at h
    · exact (Link.quiet_note x.link rfl).trans (quiet_handleSend h)
    · obtain rfl := Option.some.inj h
      exact .refl _

end
end View

/-- The connection took this course so far. -/
def Link.Talks (l : Link UInt8) : Prop := Conversation l.m_socket l.visible

namespace Link.Talks
variable {l l' : Link UInt8}

theorem quiet (h : l.Talks) (hq : l.Quiet l') : l'.Talks := by
  unfold Talks at h ⊢
  cases hq with
  | same hs hv => rwa [hs, hv]
  | closed ho hs hv =>
    rw [ho] at h
    rw [hs, hv]
    exact h.close

theorem answer (h : l.Talks) (req : HttpRequest)
    (hq : ((l.note (.decoded req)).note (.send HttpCodec.okResponse)).Quiet l') : l'.Talks := by
  refine quiet ?_ hq
  have hv : ((l.note (.decoded req)).note (.send HttpCodec.okResponse)).visible =
      l.visible ++ [.decoded req, .send HttpCodec.okResponse] := by
    simp [visible, filterMap_note, Note.asVisible]
  rw [Talks, hv]
  exact Conversation.answer req h

theorem refuse (h : l.Talks) {pData : Bytes} (hd : pData = [] ∨ pData = HttpCodec.okResponse)
    (hq : (l.note (.send pData)).Quiet l') (hclosed : l'.m_socket = false) : l'.Talks := by
  have hv : (l.note (.send pData)).visible = l.visible ++ [.send pData] := by
    simp [visible, filterMap_note, Note.asVisible]
  unfold Talks at h ⊢
  rw [hclosed]
  cases hq with
  | same hs hv' =>
    have hopen : l.m_socket = false := hs.symm.trans hclosed
    rw [hopen] at h
    rw [hv', hv]
    exact .refuseClosed hd h
  | closed ho _ hv' =>
    rw [hv', hv, List.append_assoc]
    have hopen : l.m_socket = true := ho
    rw [hopen] at h
    exact .refuse hd h

end Link.Talks

namespace View
variable {x x' : View UInt8}

theorem talks_round (h : x.link.Talks) (w size : ℕ) {codec : HttpCodec} (hc : Tame codec) :
    (x.round w size codec).2.2.link.Talks := by
  have hc' := hc.tryDecode w (x.inBuf.mem.take size)
  rcases lt_trichotomy 0 (codec.tryDecode w (x.inBuf.mem.take size)).1 with hpos | hzero | hneg
  · rw [round_pos hpos, reply, if_pos hpos]
    refine h.answer (codec.tryDecode w (x.inBuf.mem.take size)).2.m_req ?_
    rw [← HttpCodec.tryDecode_pos hpos]
    exact quiet_sent (x.modify fun l => l.note (.decoded _)) _
  · rw [round_zero hzero.symm]
    exact h
  · simp only [round, reply, if_neg (Int.not_lt.mpr hneg.le), if_pos hneg, ne_eq, Int.ne_of_lt hneg,
      not_false_eq_true, if_true]
    refine h.refuse hc' ((x.quiet_sent _).trans (Link.quiet_handleClose _)) ?_
    exact Link.handleClose_socket _

theorem talks_requestLoop (h : x.link.Talks) (w size fuel : ℕ) {codec : HttpCodec} (hc : Tame codec)
    (hx' : x.requestLoop w size fuel codec = some x') : x'.link.Talks := by
  induction fuel generalizing x codec with
  | zero => cases hx'
  | succ fuel ih =>
    have hround := talks_round h w size hc
    simp only [requestLoop] at hx'
    split_ifs at hx'
    · exact ih hround (hc.tryDecode w _) hx'
    · obtain rfl := Option.some.inj hx'
      exact hround

theorem talks_step (h : x.link.Talks) {w fuel : ℕ} {e : ClientContext.Event}
    (hx' : x.step w fuel e = some x') : x'.link.Talks := by
  cases e with
  | recv m_recvBuf =>
    rw [step] at hx'
    split_ifs at hx'
    · rw [handleRecv] at hx'
      split_ifs at hx'
      obtain ⟨y, hy, rfl⟩ := Option.map_eq_some_iff.mp hx'
      exact (talks_requestLoop (x := { x with
        link.recvs := x.link.recvs - 1
        inBuf := x.inBuf.write m_recvBuf }) h w _ fuel (.inl rfl) hy).quiet (Link.quiet_postRecvOrClose _)
    · obtain rfl := Option.some.inj hx'
      exact h
  | recvClose =>
    rw [step] at hx'
    split_ifs at hx'
    · obtain rfl := Option.some.inj hx'
      have hrecv : x.link.Quiet { x.link with recvs := x.link.recvs - 1 } := .same rfl rfl
      exact h.quiet (hrecv.trans (Link.quiet_handleClose _))
    · obtain rfl := Option.some.inj hx'
      exact h
  | send n => exact h.quiet (quiet_sendCompleted hx')
  | sendClose =>
    rw [step] at hx'
    split at hx'
    · obtain rfl := Option.some.inj hx'
      exact h
    · obtain rfl := Option.some.inj hx'
      exact h.quiet x.link.quiet_handleClose

end View

/-- Whatever bytes arrive in whatever pieces and whatever fails, the connection takes this course. -/
theorem conversation_of_run {w fuel : ℕ} {net : ℕ → Bool} {es : List ClientContext.Event}
    {s : ClientContext UInt8} (hrun : run (ClientContext.step w fuel) (.accepted net) es = some s) :
    Conversation s.link.m_socket s.link.visible := by
  have hrel := ((Holds.new net).modify Link.handleAccept).run w fuel es
  rw [ClientContext.accepted] at hrun
  rw [hrun] at hrel
  obtain ⟨x, hx, hholds⟩ := rel_some hrel
  have hnew : (View.new net : View UInt8).link.Talks := .nil
  have henter : (View.new net : View UInt8).link.Quiet (View.new net).link.enterIoLoop.addClient :=
    .same rfl rfl
  have hstart : ((View.new net).modify Link.handleAccept).link.Talks :=
    hnew.quiet (henter.trans (Link.quiet_postRecvOrClose _))
  rw [hholds.link]
  exact run_preserves (fun x : View UInt8 => x.link.Talks) hstart
    (fun x e x' h hx' => x.talks_step h hx') hx

/-- A start line that is not one is answered by an empty message and the end of the connection. -/
theorem conversation_refused : ∃ s, run (ClientContext.step 32 2) (.accepted fun _ => true)
      [.recv (ascii "GET\r\n\r\n")] = some s ∧ s.link.visible = [.send [], .closed] ∧
    Conversation s.link.m_socket s.link.visible := by
  have hend : (run (ClientContext.step 32 2) (.accepted fun _ => true) [.recv (ascii "GET\r\n\r\n")]).any
      (fun s => decide (s.link.visible = [.send [], .closed])) = true := by decide +kernel
  obtain ⟨s, hrun, hs⟩ := exists_of_any hend
  exact ⟨s, hrun, of_decide_eq_true hs, conversation_of_run hrun⟩

end NetDemo.Client
