import NetDemo.Client.Residue

/-! Two contexts that do the same from now on: what of a context can be seen from outside, and when
it stays the same on both. The counter and the lists of contexts are not seen. -/

namespace NetDemo.Client
open Foundation Memory Http

/-- The two links differ in the counter and the lists at most. -/
structure Link.Like {α : Type} (l l' : Link α) : Prop where
  socket : l.m_socket = l'.m_socket
  net : l.net = l'.net
  recvs : l.recvs = l'.recvs
  log : l.log = l'.log

/-- `l'` came from `l` by handlers that receive nothing. -/
structure Link.Kept {α : Type} (l l' : Link α) : Prop where
  recvs : l'.recvs = l.recvs
  closed : l.m_socket = false → l'.m_socket = false
  log : l.log <+: l'.log

section
variable {α : Type} {l l' l'' : Link α}

namespace Link.Like

theorem release (h : Like l l') : Like l.releaseClientContext l'.releaseClientContext := by
  rw [releaseClientContext_eq, releaseClientContext_eq l']
  exact ⟨h.socket, h.net, h.recvs, h.log⟩

theorem note (h : Like l l') (n : Note α) : Like (l.note n) (l'.note n) :=
  ⟨h.socket, h.net, h.recvs, congrArg (· ++ [n]) h.log⟩

theorem answer (h : Like l l') : Like l.answer.2 l'.answer.2 :=
  ⟨h.socket, congrArg (fun net k => net (k + 1)) h.net, h.recvs, h.log⟩

theorem enterIoLoop (h : Like l l') : Like l.enterIoLoop l'.enterIoLoop := ⟨h.socket, h.net, h.recvs, h.log⟩

theorem takeRecv (h : Like l l') :
    Like { l with recvs := l.recvs - 1 } { l' with recvs := l'.recvs - 1 } :=
  ⟨h.socket, h.net, congrArg (· - 1) h.recvs, h.log⟩

theorem close (h : Like l l') : Like l.closeClient l'.closeClient := by
  simp only [closeClient, h.socket]
  split_ifs
  · have hshut : Like { l with m_socket := false } { l' with m_socket := false } :=
      ⟨rfl, h.net, h.recvs, h.log⟩
    exact hshut.note .closed
  · exact h

theorem handleClose (h : Like l l') : Like l.handleClose l'.handleClose := h.close.release

theorem postRecvOrClose (h : Like l l') : Like l.postRecvOrClose l'.postRecvOrClose := by
  rcases l'.postRecv_cases with ⟨hs, hn, hp⟩ | ⟨hs, hn, hp⟩ | ⟨hs, hp⟩
  · rw [← h.socket] at hs
    rw [← h.net] at hn
    have hp' : l.postRecv = (.successful, { l.answer.2 with recvs := l.recvs + 1 }) := by
      simp [postRecv, hs, hn, Link.answer]
    simp only [Link.postRecvOrClose, hp, hp', reduceCtorEq, or_self, if_false]
    exact ⟨h.socket, h.answer.net, congrArg (· + 1) h.recvs, h.log⟩
  · rw [← h.socket] at hs
    rw [← h.net] at hn
    have hp' : l.postRecv = (.failed, l.answer.2) := by
      simp [postRecv, hs, hn, Link.answer]
    simp only [Link.postRecvOrClose, hp, hp', true_or, if_true]
    exact h.answer.handleClose
  · rw [← h.socket] at hs
    have hp' : l.postRecv = (.invalidSocket, l) := by simp [postRecv, hs]
    simp only [Link.postRecvOrClose, hp, hp', or_true, if_true]
    exact h.handleClose

end Link.Like

namespace Link.Kept

theorem refl (l : Link α) : Kept l l := ⟨rfl, id, List.prefix_refl _⟩

theorem trans (h : Kept l l') (h' : Kept l' l'') : Kept l l'' :=
  ⟨h'.recvs.trans h.recvs, fun hs => h'.closed (h.closed hs), h.log.trans h'.log⟩

theorem note (l : Link α) (n : Note α) : Kept l (l.note n) := ⟨rfl, id, List.prefix_append ..⟩

theorem answer (l : Link α) : Kept l l.answer.2 := ⟨rfl, id, List.prefix_refl _⟩

theorem enterIoLoop (l : Link α) : Kept l l.enterIoLoop := ⟨rfl, id, List.prefix_refl _⟩

theorem release (l : Link α) : Kept l l.releaseClientContext := by
  rw [releaseClientContext_eq]
  exact ⟨rfl, id, List.prefix_refl _⟩

theorem handleClose (l : Link α) : Kept l l.handleClose := by
  refine Kept.trans ?_ (release _)
  unfold closeClient
  split_ifs
  · exact ⟨rfl, fun _ => rfl, List.prefix_append ..⟩
  · exact refl l

end Link.Kept
end

namespace View
variable {α : Type}

/-- All but `m_inBuf` is alike. -/
structure Front (x y : View α) : Prop where
  link : x.link.Like y.link
  out : x.out = y.out
  queue : x.queue = y.queue
  sends : x.sends = y.sends

/-- `x'` came from `x` by handlers that do not touch `m_inBuf`. -/
structure Kept (x x' : View α) : Prop where
  inBuf : x'.inBuf = x.inBuf
  link : x.link.Kept x'.link

variable {x y x' y' : View α}

theorem Kept.trans {x'' : View α} (h : Kept x x') (h' : Kept x' x'') : Kept x x'' :=
  ⟨h'.inBuf.trans h.inBuf, h.link.trans h'.link⟩

theorem Kept.modify {f : Link α → Link α} (h : x.link.Kept (f x.link)) : Kept x (x.modify f) := ⟨rfl, h⟩

theorem kept_postSend (x : View α) : Kept x x.postSend.2 := by
  have hanswer := Link.Kept.answer x.link
  rcases x.postSend_cases with ⟨-, -, h⟩ | ⟨-, -, h⟩ | ⟨-, h⟩ <;> rw [h]
  · exact ⟨rfl, hanswer.trans (.note _ _)⟩
  · exact ⟨rfl, hanswer⟩
  · exact ⟨rfl, .refl _⟩

theorem kept_sent_note (x : View α) (pData : List α) :
    Kept (x.modify fun l => l.note (.send pData)) (x.sent pData).2 := by
  simp only [sent]
  split_ifs
  · simp only [firstSend]
    have hsend := kept_postSend
      { (x.modify fun l => l.note (.send pData)).modify Link.enterIoLoop with out := pData }
    have hall : Kept (x.modify fun l => l.note (.send pData)) _ :=
      (Kept.modify (.enterIoLoop _)).trans ⟨hsend.inBuf, hsend.link⟩
    split_ifs
    · exact hall.trans (.modify (.handleClose _))
    · exact hall
  · exact ⟨rfl, .note _ _⟩

theorem kept_sent (x : View α) (pData : List α) : Kept x (x.sent pData).2 :=
  (Kept.modify (.note _ _)).trans (x.kept_sent_note pData)

theorem kept_postRest (x : View α) : Kept x x.postRest := by
  simp only [postRest]
  split_ifs
  · exact (kept_postSend x).trans (.modify (.handleClose _))
  · exact kept_postSend x
  · exact ⟨rfl, .refl _⟩

theorem kept_nextOutBuf (h : x.nextOutBuf = some x') : Kept x x' := by
  unfold nextOutBuf at h
  split at h
  · obtain rfl := Option.some.inj h
    exact .modify (.release _)
  · obtain rfl := Option.some.inj h
    exact ⟨rfl, .note _ _⟩
  · cases h

theorem kept_handleSend {n : ℕ} (h : x.handleSend n = some x') : Kept x x' := by
  have hdrop : Kept x { x with out := x.out.drop n } := ⟨rfl, .refl _⟩
  by_cases hd : x.out.drop n = []
  · rw [handleSend_done hd, Option.map_eq_some_iff] at h
    obtain ⟨x₁, h₁, rfl⟩ := h
    have hnext := kept_nextOutBuf h₁
    exact Kept.trans ⟨hnext.inBuf, hnext.link⟩ (kept_postRest x₁)
  · rw [handleSend_rest hd] at h
    obtain rfl := Option.some.inj h
    exact hdrop.trans (kept_postRest _)

theorem kept_sendCompleted {n : ℕ} (h : x.sendCompleted n = some x') : Kept x x' := by
  unfold sendCompleted at h
  split at h
  · obtain rfl := Option.some.inj h
    exact ⟨rfl, .refl _⟩
  · split_ifs at h
    · have hsend := kept_handleSend h
      exact ⟨hsend.inBuf, (Link.Kept.note _ _).trans hsend.link⟩
    · obtain rfl := Option.some.inj h
      exact ⟨rfl, .refl _⟩

namespace Front

theorem modify (h : Front x y) {f : Link α → Link α} (hf : (f x.link).Like (f y.link)) :
    Front (x.modify f) (y.modify f) := ⟨hf, h.out, h.queue, h.sends⟩

theorem postSend (h : Front x y) : x.postSend.1 = y.postSend.1 ∧ Front x.postSend.2 y.postSend.2 := by
  have hsocket := h.link.socket
  have hnet := congrFun h.link.net 0
  rcases x.postSend_cases with ⟨hs, hn, hx⟩ | ⟨hs, hn, hx⟩ | ⟨hs, hx⟩
  · have hy : y.postSend = (.successful, { y with
        sends := y.sends ++ [y.out], link := y.link.answer.2.note (.posted y.out) }) := by
      simp only [View.postSend, ← hsocket, hs, if_true, Link.answer, ← hnet, hn]
    rw [hx, hy, ← h.out, ← h.sends]
    exact ⟨rfl, ⟨h.link.answer.note _, rfl, h.queue, rfl⟩⟩
  · have hy : y.postSend = (.failed, { y with link := y.link.answer.2 }) := by
      simp [View.postSend, ← hsocket, hs, Link.answer, ← hnet, hn]
    rw [hx, hy]
    exact ⟨rfl, ⟨h.link.answer, h.out, h.queue, h.sends⟩⟩
  · have hy : y.postSend = (.invalidSocket, y) := by simp [View.postSend, ← hsocket, hs]
    rw [hx, hy]
    exact ⟨rfl, h⟩

theorem sent (h : Front x y) (pData : List α) : Front (x.sent pData).2 (y.sent pData).2 := by
  have hnote : Front (x.modify fun l => l.note (.send pData)) (y.modify fun l => l.note (.send pData)) :=
    h.modify (h.link.note _)
  by_cases hout : y.out = []
  · rw [sent_idle (h.out.trans hout), sent_idle hout]
    have hfirst : Front
        { (x.modify fun l => l.note (.send pData)).modify Link.enterIoLoop with out := pData }
        { (y.modify fun l => l.note (.send pData)).modify Link.enterIoLoop with out := pData } :=
      ⟨hnote.link.enterIoLoop, rfl, h.queue, h.sends⟩
    obtain ⟨hresult, hsend⟩ := hfirst.postSend
    simp only [firstSend, hresult]
    split_ifs
    · exact hsend.modify hsend.link.handleClose
    · exact hsend
  · rw [sent_busy (h.out ▸ hout), sent_busy hout]
    exact ⟨hnote.link.note _, hnote.out, congrArg (· ++ [pData]) h.queue, h.sends⟩

theorem postRest (h : Front x y) : Front x.postRest y.postRest := by
  obtain ⟨hresult, hsend⟩ := h.postSend
  simp only [View.postRest, h.out, hresult]
  split_ifs
  · exact hsend.modify hsend.link.handleClose
  · exact hsend
  · exact h

theorem nextOutBuf (h : Front x y) : Option.Rel Front x.nextOutBuf y.nextOutBuf := by
  have hqueue := h.queue
  unfold View.nextOutBuf
  rw [hqueue]
  split
  · exact .some (h.modify h.link.release)
  · exact .some ⟨h.link.note _, rfl, rfl, h.sends⟩
  · exact .none

theorem handleSend (h : Front x y) (n : ℕ) : Option.Rel Front (x.handleSend n) (y.handleSend n) := by
  have hdrop : Front { x with out := x.out.drop n } { y with out := y.out.drop n } :=
    ⟨h.link, congrArg (List.drop n) h.out, h.queue, h.sends⟩
  by_cases hd : y.out.drop n = []
  · have hempty : Front { x with out := [] } { y with out := [] } := ⟨h.link, rfl, h.queue, h.sends⟩
    rw [handleSend_done hd, handleSend_done (h.out ▸ hd), Option.map_eq_bind, Option.map_eq_bind]
    exact rel_bind hempty.nextOutBuf fun _ _ hnext => .some hnext.postRest
  · rw [handleSend_rest hd, handleSend_rest (h.out ▸ hd)]
    exact .some hdrop.postRest

theorem sendCompleted (h : Front x y) (n : ℕ) : Option.Rel Front (x.sendCompleted n) (y.sendCompleted n) := by
  have hsends := h.sends
  unfold View.sendCompleted
  rw [hsends]
  split
  · exact .some h
  next bytes rest _ =>
  split_ifs
  · have hnote : Front
        { x with sends := rest, link := x.link.note (.reported (bytes.take n)) }
        { y with sends := rest, link := y.link.note (.reported (bytes.take n)) } :=
      ⟨h.link.note _, h.out, h.queue, rfl⟩
    exact hnote.handleSend n
  · exact .some h

end Front
end View

namespace View
variable {w : ℕ} {x y : View UInt8}

theorem kept_reply (x : View UInt8) (codec : HttpCodec) (ret : ℤ) :
    x.link.Kept (x.reply codec ret).link := by
  have hsent := fun x : View UInt8 => (kept_sent x codec.responseMessage).link
  simp only [reply]
  split_ifs
  · exact (Link.Kept.note _ _).trans (hsent (x.modify fun l => l.note (.decoded codec.m_req)))
  · exact hsent x

theorem kept_refuse (x : View UInt8) (codec : HttpCodec) (ret : ℤ) :
    x.link.Kept (x.refuse codec ret).link := (x.kept_reply codec ret).trans (.handleClose _)

theorem refuse_socket (x : View UInt8) (codec : HttpCodec) (ret : ℤ) :
    (x.refuse codec ret).link.m_socket = false := Link.handleClose_socket _

namespace Front

theorem setIn (h : Front x y) (u v : Cells UInt8) : Front { x with inBuf := u } { y with inBuf := v } :=
  ⟨h.link, h.out, h.queue, h.sends⟩

theorem reply (h : Front x y) (codec : HttpCodec) (ret : ℤ) : Front (x.reply codec ret) (y.reply codec ret) := by
  simp only [View.reply]
  split_ifs
  · exact ((h.modify (h.link.note _)).sent _).setIn _ _
  · exact (h.sent _).setIn _ _

theorem refuse (h : Front x y) {codec codec' : HttpCodec} (he : codec.m_outBuf = codec'.m_outBuf) {ret ret' : ℤ}
    (hneg : ret < 0) (hneg' : ret' < 0) : Front (x.refuse codec ret) (y.refuse codec' ret') := by
  have hsent := h.sent codec.responseMessage
  have hcodec : codec'.responseMessage = codec.responseMessage := he.symm
  simp only [View.refuse, View.reply, if_neg hneg.le.not_gt, if_neg hneg'.le.not_gt, hcodec]
  exact (hsent.setIn _ _).modify hsent.link.handleClose

end Front
end View

/-! ### A context that was used and a new one -/

/-- The context `x` cannot be told from `y`; the blocks do not matter when nothing is received any more. -/
structure Alike (w : ℕ) (x y : View UInt8) : Prop where
  front : x.Front y
  few : y.link.recvs ≤ 1
  inBuf : Paired w x.inBuf y.inBuf ∨ y.link.m_socket = false ∧ y.link.recvs = 0

theorem Alike.notifyPackageReceived {w : ℕ} {x y : View UInt8} (hfront : x.Front y) (hrecvs : y.link.recvs = 0)
    (hin : x.inBuf = y.inBuf ∨ ∃ m n l, Twins w m n l x.inBuf y.inBuf) (fuel : ℕ) :
    Option.Rel (fun x y => Alike w x y ∧ y.link.recvs = 0) (x.notifyPackageReceived w fuel)
      (y.notifyPackageReceived w fuel) := by
  have hpair : Paired w x.inBuf y.inBuf := by
    rcases hin with heq | ⟨m, n, l, ht⟩
    · exact .same heq
    · exact .twins ht
  have hlive : x.inBuf.live = y.inBuf.live := by
    rcases hin with heq | ⟨m, n, l, ht⟩
    · rw [heq]
    · exact ht.live
  have hshut {x' y' : View UInt8} (hfront' : x'.Front y') (hkept : y.link.Kept y'.link)
      (hclosed : y'.link.m_socket = false) : Alike w x' y' ∧ y'.link.recvs = 0 := by
    have hnone := hkept.recvs.trans hrecvs
    exact ⟨⟨hfront', by omega, .inr ⟨hclosed, hnone⟩⟩, hnone⟩
  cases fuel with
  | zero => exact .none
  | succ fuel =>
  rcases lt_trichotomy (HttpCodec.new.tryDecode w y.inBuf.live).1 0 with hneg | hzero | hpos
  · rw [View.notifyPackageReceived_refuses fuel hneg, View.notifyPackageReceived_refuses fuel (by rwa [hlive]),
      hlive]
    exact .some (hshut (hfront.refuse rfl hneg hneg) (y.kept_refuse _ _) (y.refuse_socket _ _))
  · rw [View.notifyPackageReceived_waits fuel hzero, View.notifyPackageReceived_waits fuel (by rwa [hlive])]
    exact .some ⟨⟨hfront, by omega, .inl hpair⟩, hrecvs⟩
  · have hpos' : 0 < (HttpCodec.new.tryDecode w x.inBuf.live).1 := by rwa [hlive]
    cases fuel with
    | zero =>
      rw [View.notifyPackageReceived_one hpos, View.notifyPackageReceived_one hpos']
      exact .none
    | succ fuel =>
    -- what the second call reads may differ in the two blocks, the sign of its answer does not
    obtain ⟨hsign, hnext⟩ : (x.second w).1.sign = (y.second w).1.sign ∧
        ((y.second w).1 = 0 → Paired w (x.answer w).inBuf (y.answer w).inBuf) := by
      rw [View.inBuf_answer, View.inBuf_answer]
      rcases hin with heq | ⟨m, n, l, ht⟩
      · rw [View.second, View.second, heq]
        exact ⟨rfl, fun _ => .same rfl⟩
      · have hshort := ht.short
        have hleft := ht.left
        have hright := ht.right
        rw [View.second_over ht.covers (by omega), View.second_over ht.covers' (by omega)]
        rw [ht.covers'.live] at hpos
        exact ⟨(ht.second hpos).1, fun hzero => .twins ((ht.second hpos).2 hzero)⟩
    have hanswer : (x.answer w).Front (y.answer w) := by
      rw [View.answer, View.answer, hlive]
      exact hfront.reply _ _
    have hkept : y.link.Kept (y.answer w).link := y.kept_reply _ _
    rcases lt_trichotomy (y.second w).1 0 with hneg₂ | hzero₂ | hpos₂
    · have hneg₂' : (x.second w).1 < 0 := by
        rwa [← Int.sign_eq_neg_one_iff_neg, hsign, Int.sign_eq_neg_one_iff_neg]
      have hout : (x.second w).2.m_outBuf = (y.second w).2.m_outBuf :=
        (View.second_outBuf hpos').trans (View.second_outBuf hpos).symm
      rw [View.notifyPackageReceived_then_refuses fuel hpos hneg₂,
        View.notifyPackageReceived_then_refuses fuel hpos' hneg₂']
      exact .some (hshut (hanswer.refuse hout hneg₂' hneg₂) (hkept.trans ((y.answer w).kept_refuse _ _))
        (View.refuse_socket ..))
    · have hzero₂' : (x.second w).1 = 0 := by
        rwa [hzero₂, Int.sign_zero, Int.sign_eq_zero_iff_zero] at hsign
      rw [View.notifyPackageReceived_then_waits fuel hpos hzero₂,
        View.notifyPackageReceived_then_waits fuel hpos' hzero₂']
      have hnone := hkept.recvs.trans hrecvs
      exact .some ⟨⟨hanswer, by omega, .inl (hnext hzero₂)⟩, hnone⟩
    · have hpos₂' : 0 < (x.second w).1 := by
        rwa [← Int.sign_eq_one_iff_pos, hsign, Int.sign_eq_one_iff_pos]
      rw [View.notifyPackageReceived_stuck hpos hpos₂, View.notifyPackageReceived_stuck hpos' hpos₂']
      exact .none

namespace Paired
variable {w : ℕ} {u v : Cells UInt8}

theorem len (h : Paired w u v) : u.len = v.len := by
  cases h with
  | same heq => rw [heq]
  | twins ht => rw [ht.covers.len, ht.covers'.len]
  | first ht hnone =>
    rw [ht.covers.len, hnone]
    rfl

theorem write (h : Paired w u v) {d : Bytes} (hd : d ≠ []) :
    u.write d = v.write d ∨ ∃ m n l, Twins w m n l (u.write d) (v.write d) := by
  cases h with
  | same heq => exact .inl (by rw [heq])
  | twins ht => exact (ht.write d).imp_right fun ht' => ⟨_, _, _, ht'⟩
  | first ht hnone =>
    rw [hnone, ← write_blank hd]
    exact (ht.write d).imp_right fun ht' => ⟨_, _, _, ht'⟩

end Paired

theorem Link.postRecvOrClose_recvs {α : Type} (l : Link α) : l.postRecvOrClose.recvs ≤ l.recvs + 1 ∧
    (l.m_socket = false → l.postRecvOrClose.m_socket = false ∧ l.postRecvOrClose.recvs = l.recvs) := by
  have hclosed := fun l : Link α => (Link.Kept.handleClose l).recvs
  rcases l.postRecv_cases with ⟨hs, -, hp⟩ | ⟨hs, -, hp⟩ | ⟨-, hp⟩
  · simp [Link.postRecvOrClose, hp, hs]
  · simp only [Link.postRecvOrClose, hp, true_or, if_true]
    refine ⟨(hclosed l.answer.2).le.trans (Nat.le_succ _), fun hno => ?_⟩
    rw [hs] at hno
    cases hno
  · simp only [Link.postRecvOrClose, hp, or_true, if_true]
    exact ⟨(hclosed l).le.trans (Nat.le_succ _), fun _ => ⟨l.handleClose_socket, hclosed l⟩⟩

namespace Alike
variable {w : ℕ} {x y : View UInt8}

theorem postRecvOrClose (h : Alike w x y) (hnone : y.link.recvs = 0) :
    Alike w (x.modify Link.postRecvOrClose) (y.modify Link.postRecvOrClose) := by
  obtain ⟨hle, hclosed⟩ := y.link.postRecvOrClose_recvs
  refine ⟨h.front.modify h.front.link.postRecvOrClose, ?_, h.inBuf.imp_right fun hdead => ?_⟩
  · rw [View.modify_link]
    omega
  · rw [View.modify_link]
    exact ⟨(hclosed hdead.1).1, (hclosed hdead.1).2.trans hdead.2⟩

theorem handleRecv (hfront : x.Front y) (hrecvs : y.link.recvs = 0) (hin : Paired w x.inBuf y.inBuf) (fuel : ℕ)
    {d : Bytes} (hd : d ≠ []) : Option.Rel (Alike w) (x.handleRecv w fuel d) (y.handleRecv w fuel d) := by
  simp only [View.handleRecv, hin.len]
  split_ifs
  · rw [Option.map_eq_bind, Option.map_eq_bind]
    refine rel_bind (notifyPackageReceived
      (hfront.setIn (x.inBuf.write d) (y.inBuf.write d)) hrecvs (hin.write hd) fuel) ?_
    rintro x' y' ⟨h', hnone⟩
    exact .some (h'.postRecvOrClose hnone)
  · exact .none

theorem taken (h : Alike w x y) : Alike w { x with link.recvs := y.link.recvs - 1 }
    { y with link.recvs := y.link.recvs - 1 } := by
  have hfew := h.few
  refine ⟨⟨⟨h.front.link.socket, h.front.link.net, rfl, h.front.link.log⟩, h.front.out, h.front.queue,
    h.front.sends⟩, by simp only; omega, h.inBuf.imp_right fun hdead => ⟨hdead.1, ?_⟩⟩
  rw [hdead.2]

theorem closed (h : Alike w x y) : Alike w (x.modify Link.handleClose) (y.modify Link.handleClose) := by
  have hrecvs : (y.modify Link.handleClose).link.recvs = y.link.recvs := (Link.Kept.handleClose _).recvs
  exact ⟨h.front.modify h.front.link.handleClose, hrecvs.trans_le h.few,
    h.inBuf.imp_right fun hdead => ⟨Link.handleClose_socket _, hrecvs.trans hdead.2⟩⟩

theorem sendCompleted (h : Alike w x y) (n : ℕ) :
    Option.Rel (Alike w) (x.sendCompleted n) (y.sendCompleted n) := by
  have hrel := h.front.sendCompleted n
  cases hx : x.sendCompleted n with
  | none =>
    rw [hx] at hrel
    cases hy : y.sendCompleted n with
    | none => exact .none
    | some y' =>
      rw [hy] at hrel
      cases hrel
  | some x' =>
    rw [hx] at hrel
    obtain ⟨y', hy, hfront⟩ := rel_some hrel
    have hkept := View.kept_sendCompleted hx
    have hkept' := View.kept_sendCompleted hy
    rw [hy]
    refine .some ⟨hfront, hkept'.link.recvs.trans_le h.few, ?_⟩
    rw [hkept.inBuf, hkept'.inBuf]
    exact h.inBuf.imp_right fun hdead => ⟨hkept'.link.closed hdead.1, hkept'.link.recvs.trans hdead.2⟩

theorem step (h : Alike w x y) (fuel : ℕ) (e : ClientContext.Event) :
    Option.Rel (Alike w) (x.step w fuel e) (y.step w fuel e) := by
  have hfew := h.few
  cases e with
  | recv d =>
    simp only [View.step, h.front.link.recvs]
    split_ifs with hd
    · have hin : Paired w x.inBuf y.inBuf := by
        refine h.inBuf.resolve_right fun hdead => ?_
        have hpos := hd.1
        rw [hdead.2] at hpos
        exact Nat.lt_irrefl 0 hpos
      exact handleRecv h.taken.front (by simp only; omega) hin fuel hd.2.1
    · exact .some h
  | recvClose =>
    simp only [View.step, h.front.link.recvs]
    split_ifs
    · exact .some h.taken.closed
    · exact .some h
  | send n => exact h.sendCompleted n
  | sendClose =>
    simp only [View.step, h.front.sends]
    split
    · exact .some h
    · next rest _ =>
      have hpopped : Alike w { x with sends := rest } { y with sends := rest } :=
        ⟨⟨h.front.link, h.front.out, h.front.queue, rfl⟩, h.few, h.inBuf⟩
      exact .some hpopped.closed

theorem log_run (h : Alike w x y) (fuel : ℕ) (es : List ClientContext.Event) :
    (run (View.step w fuel) x es).map (fun x => x.link.log) =
      (run (View.step w fuel) y es).map fun y => y.link.log :=
  map_eq_of_rel (run_rel (fun _ _ e h => h.step fuel e) h es) fun _ _ h => h.front.link.log

end Alike

end NetDemo.Client
