import NetDemo.Server.Counting

/-! One instruction of a handler, on a context in use. -/

namespace NetDemo.Server
open Foundation Memory Http Client

theorem ClientContext.exec_running (app : App) (cl : ClientContext) (ok : Bool) (instr : Instr) :
    (cl.exec app ok instr).1.running = cl.running := by
  cases instr <;> simp only [exec, enterIoLoop, exitIoLoop, postRecv, postSend] <;> repeat' (first | rfl | split)

/-- What a handler of a context in use must not find: a request that is not accepted, and, when no
reference may be lost, a socket that is closed where it wants to send. -/
structure Smooth (tight : Prop) (cl : ClientContext) (instr : Instr) : Prop where
  decode : ∀ w size codec, instr = .decode w size codec →
    0 ≤ (HttpCodec.tryDecode w codec (cl.m_inBuf.mem.take size)).1
  post : tight → instr = .postSend → cl.m_socket.isSome

theorem working_reply {w size : ℕ} {codec : HttpCodec} {d : Bytes} (h : 0 ≤ (codec.tryDecode w d).1)
    {app : App} (happ : app ≠ .echo) :
    ∀ i ∈ ClientContext.reply w size (codec.tryDecode w d).1 (codec.tryDecode w d).2, Working app i := by
  intro i hi
  rcases Int.lt_or_eq_of_le h with hpos | hzero
  · have hlen : 0 < (codec.tryDecode w d).2.responseMessage.length := by
      rw [HttpCodec.responseMessage, HttpCodec.tryDecode_pos hpos]
      exact List.length_pos_of_ne_nil HttpCodec.okResponse_ne
    simp only [ClientContext.reply, if_pos (Int.ne_of_gt hpos), if_neg (Int.not_lt.mpr h), if_pos hpos,
      List.append_nil, List.mem_append, List.mem_cons, List.not_mem_nil, or_false] at hi
    rcases hi with (rfl | rfl) | rfl
    · exact hlen
    · trivial
    · exact happ
  · simp [ClientContext.reply, ← hzero] at hi

theorem owns_reply (w size : ℕ) {codec : HttpCodec} {d : Bytes} (h : 0 ≤ (codec.tryDecode w d).1) :
    recvIn (ClientContext.reply w size (codec.tryDecode w d).1 (codec.tryDecode w d).2) = 0 ∧
      sendIn (ClientContext.reply w size (codec.tryDecode w d).1 (codec.tryDecode w d).2) = 0 := by
  unfold ClientContext.reply
  rw [if_neg (Int.not_lt.mpr h)]
  constructor <;> split_ifs <;> rfl

theorem carries_closeAndRelease {of : Ref} (h : of ≠ .stray) : Carries (ClientContext.closeAndRelease of) := by
  refine ⟨[.closeClient], .exitIoLoop of, rfl, ?_⟩
  cases of with
  | recv => exact .inl rfl
  | send => exact .inr rfl
  | stray => exact absurd rfl h

theorem working_closeAndRelease {of : Ref} (h : of ≠ .stray) (app : App) :
    ∀ i ∈ ClientContext.closeAndRelease of, Working app i := by
  intro i hi
  simp only [ClientContext.closeAndRelease, List.mem_cons, List.not_mem_nil, or_false] at hi
  rcases hi with rfl | rfl
  · trivial
  · cases of with
    | stray => exact absurd rfl h
    | recv => trivial
    | send => trivial

/-- The two contexts differ in what is running only. -/
structure Same (cl₁ cl' : ClientContext) : Prop where
  recvs : cl'.recvs = cl₁.recvs
  sends : cl'.sends = cl₁.sends
  outLen : cl'.outLen = cl₁.outLen
  count : cl'.m_nPendingIoCnt = cl₁.m_nPendingIoCnt

theorem Same.busy {cl₁ cl' : ClientContext} (h : Same cl₁ cl') : cl'.busy = cl₁.busy := by
  rw [ClientContext.busy, ClientContext.busy, h.outLen]

namespace ClientContext
variable (app : App) (cl : ClientContext)

theorem exec_postRecv (ok : Bool) :
    cl.exec app ok .postRecv = ({ cl with recvs := cl.recvs + 1 }, []) ∨
      cl.exec app ok .postRecv = (cl, closeAndRelease .recv) := by
  cases hs : cl.m_socket with
  | none => exact .inr (by simp [exec, postRecv, hs])
  | some s => cases ok <;> simp [exec, postRecv, hs]

theorem exec_postSend (ok : Bool) :
    cl.exec app ok .postSend = ({ cl with sends := cl.sends ++ [cl.outLen] }, []) ∨
      cl.exec app ok .postSend = (cl, closeAndRelease .send) ∨
      cl.m_socket = none ∧ cl.exec app ok .postSend = (cl, []) := by
  cases hs : cl.m_socket with
  | none => exact .inr (.inr ⟨rfl, by simp [exec, postSend, hs]⟩)
  | some s => cases ok <;> simp [exec, postSend, hs]

end ClientContext

namespace ClientContext
variable (app : App) {cl : ClientContext}

theorem exec_handleSend (hqueue : ∀ n ∈ cl.m_outBufQueue, 0 < n) (ok : Bool) (n : ℕ) :
    (∃ len rest, 0 < len ∧ (∀ n ∈ rest, 0 < n) ∧ cl.exec app ok (.handleSend n) =
      ({ cl with outLen := len, m_outBufQueue := rest }, [.postSend])) ∨
      cl.exec app ok (.handleSend n) = ({ cl with outLen := 0 } : ClientContext).exitIoLoop := by
  by_cases hout : 0 = cl.outLen - n
  · cases hq : cl.m_outBufQueue with
    | nil =>
      apply Or.inr
      simp only [exec, if_pos hout, hq]
      rw [← hout]
    | cons front rest =>
      have hfront : 0 < front := hqueue front (by rw [hq]; exact List.mem_cons_self)
      have hrest : ∀ n ∈ rest, 0 < n := fun n hn => hqueue n (by rw [hq]; exact List.mem_cons_of_mem _ hn)
      refine .inl ⟨front, rest, hfront, hrest, ?_⟩
      simp only [exec, if_pos hout, hq, if_pos (Nat.ne_of_lt hfront)]
  · refine .inl ⟨cl.outLen - n, cl.m_outBufQueue, by omega, hqueue, ?_⟩
    simp only [exec, if_neg hout]

end ClientContext

namespace Goes
variable {app : App} {tight : Prop} {cl cl₁ cl' : ClientContext} {instr : Instr} {code more : Code}
  {pre post : List Code}

theorem middle (h : Goes cl cl' instr code more pre post) (hcl : Active app tight cl) (hsame : Same cl cl')
    (hmore : code = [] → more ≠ [] → Carries more) (hwork : ∀ i ∈ more, Working app i)
    (hr : recvIn more = recvIn [instr]) (hs : sendIn more = sendIn [instr]) : Active app tight cl' :=
  h.keep hcl hmore hwork (by rw [hsame.recvs, hr]) (by rw [hsame.sends, hs]) hsame.busy hsame.count

theorem firstSend (h : Goes cl cl' instr code [.postSend] pre post) (hcl : Active app tight cl) {len : ℕ}
    (hout : 0 = cl.outLen) (hlen : 0 < len) (hsame : Same { cl.enterIoLoop with outLen := len } cl')
    (hr : recvIn [instr] = 0) (hs : sendIn [instr] = 0) : Active app tight cl' := by
  obtain ⟨hrecv, hsend, hlow, hhigh, hexact⟩ := hcl.balanced
  have hidle : cl.busy = 0 := if_pos hout
  have hbusy : cl'.busy = 1 := hsame.busy.trans (if_neg (Nat.ne_of_lt hlen))
  have hcount : cl'.m_nPendingIoCnt = cl.m_nPendingIoCnt + 1 :=
    hsame.count.trans (Nat.mod_eq_of_lt (by omega))
  have hrefs := h.recvRefs
  have hsends := h.sendRefs
  rw [hsame.recvs, hr, show recvIn [Instr.postSend] = 0 from rfl] at hrefs
  rw [hsame.sends, hs, show sendIn [Instr.postSend] = 1 from rfl] at hsends
  change cl'.recvRefs + (cl.recvs + 0) = cl.recvRefs + (cl.recvs + 0) at hrefs
  change cl'.sendRefs + (cl.sends.length + 0) = cl.sendRefs + (cl.sends.length + 1) at hsends
  refine h.active hcl (fun _ _ => ⟨[], .postSend, rfl, .inr rfl⟩) ?_ ⟨?_, ?_, ?_, ?_, fun ht => ?_⟩ (by omega)
  · intro j hj
    rw [List.mem_singleton.mp hj]
    trivial
  · omega
  · omega
  · omega
  · omega
  · have := hexact ht
    omega

/-- A send on a socket that is closed: its reference is lost. -/
theorem lose (h : Goes cl cl' instr code [] pre post) (hcl : Active app tight cl) (hsame : Same cl cl')
    (hr : recvIn [instr] = 0) (hs : sendIn [instr] = 1) (htight : ¬ tight) : Active app tight cl' := by
  obtain ⟨hrecv, hsend, hlow, hhigh, -⟩ := hcl.balanced
  have hrefs := h.recvRefs
  have hsends := h.sendRefs
  rw [hsame.recvs, hr, recvIn_nil] at hrefs
  rw [hsame.sends, hs, sendIn_nil] at hsends
  have hpos := hcl.pos
  refine h.active hcl (fun _ hne => absurd rfl hne) (by simp) ?_ (by rw [hsame.count]; exact hpos)
  rw [hsame.busy, hsame.count]
  exact ⟨by omega, by omega, by omega, by omega, fun ht => absurd ht htight⟩

theorem receive (ok : Bool) {d : Bytes}
    (h : Goes cl cl' (.receive d) code (cl.exec app ok (.receive d)).2 pre post)
    (hsame : Same (cl.exec app ok (.receive d)).1 cl') (hcl : Active app tight cl) (hcode : code ≠ [])
    (hd : d ≠ []) : Active app tight cl' := by
  have hlen : 0 < (cl.m_inBuf.write d).len := by
    have hpos := List.length_pos_of_ne_nil hd
    rw [Cells.len_write]
    omega
  refine h.middle hcl ⟨hsame.recvs, hsame.sends, hsame.outLen, hsame.count⟩ (fun hnil => absurd hnil hcode)
    ?_ ?_ ?_
  · intro j hj
    cases app with
    | echo =>
      simp only [ClientContext.exec, List.mem_cons, List.not_mem_nil, or_false] at hj
      rcases hj with rfl | rfl
      · exact hlen
      · trivial
    | http w =>
      obtain rfl := List.mem_singleton.mp hj
      exact fun hno => by cases hno
  · cases app <;> rfl
  · cases app <;> rfl

theorem closeClient (ok : Bool) (h : Goes cl cl' .closeClient code (cl.exec app ok .closeClient).2 pre post)
    (hsame : Same (cl.exec app ok .closeClient).1 cl') (hcl : Active app tight cl) (hcode : code ≠ []) :
    Active app tight cl' := by
  cases hs : cl.m_socket with
  | none =>
    simp only [ClientContext.exec, hs] at h hsame
    exact h.middle hcl hsame (fun _ hne => absurd rfl hne) (by simp) rfl rfl
  | some s =>
    simp only [ClientContext.exec, hs] at h hsame
    refine h.middle hcl ⟨hsame.recvs, hsame.sends, hsame.outLen, hsame.count⟩
      (fun hnil => absurd hnil hcode) ?_ rfl rfl
    intro j hj
    rw [List.mem_singleton.mp hj]
    trivial

theorem busy_eq_one (h : Goes cl cl' instr code more pre post) (hcl : Active app tight cl)
    (howns : instr.ownsSend) : cl.busy = 1 := by
  have hle := cl.busy_le
  have hsend := hcl.balanced.send
  have hone : 1 ≤ cl.sendRefs := by
    rw [ClientContext.sendRefs, h.before]
    simp only [List.flatten_append, List.flatten_cons, sendIn_append, sendIn_cons, howns, if_true]
    omega
  omega

theorem handleSend (ok : Bool) {n : ℕ}
    (h : Goes cl cl' (.handleSend n) code (cl.exec app ok (.handleSend n)).2 pre post)
    (hsame : Same (cl.exec app ok (.handleSend n)).1 cl') (hcl : Active app tight cl)
    (hqueue : ∀ n ∈ cl.m_outBufQueue, 0 < n) : Active app tight cl' ∨ Leaving cl' := by
  have hbusy := h.busy_eq_one hcl rfl
  rcases ClientContext.exec_handleSend app hqueue ok n with ⟨len, rest, hlen, -, hexec⟩ | hexec
  · -- The reference goes over to the next `WSASend`.
    rw [hexec] at h hsame
    have hbusy' : cl'.busy = 1 := hsame.busy.trans (if_neg (Nat.ne_of_lt hlen))
    refine .inl (h.keep hcl (fun _ _ => ⟨[], .postSend, rfl, .inr rfl⟩) ?_ (congrArg (· + 0) hsame.recvs)
      (congrArg (List.length · + 1) hsame.sends) (hbusy'.trans hbusy.symm) hsame.count)
    intro j hj
    rw [List.mem_singleton.mp hj]
    trivial
  · rw [hexec] at h hsame
    have hbusy' : cl'.busy = 0 := hsame.busy
    exact h.release hcl hsame.count rfl rfl hsame.recvs hsame.sends (.inr ⟨hbusy', hbusy, rfl⟩)

end Goes

namespace Active
variable {app : App} {tight : Prop} {cl : ClientContext}

theorem exec (h : Active app tight cl) (hqueue : ∀ n ∈ cl.m_outBufQueue, 0 < n) {i : ℕ} {instr : Instr}
    {code : Code} (hi : cl.running[i]? = some (instr :: code)) (ok : Bool) (hsmooth : Smooth tight cl instr)
    {cl' : ClientContext} (hcl' : cl' = { (cl.exec app ok instr).1 with
      running := resume cl.running i ((cl.exec app ok instr).2 ++ code) }) :
    Active app tight cl' ∨ Leaving cl' := by
  obtain ⟨pre, post, hrun, hres⟩ := resume_split hi
  have hgo {cl₁ : ClientContext} {more : Code} (hexec : cl.exec app ok instr = (cl₁, more)) :
      Goes cl cl' instr code more pre post ∧ Same cl₁ cl' := by
    rw [hcl', hexec]
    exact ⟨⟨hrun, hres _⟩, ⟨rfl, rfl, rfl, rfl⟩⟩
  have hmem : instr :: code ∈ cl.running := (hgo rfl).1.mem
  have hwork : Working app instr := h.working _ hmem instr List.mem_cons_self
  have hmiddle : instr.ownsRecv = false → instr.ownsSend = false → code ≠ [] := fun hr hs hnil => by
    rcases (h.carries _ hmem).tail with ⟨pre, j, hpre, -⟩ | ⟨-, howns⟩
    · simp [hnil] at hpre
    · simp [hr, hs] at howns
  cases instr with
  -- A handler of a context in use has none of the first five in front of it.
  | associate => exact hwork.elim
  | enterIoLoop => exact hwork.elim
  | postAccept => exact hwork.elim
  | addClient => exact hwork.elim
  | removeClient => exact hwork.elim
  | postRecv =>
    left
    rcases cl.exec_postRecv app ok with hexec | hexec
    · obtain ⟨hgo, hsame⟩ := hgo hexec
      exact hgo.keep h (fun _ hne => absurd rfl hne) (by simp) hsame.recvs
        (congrArg List.length hsame.sends) hsame.busy hsame.count
    · obtain ⟨hgo, hsame⟩ := hgo hexec
      exact hgo.middle h hsame (fun _ _ => carries_closeAndRelease (by decide))
        (working_closeAndRelease (by decide) app) rfl rfl
  | receive d =>
    obtain ⟨hgo, hsame⟩ := hgo rfl
    exact .inl (hgo.receive ok hsame h (hmiddle rfl rfl) hwork)
  | decode w size codec =>
    left
    obtain ⟨hgo, hsame⟩ := hgo rfl
    have hret := hsmooth.decode w size codec rfl
    obtain ⟨hr, hs⟩ := owns_reply w size hret
    exact hgo.middle h hsame (fun hnil => absurd hnil (hmiddle rfl rfl)) (working_reply hret hwork) hr hs
  | send len =>
    left
    by_cases hout : 0 = cl.outLen
    · obtain ⟨hgo, hsame⟩ := hgo (if_pos hout)
      exact hgo.firstSend h hout hwork hsame rfl rfl
    · obtain ⟨hgo, hsame⟩ := hgo (if_neg hout)
      exact hgo.middle h ⟨hsame.recvs, hsame.sends, hsame.outLen, hsame.count⟩
        (fun hnil => absurd hnil (hmiddle rfl rfl)) (by simp) rfl rfl
  | removeAll =>
    left
    obtain ⟨hgo, hsame⟩ := hgo rfl
    exact hgo.middle h ⟨hsame.recvs, hsame.sends, hsame.outLen, hsame.count⟩
      (fun hnil => absurd hnil (hmiddle rfl rfl)) (by simp) rfl rfl
  | postSend =>
    left
    rcases cl.exec_postSend app ok with hexec | hexec | ⟨hs, hexec⟩
    · obtain ⟨hgo, hsame⟩ := hgo hexec
      exact hgo.keep h (fun _ hne => absurd rfl hne) (by simp) hsame.recvs
        (by rw [hsame.sends, List.length_append]; rfl) hsame.busy hsame.count
    · obtain ⟨hgo, hsame⟩ := hgo hexec
      exact hgo.middle h hsame (fun _ _ => carries_closeAndRelease (by decide))
        (working_closeAndRelease (by decide) app) rfl rfl
    · -- The socket is closed, so the reference of the sends is lost.
      obtain ⟨hgo, hsame⟩ := hgo hexec
      refine hgo.lose h hsame rfl rfl fun ht => ?_
      have hsome := hsmooth.post ht rfl
      rw [hs] at hsome
      cases hsome
  | handleSend n =>
    obtain ⟨hgo, hsame⟩ := hgo rfl
    exact hgo.handleSend ok hsame h hqueue
  | closeClient =>
    obtain ⟨hgo, hsame⟩ := hgo rfl
    exact .inl (hgo.closeClient ok hsame h (hmiddle rfl rfl))
  | closesocket s =>
    left
    obtain ⟨hgo, hsame⟩ := hgo rfl
    exact hgo.middle h hsame (fun _ hne => absurd rfl hne) (by simp) rfl rfl
  | exitIoLoop of =>
    obtain ⟨hgo, hsame⟩ := hgo rfl
    refine hgo.release h hsame.count rfl ?_ hsame.recvs hsame.sends (.inl hsame.busy)
    cases of with
    | stray => exact hwork.elim
    | recv => rfl
    | send => rfl

theorem take (h : Active app tight cl) {cl' : ClientContext} {code : Code}
    (hrun : cl'.running = cl.running ++ [code]) (hcarries : Carries code)
    (hwork : ∀ i ∈ code, Working app i) (hrecvs : cl'.recvs + recvIn code = cl.recvs)
    (hsends : cl'.sends.length + sendIn code = cl.sends.length) (hbusy : cl'.busy = cl.busy)
    (hcount : cl'.m_nPendingIoCnt = cl.m_nPendingIoCnt) : Active app tight cl' := by
  have hr : cl'.recvRefs = cl.recvRefs := by
    rw [ClientContext.recvRefs, ClientContext.recvRefs, hrun, ← hrecvs]
    simp only [List.flatten_append, List.flatten_cons, List.flatten_nil, List.append_nil, recvIn_append]
    omega
  have hs : cl'.sendRefs = cl.sendRefs := by
    rw [ClientContext.sendRefs, ClientContext.sendRefs, hrun, ← hsends]
    simp only [List.flatten_append, List.flatten_cons, List.flatten_nil, List.append_nil, sendIn_append]
    omega
  refine ⟨fun c hc => ?_, fun c hc => ?_, by rw [hr, hs, hbusy, hcount]; exact h.balanced,
    by rw [hcount]; exact h.pos⟩
  all_goals
    rw [hrun, List.mem_append, List.mem_singleton] at hc
    rcases hc with hc | rfl
  · exact h.carries c hc
  · exact hcarries
  · exact h.working c hc
  · exact hwork

theorem joined (app : App) (tight : Prop) (hrun : cl.running = [[.postRecv]]) (hrecvs : cl.recvs = 0)
    (hsends : cl.sends = []) (hcount : cl.m_nPendingIoCnt = 1) : Active app tight cl := by
  have hr : cl.recvRefs = 1 := by rw [ClientContext.recvRefs, hrun, hrecvs]; rfl
  have hs : cl.sendRefs = 0 := by rw [ClientContext.sendRefs, hrun, hsends]; rfl
  refine ⟨fun code hcode => ?_, fun code hcode i hi => ?_, ?_, by omega⟩
  · rw [hrun] at hcode
    rw [List.mem_singleton.mp hcode]
    exact ⟨[], .postRecv, rfl, .inl rfl⟩
  · rw [hrun] at hcode
    rw [List.mem_singleton.mp hcode] at hi
    rw [List.mem_singleton.mp hi]
    trivial
  · rw [hr, hs, hcount]
    exact ⟨le_rfl, Nat.zero_le _, le_rfl, Nat.le_add_right .., fun _ => rfl⟩

end Active
end NetDemo.Server
