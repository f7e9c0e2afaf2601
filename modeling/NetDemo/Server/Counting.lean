import NetDemo.Server.Step
import NetDemo.Http.Verdict

/-! How `m_nPendingIoCnt` counts the references to one context: one for the chain of receives and
one for the chain of sends. -/

namespace NetDemo.Server
open Foundation Memory Http Client

/-- The handler has the reference of the receives until it comes to this instruction. -/
def Instr.ownsRecv : Instr → Bool
  | .postRecv | .exitIoLoop .recv => true
  | _ => false

/-- The handler has the reference of the sends until it comes to this instruction. -/
def Instr.ownsSend : Instr → Bool
  | .postSend | .handleSend _ | .exitIoLoop .send => true
  | _ => false

def recvIn (code : Code) : ℕ := code.countP Instr.ownsRecv

def sendIn (code : Code) : ℕ := code.countP Instr.ownsSend

@[simp] theorem recvIn_nil : recvIn [] = 0 := rfl

@[simp] theorem sendIn_nil : sendIn [] = 0 := rfl

@[simp] theorem recvIn_cons (i : Instr) (code : Code) :
    recvIn (i :: code) = recvIn code + if i.ownsRecv then 1 else 0 := List.countP_cons ..

@[simp] theorem sendIn_cons (i : Instr) (code : Code) :
    sendIn (i :: code) = sendIn code + if i.ownsSend then 1 else 0 := List.countP_cons ..

@[simp] theorem recvIn_append (c d : Code) : recvIn (c ++ d) = recvIn c + recvIn d := List.countP_append ..

@[simp] theorem sendIn_append (c d : Code) : sendIn (c ++ d) = sendIn c + sendIn d := List.countP_append ..

/-- The last instruction passes a reference on or gives it back. -/
def Carries (code : Code) : Prop := ∃ pre i, code = pre ++ [i] ∧ (i.ownsRecv ∨ i.ownsSend)

theorem Carries.pos {code : Code} (h : Carries code) : 0 < recvIn code + sendIn code := by
  obtain ⟨pre, i, rfl, hi⟩ := h
  rcases hi with hi | hi
  · simp only [recvIn_append, recvIn_cons, hi, if_true]
    omega
  · simp only [sendIn_append, sendIn_cons, hi, if_true]
    omega

theorem Carries.append {code : Code} (h : Carries code) (more : Code) : Carries (more ++ code) := by
  obtain ⟨pre, i, rfl, hi⟩ := h
  exact ⟨more ++ pre, i, (List.append_assoc ..).symm, hi⟩

theorem Carries.tail {i : Instr} {code : Code} (h : Carries (i :: code)) :
    Carries code ∨ code = [] ∧ (i.ownsRecv ∨ i.ownsSend) := by
  obtain ⟨pre, j, hcode, hj⟩ := h
  cases pre with
  | nil =>
    obtain ⟨rfl, rfl⟩ := List.cons.inj hcode
    exact .inr ⟨rfl, hj⟩
  | cons i' pre =>
    obtain ⟨-, rfl⟩ := List.cons.inj hcode
    exact .inl ⟨pre, j, rfl, hj⟩

theorem eq_nil_of_refs {running : List Code} (h : ∀ code ∈ running, Carries code)
    (h0 : recvIn running.flatten + sendIn running.flatten = 0) : running = [] := by
  cases running with
  | nil => rfl
  | cons code rest =>
    have := (h code List.mem_cons_self).pos
    simp only [List.flatten_cons, recvIn_append, sendIn_append] at h0
    omega

theorem resume_split {running : List Code} {i : ℕ} {code : Code} (h : running[i]? = some code) :
    ∃ pre post, running = pre ++ code :: post ∧
      ∀ code', resume running i code' = pre ++ (if code' = [] then [] else [code']) ++ post := by
  obtain ⟨hi, rfl⟩ := List.getElem?_eq_some_iff.mp h
  refine ⟨running.take i, running.drop (i + 1), ?_, fun code' => ?_⟩
  · rw [List.getElem_cons_drop hi, List.take_append_drop]
  · unfold resume
    split_ifs
    · rw [List.eraseIdx_eq_take_drop_succ, List.append_nil]
    · rw [List.set_eq_take_append_cons_drop, if_pos hi, List.append_assoc]
      rfl

namespace ClientContext

/-- References of the receives: calls in flight, and handlers that did not pass theirs on yet. -/
def recvRefs (cl : ClientContext) : ℕ := cl.recvs + recvIn cl.running.flatten

def sendRefs (cl : ClientContext) : ℕ := cl.sends.length + sendIn cl.running.flatten

def overlapped (cl : ClientContext) : ℕ := cl.recvRefs + cl.sendRefs

/-- Whether there is something in `m_outBuf`. -/
def busy (cl : ClientContext) : ℕ := if 0 = cl.outLen then 0 else 1

theorem busy_le (cl : ClientContext) : cl.busy ≤ 1 := by
  unfold busy
  split_ifs <;> omega

end ClientContext

/-- What a handler does on a context that is in use. -/
def Working (app : App) : Instr → Prop
  | .associate | .enterIoLoop | .postAccept | .addClient | .removeClient | .exitIoLoop .stray => False
  | .receive m_recvBuf => m_recvBuf ≠ []
  | .send len => 0 < len
  | .decode .. => app ≠ .echo
  | _ => True

/-- The counter `n` of a context with `r` and `s` references, where `b` tells whether there is
something in `m_outBuf`. It is `tight` when no reference was lost. -/
structure Balanced (tight : Prop) (r s b n : ℕ) : Prop where
  recv : r ≤ 1
  send : s ≤ b
  low : r + s ≤ n
  high : n ≤ r + b
  exact : tight → r + s = n

/-- A context in use. -/
structure Active (app : App) (tight : Prop) (cl : ClientContext) : Prop where
  carries : ∀ code ∈ cl.running, Carries code
  working : ∀ code ∈ cl.running, ∀ i ∈ code, Working app i
  balanced : Balanced tight cl.recvRefs cl.sendRefs cl.busy cl.m_nPendingIoCnt
  pos : 0 < cl.m_nPendingIoCnt

/-- A context whose last reference was given back, and that is about to be put on the free list. -/
structure Leaving (cl : ClientContext) : Prop where
  running : cl.running = [[.removeClient]]
  recvs : cl.recvs = 0
  sends : cl.sends = []
  count : cl.m_nPendingIoCnt = 0

/-! ### One instruction -/

/-- One handler of `cl` went on from `instr :: code`, and `more` came before the rest of it. -/
structure Goes (cl cl' : ClientContext) (instr : Instr) (code more : Code) (pre post : List Code) : Prop where
  before : cl.running = pre ++ (instr :: code) :: post
  after : cl'.running = pre ++ (if more ++ code = [] then [] else [more ++ code]) ++ post

namespace Goes
variable {cl cl' : ClientContext} {instr : Instr} {code more : Code} {pre post : List Code}

theorem recvRefs (h : Goes cl cl' instr code more pre post) :
    cl'.recvRefs + (cl.recvs + recvIn [instr]) = cl.recvRefs + (cl'.recvs + recvIn more) := by
  have hflat : recvIn (if more ++ code = [] then [] else [more ++ code]).flatten = recvIn more + recvIn code := by
    split_ifs with hnil
    · obtain ⟨rfl, rfl⟩ := List.append_eq_nil_iff.mp hnil
      rfl
    · simp
  simp only [ClientContext.recvRefs, h.before, h.after, List.flatten_append, List.flatten_cons, recvIn_append,
    recvIn_cons, recvIn_nil, hflat]
  omega

theorem sendRefs (h : Goes cl cl' instr code more pre post) :
    cl'.sendRefs + (cl.sends.length + sendIn [instr]) = cl.sendRefs + (cl'.sends.length + sendIn more) := by
  have hflat : sendIn (if more ++ code = [] then [] else [more ++ code]).flatten = sendIn more + sendIn code := by
    split_ifs with hnil
    · obtain ⟨rfl, rfl⟩ := List.append_eq_nil_iff.mp hnil
      rfl
    · simp
  simp only [ClientContext.sendRefs, h.before, h.after, List.flatten_append, List.flatten_cons, sendIn_append,
    sendIn_cons, sendIn_nil, hflat]
  omega

variable {app : App} {tight : Prop}

theorem mem (h : Goes cl cl' instr code more pre post) : instr :: code ∈ cl.running := by
  rw [h.before]
  exact List.mem_append_right _ List.mem_cons_self

theorem cases_mem (h : Goes cl cl' instr code more pre post) {c : Code} (hc : c ∈ cl'.running) :
    c ∈ cl.running ∨ c = more ++ code ∧ c ≠ [] := by
  rw [h.after] at hc
  rcases List.mem_append.mp hc with hc | hc
  · rcases List.mem_append.mp hc with hc | hc
    · exact .inl (by rw [h.before]; exact List.mem_append_left _ hc)
    · split_ifs at hc with hnil
      · cases hc
      · obtain rfl := List.mem_singleton.mp hc
        exact .inr ⟨rfl, hnil⟩
  · exact .inl (by rw [h.before]; exact List.mem_append_right _ (List.mem_cons_of_mem _ hc))

theorem active (h : Goes cl cl' instr code more pre post) (hcl : Active app tight cl)
    (hmore : code = [] → more ≠ [] → Carries more) (hwork : ∀ i ∈ more, Working app i)
    (hbalanced : Balanced tight cl'.recvRefs cl'.sendRefs cl'.busy cl'.m_nPendingIoCnt)
    (hpos : 0 < cl'.m_nPendingIoCnt) : Active app tight cl' where
  carries c hc := by
    rcases h.cases_mem hc with hc | ⟨rfl, hne⟩
    · exact hcl.carries c hc
    · rcases (hcl.carries _ h.mem).tail with htail | ⟨rfl, -⟩
      · exact htail.append more
      · rw [List.append_nil] at hne ⊢
        exact hmore rfl hne
  working c hc i hi := by
    rcases h.cases_mem hc with hc | ⟨rfl, -⟩
    · exact hcl.working c hc i hi
    · rcases List.mem_append.mp hi with hi | hi
      · exact hwork i hi
      · exact hcl.working _ h.mem i (List.mem_cons_of_mem _ hi)
  balanced := hbalanced
  pos := hpos

theorem keep (h : Goes cl cl' instr code more pre post) (hcl : Active app tight cl)
    (hmore : code = [] → more ≠ [] → Carries more) (hwork : ∀ i ∈ more, Working app i)
    (hrecvs : cl'.recvs + recvIn more = cl.recvs + recvIn [instr])
    (hsends : cl'.sends.length + sendIn more = cl.sends.length + sendIn [instr])
    (hbusy : cl'.busy = cl.busy) (hcount : cl'.m_nPendingIoCnt = cl.m_nPendingIoCnt) :
    Active app tight cl' := by
  have hr := h.recvRefs
  have hs := h.sendRefs
  refine h.active hcl hmore hwork ?_ (by rw [hcount]; exact hcl.pos)
  have hrecv : cl'.recvRefs = cl.recvRefs := by omega
  have hsend : cl'.sendRefs = cl.sendRefs := by omega
  rw [hrecv, hsend, hbusy, hcount]
  exact hcl.balanced

theorem release (h : Goes cl cl' instr code more pre post) (hcl : Active app tight cl)
    (hcount : cl'.m_nPendingIoCnt = cl.countDown)
    (hmore : more = if int32 cl.countDown ≤ 0 then [.removeClient] else [])
    (howns : recvIn [instr] + sendIn [instr] = 1) (hrecvs : cl'.recvs = cl.recvs) (hsends : cl'.sends = cl.sends)
    (hbusy : cl'.busy = cl.busy ∨ cl'.busy = 0 ∧ cl.busy = 1 ∧ sendIn [instr] = 1) :
    Active app tight cl' ∨ Leaving cl' := by
  obtain ⟨hrecv, hsend, hlow, hhigh, hexact⟩ := hcl.balanced
  have hpos := hcl.pos
  have hle := cl.busy_le
  have hdown : cl.countDown = cl.m_nPendingIoCnt - 1 := if_neg (by omega)
  have hint : int32 cl.countDown = cl.m_nPendingIoCnt - 1 := by
    rw [hdown, int32_of_lt (by omega)]
    omega
  have hr := h.recvRefs
  have hs := h.sendRefs
  rw [hdown] at hcount
  rw [hint] at hmore
  by_cases hone : cl.m_nPendingIoCnt = 1
  · -- No reference is left, and every handler has one until its end.
    right
    rw [if_pos (by omega)] at hmore
    subst hmore
    rw [show recvIn [Instr.removeClient] = 0 from rfl] at hr
    rw [show sendIn [Instr.removeClient] = 0 from rfl, hsends] at hs
    have hrefs : cl'.recvRefs + cl'.sendRefs = 0 := by omega
    simp only [ClientContext.recvRefs, ClientContext.sendRefs, h.after, List.flatten_append, recvIn_append,
      sendIn_append] at hrefs
    have hpre : pre = [] := eq_nil_of_refs
      (fun c hc => hcl.carries c (by rw [h.before]; exact List.mem_append_left _ hc)) (by omega)
    have hpost : post = [] := eq_nil_of_refs
      (fun c hc => hcl.carries c (by
        rw [h.before]
        exact List.mem_append_right _ (List.mem_cons_of_mem _ hc))) (by omega)
    have hcode : code = [] := by
      rcases (hcl.carries _ h.mem).tail with htail | ⟨rfl, -⟩
      · have := htail.pos
        simp at hrefs
        omega
      · rfl
    refine ⟨by simp [h.after, hpre, hpost, hcode], by omega, List.eq_nil_of_length_eq_zero (by omega), by omega⟩
  · left
    rw [if_neg (by omega)] at hmore
    subst hmore
    simp only [recvIn_nil, sendIn_nil] at hr hs
    rw [hsends] at hs
    refine h.active hcl (fun _ hne => absurd rfl hne) (by simp) ⟨?_, ?_, ?_, ?_, fun ht => ?_⟩ (by omega)
    · omega
    · omega
    · omega
    · omega
    · have := hexact ht
      omega

end Goes
end NetDemo.Server
