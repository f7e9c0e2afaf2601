import NetDemo.Http.Verdict
import NetDemo.Server.Handler

/-! Which answers of `tryDecode` leave `notifyPackageReceived` a response to send. -/

namespace NetDemo.Server
open Foundation Http HttpCodec

def statusLine (st : StatusType) : Bytes :=
  ascii "HTTP/1.1" ++ ascii " " ++ ascii (toString st.code) ++ ascii "\r\n"

/-- The status is set, and the output is a response with this status. -/
def Responds (codec : HttpCodec) : Prop :=
  ∃ st, codec.m_status = some st ∧ codec.responseMessage ≠ [] ∧
    statusLine st <+: codec.responseMessage ∧
    (st ≠ .ok → ascii "Connection: close\r\n" <:+: codec.responseMessage)

/-- What the first round of the loop owes to the client that sent the bytes `d`. -/
structure Answered (w : ℕ) (d : Bytes) : Prop where
  responds : (tryDecode w .new d).1 ≠ 0 → Responds (tryDecode w .new d).2
  sends : Instr.send 0 ∉
    ClientContext.reply w d.length (tryDecode w .new d).1 (tryDecode w .new d).2

/-- A complete header block that is not empty passes all checks, and a `POST` is waited for. -/
def Answerable (w : ℕ) (d : Bytes) : Prop :=
  ∀ i, getHeader d = some i → 0 < i → ∃ kvs, (new.scanned i).Passes (d.take i) kvs ∧
    (ascii "GET" ≠ (Slice.eatWord (firstLine (d.take i))).1 →
      (d.length : ℤ) < awaited w ((new.scanned i).parsed (d.take i) kvs))

theorem not_responds {codec : HttpCodec} (h : codec.m_outBuf = []) : ¬ Responds codec := by
  rintro ⟨st, -, hne, -⟩
  exact hne h

theorem responds_writeResponse (c : HttpCodec) : Responds c.writeResponse :=
  ⟨.ok, rfl, okResponse_ne, ⟨_, (List.append_assoc ..).symm.trans (List.append_assoc ..).symm⟩,
    fun h => absurd rfl h⟩

theorem send_zero_notMem_reply {codec : HttpCodec} (h : codec.responseMessage ≠ []) (w size : ℕ)
    (ret : ℤ) : Instr.send 0 ∉ ClientContext.reply w size ret codec := by
  have hlen : codec.responseMessage.length ≠ 0 := fun h0 => h (List.eq_nil_of_length_eq_zero h0)
  intro hmem
  simp only [ClientContext.reply, List.mem_append] at hmem
  rcases hmem with (hmem | hmem) | hmem
  · split_ifs at hmem
    · have h0 : 0 = codec.responseMessage.length := by simpa using hmem
      exact hlen h0.symm
    · cases hmem
  · split_ifs at hmem
    · simp [ClientContext.closeAndRelease] at hmem
    · cases hmem
  · split_ifs at hmem
    · simp at hmem
    · cases hmem

theorem answered_of_wait {w : ℕ} {d : Bytes} (hret : (tryDecode w .new d).1 = 0) : Answered w d := by
  refine ⟨fun h => absurd hret h, ?_⟩
  rw [hret]
  simp [ClientContext.reply]

theorem not_answered_of_outBuf {w : ℕ} {d : Bytes} (hret : (tryDecode w .new d).1 = -1)
    (hout : (tryDecode w .new d).2.m_outBuf = []) : ¬ Answered w d := by
  intro h
  refine not_responds hout (h.responds ?_)
  rw [hret]
  decide

theorem answerable_iff_of_passes {w : ℕ} {d : Bytes} {i : ℕ} {kvs : Headers} (hi : getHeader d = some i)
    (h0 : 0 < i) (hp : (new.scanned i).Passes (d.take i) kvs) : Answerable w d ↔
      (ascii "GET" ≠ ((new.scanned i).parsed (d.take i) kvs).m_req.m_method →
        (d.length : ℤ) < awaited w ((new.scanned i).parsed (d.take i) kvs)) := by
  constructor
  · intro h
    obtain ⟨kvs', hp', hwait⟩ := h i hi h0
    rwa [hp'.unique hp] at hwait
  · intro h j hj _
    obtain rfl := Option.some.inj (hi.symm.trans hj)
    exact ⟨kvs, hp, h⟩

/-- The first round of `notifyPackageReceived` answers what it decides, and sends no message without
bytes, just when the header block is not refused and the bytes are not a complete `POST`. -/
theorem answered_iff {w : ℕ} {d : Bytes} : Answered w d ↔ Answerable w d := by
  rcases tryDecode_verdict w .new d with ⟨hnone, hret, -⟩ | ⟨i, hi, h0, hno, hret, hrefusal⟩ |
      ⟨i, kvs, hi, h0, hp, heq⟩
  · exact iff_of_true (answered_of_wait hret) fun i hi h0 => absurd (hnone i hi) (Nat.ne_of_gt h0)
  · refine iff_of_false (not_answered_of_outBuf hret hrefusal.outBuf) fun h => ?_
    obtain ⟨kvs, hkvs, -⟩ := h i hi h0
    exact hno kvs hkvs
  rw [answerable_iff_of_passes hi h0 hp]
  by_cases hwait : (d.length : ℤ) < awaited w ((new.scanned i).parsed (d.take i) kvs)
  · exact iff_of_true (answered_of_wait (by rw [heq, finish_eq, if_pos hwait])) fun _ => hwait
  have hfin := heq.trans (finish_of_le (not_lt.mp hwait))
  by_cases hget : ascii "GET" = ((new.scanned i).parsed (d.take i) kvs).m_req.m_method
  · rw [if_pos hget] at hfin
    refine iff_of_true ⟨fun _ => ?_, ?_⟩ fun h => absurd hget h
    · rw [hfin]
      exact responds_writeResponse _
    · rw [hfin]
      apply send_zero_notMem_reply
      exact okResponse_ne
  · -- A complete `POST` ends with -1, no status and no output.
    rw [if_neg hget] at hfin
    refine iff_of_false (not_answered_of_outBuf ?_ ?_) fun h => hwait (h hget)
    · exact congrArg Prod.fst hfin
    · exact congrArg (fun r => r.2.m_outBuf) hfin

theorem not_answered_line : (tryDecode 64 .new (ascii "X\r\n\r\n")).1 ≠ 0 ∧
    ¬ Responds (tryDecode 64 .new (ascii "X\r\n\r\n")).2 ∧
    Instr.send 0 ∈ ClientContext.reply 64 5 (tryDecode 64 .new (ascii "X\r\n\r\n")).1
      (tryDecode 64 .new (ascii "X\r\n\r\n")).2 :=
  ⟨by decide, not_responds rfl, by decide⟩

theorem send_zero_notMem_reply_again {w : ℕ} {codec : HttpCodec} (h : codec.responseMessage ≠ [])
    (size : ℕ) (d : Bytes) :
    Instr.send 0 ∉ ClientContext.reply w size (tryDecode w codec d).1 (tryDecode w codec d).2 := by
  apply send_zero_notMem_reply
  rcases tryDecode_outBuf w codec d with hout | hout
  · rw [HttpCodec.responseMessage, hout]
    exact h
  · rw [HttpCodec.responseMessage, hout]
    exact okResponse_ne

end NetDemo.Server
