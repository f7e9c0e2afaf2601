import NetDemo.Client.HttpView
import NetDemo.Http.Request

/-! When the loop of `notifyPackageReceived` ends. Its codec keeps looking at the first cells of the
block, where `Buffer::remove` leaves what stood behind the live bytes. -/

namespace NetDemo.Client
open Foundation Memory Http

namespace View

def accepted (net : ℕ → Bool) : View UInt8 := (View.new net).modify Link.handleAccept

/-- What the codec sees once all live bytes are removed. -/
def window (v : Cells UInt8) : Bytes := (v.mem.drop v.len ++ v.mem.drop (v.cap - v.len)).take v.len

/-- The live bytes are a request, and so is what the codec sees after they are removed. -/
def Repeats (w : ℕ) (v : Cells UInt8) : Prop :=
  v.len < 2 ^ 31 ∧ ∃ i kvs, getHeader v.live = some i ∧ 0 < i ∧
    HttpCodec.Accepts w [] v.live (v.live.take i) kvs ∧
    HttpCodec.Answers w (Headers.insertAll [] kvs) (window v)

theorem length_window (v : Cells UInt8) : (window v).length = v.len := by
  have h := v.len_le_cap
  simp only [window, List.length_take, List.length_append, List.length_drop, Cells.cap] at h ⊢
  omega

theorem inBuf_reply (x : View UInt8) (codec : HttpCodec) (ret : ℤ) :
    (x.reply codec ret).inBuf = x.inBuf.remove x.inBuf.len := by
  simp only [reply, sent_inBuf]
  split_ifs <;> rfl

theorem inBuf_round {w size : ℕ} {codec : HttpCodec} {x : View UInt8}
    (h : 0 < (x.round w size codec).1) :
    (x.round w size codec).2.2.inBuf = x.inBuf.remove x.inBuf.len := by
  rw [round_pos h, inBuf_reply]

theorem requestLoop_last {w size fuel : ℕ} {codec : HttpCodec} {x : View UInt8}
    (h : (x.round w size codec).1 ≤ 0) :
    x.requestLoop w size (fuel + 1) codec = some (x.round w size codec).2.2 := by
  simp only [requestLoop, if_neg (Int.not_lt.mpr h)]

theorem requestLoop_more {w size fuel : ℕ} {codec : HttpCodec} {x : View UInt8}
    (h : 0 < (x.round w size codec).1) : x.requestLoop w size (fuel + 1) codec =
      (x.round w size codec).2.2.requestLoop w size fuel (x.round w size codec).2.1 := by
  simp only [requestLoop, if_pos h]

/-- On an empty `Buffer` every round finds the bytes that the round before it found. -/
theorem requestLoop_stuck {w size : ℕ} {codec : HttpCodec} {x : View UInt8} (h0 : x.inBuf.len = 0)
    (h : 0 < (x.round w size codec).1) (fuel : ℕ) : x.requestLoop w size fuel codec = none := by
  induction fuel generalizing codec x with
  | zero => rfl
  | succ fuel ih =>
    have hin : (x.round w size codec).2.2.inBuf = x.inBuf := by
      rw [inBuf_round h, Cells.remove_len]
      ext1
      · simp [Cells.shift, h0, Cells.cap]
      · simp [Cells.shift, h0]
    rw [requestLoop_more h]
    apply ih (by rw [hin, h0])
    rw [round_ret, hin, round_codec]
    exact HttpCodec.tryDecode_answered h

theorem requestLoop_second {w : ℕ} {x : View UInt8}
    (h : 0 < (x.round w x.inBuf.len HttpCodec.new).1) :
    (∃ fuel x', x.notifyPackageReceived w fuel = some x') ↔
      ((x.round w x.inBuf.len HttpCodec.new).2.1.tryDecode w (window x.inBuf)).1 ≤ 0 := by
  have hin : (x.round w x.inBuf.len HttpCodec.new).2.2.inBuf = x.inBuf.shift x.inBuf.len le_rfl := by
    rw [inBuf_round h, Cells.remove_len]
  have hret : ((x.round w x.inBuf.len HttpCodec.new).2.2.round w x.inBuf.len
      (x.round w x.inBuf.len HttpCodec.new).2.1).1 =
        ((x.round w x.inBuf.len HttpCodec.new).2.1.tryDecode w (window x.inBuf)).1 := by
    rw [round_ret, hin]
    rfl
  constructor
  · rintro ⟨fuel, x', hx'⟩
    by_contra hpos
    cases fuel with
    | zero => cases hx'
    | succ fuel =>
      rw [notifyPackageReceived, requestLoop_more h, requestLoop_stuck] at hx'
      · cases hx'
      · rw [hin]
        exact Nat.sub_self _
      · omega
  · intro hle
    exact ⟨2, _, (requestLoop_more h).trans (requestLoop_last (by omega))⟩

/-- The loop ends just when it does not find a request twice. -/
theorem requestLoop_ends_iff (w : ℕ) (x : View UInt8) (hsmall : x.inBuf.cap < 2 ^ 32) :
    (∃ fuel x', x.notifyPackageReceived w fuel = some x') ↔ ¬ Repeats w x.inBuf := by
  have hlc := x.inBuf.len_le_cap
  have hlen := x.inBuf.length_live
  have hwin := length_window x.inBuf
  have hfirst : (x.round w x.inBuf.len HttpCodec.new).1 = (HttpCodec.new.tryDecode w x.inBuf.live).1 := rfl
  have hcodec : (x.round w x.inBuf.len HttpCodec.new).2.1 = (HttpCodec.new.tryDecode w x.inBuf.live).2 := rfl
  by_cases h : 0 < (x.round w x.inBuf.len HttpCodec.new).1
  · rw [requestLoop_second h, hcodec]
    rw [hfirst, HttpCodec.tryDecode_pos_iff (by omega)] at h
    obtain ⟨hlt, i, kvs, hi, h0, ha⟩ := h
    rw [HttpCodec.tryDecode_of_accepts hi h0 ha, ← Int.not_lt, HttpCodec.tryDecode_pos_iff (by omega)]
    refine not_congr ⟨fun h₂ => ⟨by omega, i, kvs, hi, h0, ha, h₂⟩, ?_⟩
    rintro ⟨-, j, kvs', hj, -, ha', h₂⟩
    obtain rfl := Option.some.inj (hi.symm.trans hj)
    obtain rfl := Option.some.inj (ha.fields.symm.trans ha'.fields)
    exact h₂
  · refine iff_of_true ⟨1, _, requestLoop_last (by omega)⟩ ?_
    rintro ⟨hlt, i, kvs, hi, h0, ha, -⟩
    rw [hfirst, HttpCodec.tryDecode_pos_iff (by omega)] at h
    exact h ⟨by omega, i, kvs, hi, h0, ha⟩

theorem window_full {v : Cells UInt8} (h : v.len = v.cap) : window v = v.live := by
  have hdrop : v.mem.drop v.len = [] := List.drop_of_length_le h.ge
  rw [window, hdrop, h, Nat.sub_self, List.nil_append, List.drop_zero, Cells.live, h]

theorem repeats_of_full {w : ℕ} {v : Cells UInt8} (h : v.len = v.cap)
    (ha : HttpCodec.Answers w [] v.live) : Repeats w v := by
  obtain ⟨hlt, i, kvs, hi, h0, ha⟩ := ha
  refine ⟨by rwa [v.length_live] at hlt, i, kvs, hi, h0, ha, ?_⟩
  rw [window_full h]
  exact ⟨hlt, i, kvs, hi, h0, ha.again⟩

end View

theorem Holds.accepted (net : ℕ → Bool) : Holds none (ClientContext.accepted net) (View.accepted net) :=
  (Holds.new net).modify Link.handleAccept

theorem Follows.ends_iff {s : ℕ → Except Stop (ClientContext UInt8)} {x : ℕ → Option (View UInt8)}
    (h : ∀ fuel, Follows (s fuel) (x fuel)) :
    (∃ fuel s', s fuel = .ok s') ↔ ∃ fuel x', x fuel = some x' := by
  refine exists_congr fun fuel => ?_
  have hf := h fuel
  generalize s fuel = r at hf
  generalize x fuel = r' at hf
  cases hf with
  | fuel => simp
  | ok _ => simp

theorem Holds.ends_iff {s : ClientContext UInt8} {x : View UInt8} (hx : Holds none s x) (w : ℕ) :
    (∃ fuel s', s.notifyPackageReceived w fuel = .ok s') ↔ ¬ View.Repeats w x.inBuf := by
  rw [Follows.ends_iff fun fuel => hx.notifyPackageReceived w fuel]
  exact View.requestLoop_ends_iff w x hx.inBuf.small

/-- Whatever was received before, the loop that follows `appendToBuffer` ends just when it does not
find a request both in the live bytes and in what the block holds after their removal. -/
theorem notifyPackageReceived_ends_iff {net : ℕ → Bool} {w fuel₀ : ℕ} {es : List ClientContext.Event}
    {s s₁ : ClientContext UInt8} {m_recvBuf : Bytes}
    (hrun : run (ClientContext.step w fuel₀) (.accepted net) es = some s)
    (hlen : m_recvBuf.length ≤ ClientContext.IO_BUF_SIZE)
    (happend : s.appendToBuffer m_recvBuf = some s₁) :
    ∃ v, Owns s₁.heap s₁.m_inBuf v ∧
      ((∃ fuel s', s₁.notifyPackageReceived w fuel = .ok s') ↔ ¬ View.Repeats w v) := by
  have hx := (Holds.accepted net).run w fuel₀ es
  rw [hrun] at hx
  obtain ⟨x, -, hx⟩ := rel_some hx
  have hfits : x.inBuf.len + m_recvBuf.length ≤ 2 ^ 32 - 1024 := by
    by_contra hlong
    rw [hx.appendToBuffer_fault (Nat.lt_of_le_of_lt hlen (by decide)) (Nat.lt_of_not_le hlong)] at happend
    cases happend
  obtain ⟨s', e, hx'⟩ := hx.appendToBuffer hfits
  obtain rfl := Option.some.inj (happend.symm.trans e)
  exact ⟨_, hx'.inBuf, hx'.ends_iff w⟩

theorem appendToBuffer_accepted (n : ℕ) (hn : n ≤ 8000) : ∃ s,
    (ClientContext.accepted fun _ => true).appendToBuffer (Request.index n).text = some s ∧
    Holds none s { View.accepted fun _ => true with
      inBuf := Cells.empty.write (Request.index n).text } := by
  have hlen := Request.length_index n
  exact (Holds.accepted fun _ => true).appendToBuffer
    (by rw [show (View.accepted _).inBuf.len = 0 from rfl]; omega)

theorem notifyPackageReceived_ends_iff_index : ∃ s₁ v,
    (ClientContext.accepted fun _ => true).appendToBuffer (Request.index 0).text = some s₁ ∧
      Owns s₁.heap s₁.m_inBuf v ∧
      ((∃ fuel s', s₁.notifyPackageReceived 32 fuel = .ok s') ↔ ¬ View.Repeats 32 v) := by
  obtain ⟨s₁, e, -⟩ := appendToBuffer_accepted 0 (by omega)
  have hlen : (Request.index 0).text.length ≤ ClientContext.IO_BUF_SIZE := by
    rw [Request.length_index]
    decide
  have hnone : run (ClientContext.step 32 0) (.accepted fun _ => true) [] = some _ := rfl
  obtain ⟨v, ho, h⟩ := notifyPackageReceived_ends_iff hnone hlen e
  exact ⟨s₁, v, e, ho, h⟩

/-- One request of 1024 bytes on a new connection keeps the loop going for ever. -/
theorem notifyPackageReceived_index_997 : ∃ s₁,
    (ClientContext.accepted fun _ => true).appendToBuffer (Request.index 997).text = some s₁ ∧
      ¬ ∃ fuel s', s₁.notifyPackageReceived 32 fuel = .ok s' := by
  have hlen := Request.length_index 997
  obtain ⟨s₁, e, hx⟩ := appendToBuffer_accepted 997 (by omega)
  refine ⟨s₁, e, ?_⟩
  rw [hx.ends_iff 32, not_not]
  apply View.repeats_of_full
  · simp [Cells.len_write, Cells.cap_write, hlen, alignUp]
  · rw [Cells.live_write, Cells.live_empty, List.nil_append, ← List.append_nil (Request.text _)]
    exact (Request.index 997).answers 32 [] rfl (Request.index_plain 997) (by simp [hlen])

end NetDemo.Client
