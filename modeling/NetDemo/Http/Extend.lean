import NetDemo.Http.Verdict

/-! How the answer of `HttpCodec::tryDecode` changes when more bytes come in. -/

namespace NetDemo.Http
open Foundation

theorem getHeader_append_cons {d : Bytes} (hd : getHeader d = none) {b : UInt8} (hb : b ∉ crlfcrlf)
    (e : Bytes) : getHeader (d ++ b :: e) = (getHeader e).map (· + (d.length + 1)) := by
  have hpre {l : Bytes} (hp : crlfcrlf <+: l ++ b :: e) : crlfcrlf <+: l := by
    rcases Nat.lt_or_ge l.length crlfcrlf.length with hlt | hle
    · have hl : l ++ [b] <+: crlfcrlf :=
        List.prefix_of_prefix_length_le ⟨e, by simp⟩ hp (by
          rw [List.length_append]
          exact hlt)
      exact absurd (hl.subset (by simp)) hb
    · exact List.prefix_of_prefix_length_le hp ⟨_, rfl⟩ hle
  induction d with
  | nil =>
    have hno : ¬ crlfcrlf <+: b :: e := fun hp => absurd (hpre (l := []) hp) (by decide)
    rw [List.nil_append, getHeader_cons, if_neg hno]
    rfl
  | cons a t ih =>
    rw [getHeader_cons] at hd
    split_ifs at hd with hp
    have hno : ¬ crlfcrlf <+: a :: (t ++ b :: e) := fun hq => hp (hpre (l := a :: t) hq)
    rw [List.cons_append, getHeader_cons, if_neg hno, ih (Option.map_eq_none_iff.mp hd), Option.map_map]
    rfl

/-! ### A line of one word -/

/-- The end of a line and a line that is not a header field. -/
def stray : Bytes := [0x58, 0x0d, 0x0a, 0x58]

theorem eatLine_stray (t : Bytes) : (Slice.eatLine (t ++ stray)).2 = [0x0d, 0x0a, 0x58] ∨
    ∃ t', t' ≠ [] ∧ t'.length ≤ t.length ∧ (Slice.eatLine (t ++ stray)).2 = t' ++ stray := by
  simp only [Slice.eatLine, List.dropWhile_append]
  split_ifs with hnil
  · exact .inl (by decide)
  · refine .inr ⟨_, ?_, List.length_dropWhile_le _ t, rfl⟩
    simpa using hnil

theorem headerFields_stray {fuel : ℕ} {t : Bytes} (hfuel : (t ++ stray).length ≤ fuel) (ht : t ≠ []) :
    headerFields fuel (t ++ stray) = none := by
  induction fuel generalizing t with
  | zero => simp [stray] at hfuel
  | succ fuel ih =>
    simp only [headerFields, if_neg (show t ++ stray ≠ [] by simp [ht])]
    obtain ⟨a, t, rfl⟩ := List.exists_cons_of_ne_nil ht
    cases t with
    | nil =>
      -- The loop takes away the stray byte itself, and the rest of its line is empty.
      rfl
    | cons b t =>
      cases hline : headerLine (firstLine ((a :: b :: t ++ stray).drop 2)) with
      | none => rfl
      | some kv =>
        have hfuel' : (t ++ stray).length + 2 ≤ fuel + 1 := by simpa using hfuel
        show (headerFields fuel (Slice.eatLine (t ++ stray)).2).map (kv :: ·) = none
        rw [Option.map_eq_none_iff]
        rcases eatLine_stray t with hrest | ⟨t', hne, hle, hrest⟩
        · rw [hrest]
          obtain ⟨fuel, rfl⟩ : ∃ n, fuel = n + 1 := ⟨fuel - 1, by omega⟩
          rfl
        · rw [hrest]
          refine ih ?_ hne
          rw [List.length_append] at hfuel' ⊢
          omega

namespace HttpCodec

/-! ### An answer stays -/

theorem sign_int32_uint {n : ℕ} (h0 : 0 < n) (h : n < 2 ^ 31) : Int.sign (int32 (uint n)) = 1 := by
  rw [uint_natCast (by omega), int32_of_lt h]
  exact Int.sign_eq_one_of_pos (by omega)

theorem finish_append {w : ℕ} {c : HttpCodec} {d e : Bytes} (h0 : 0 < d.length)
    (hlen : (d ++ e).length < 2 ^ 31) (h : (finish w c d).1 ≠ 0) :
    Int.sign (finish w c (d ++ e)).1 = Int.sign (finish w c d).1 ∧
      (finish w c (d ++ e)).2 = (finish w c d).2 := by
  have happ : (d ++ e).length = d.length + e.length := List.length_append
  have hd : awaited w c ≤ d.length := not_lt.mp fun hlt =>
    h ((finish_eq_zero_iff h0 (by omega)).mpr hlt)
  have hde : awaited w c ≤ (d ++ e).length := hd.trans (by omega)
  rw [finish_of_le hd, finish_of_le hde]
  split_ifs
  · exact ⟨(sign_int32_uint (by omega) hlen).trans (sign_int32_uint h0 (by omega)).symm, rfl⟩
  · exact ⟨rfl, rfl⟩

/-- What a codec answers to some bytes it answers to them with more bytes behind them, and it reads
the same request. -/
theorem tryDecode_append {w : ℕ} {c : HttpCodec} {d e : Bytes} (hlen : (d ++ e).length < 2 ^ 31)
    (h : (tryDecode w c d).1 ≠ 0) :
    Int.sign (tryDecode w c (d ++ e)).1 = Int.sign (tryDecode w c d).1 ∧
      (tryDecode w c (d ++ e)).2 = (tryDecode w c d).2 := by
  cases hi : getHeader d with
  | none => exact absurd (by rw [tryDecode, hi]) h
  | some i =>
    by_cases h0 : i = 0
    · exact absurd (by simp only [tryDecode, hi, if_pos h0]) h
    have hpos := Nat.pos_of_ne_zero h0
    have hle := getHeader_le hi
    have htake : (d ++ e).take i = d.take i := List.take_append_of_le_length (by omega)
    rw [tryDecode_some hi hpos] at h ⊢
    rw [tryDecode_some (getHeader_append hi e) hpos, htake]
    rcases decodeHeader_cases w (c.scanned i) (d.take i) with ⟨c', hno⟩ | ⟨kvs, -, -, -, hfin⟩
    · rw [hno, hno]
      exact ⟨rfl, rfl⟩
    · rw [hfin] at h ⊢
      rw [hfin]
      exact finish_append (by omega) hlen h

theorem tryDecode_append_index :
    Int.sign (tryDecode 64 .new (ascii "GET / HTTP/1.1\r\nHost: a\r\n\r\n" ++ [0x58])).1 =
        Int.sign (tryDecode 64 .new (ascii "GET / HTTP/1.1\r\nHost: a\r\n\r\n")).1 ∧
      (tryDecode 64 .new (ascii "GET / HTTP/1.1\r\nHost: a\r\n\r\n" ++ [0x58])).2 =
        (tryDecode 64 .new (ascii "GET / HTTP/1.1\r\nHost: a\r\n\r\n")).2 :=
  tryDecode_append (by decide) (by decide)

/-! ### Whether an answer can still come -/

/-- The header block, if it is complete, is not empty, and the length that it makes the codec wait
for is one that `m_inBuf` can have. -/
def Completable (w : ℕ) (d : Bytes) : Prop :=
  ∀ i, getHeader d = some i → 0 < i ∧
    ∀ kvs, headerFields (Slice.eatLine (d.take i)).2.length (Slice.eatLine (d.take i)).2 = some kvs →
      awaited w ((new.scanned i).parsed (d.take i) kvs) < 2 ^ 32

theorem tryDecode_stray {d : Bytes} (hd : getHeader d = none) (w : ℕ) (c : HttpCodec) :
    (tryDecode w c (d ++ (stray ++ crlfcrlf))).1 = -1 := by
  have hi : getHeader (d ++ (stray ++ crlfcrlf)) = some (d.length + 4) := by
    have hrest : getHeader ([0x0d, 0x0a, 0x58] ++ crlfcrlf) = some 3 := rfl
    have hcons : stray ++ crlfcrlf = 0x58 :: ([0x0d, 0x0a, 0x58] ++ crlfcrlf) := rfl
    rw [hcons, getHeader_append_cons hd (by decide), hrest, Option.map_some]
    congr 1
    omega
  have htake : (d ++ (stray ++ crlfcrlf)).take (d.length + 4) = d ++ stray := by
    rw [← List.append_assoc]
    exact List.take_left' (by simp [stray])
  have hfields : headerFields (Slice.eatLine (d ++ stray)).2.length (Slice.eatLine (d ++ stray)).2 = none := by
    rcases eatLine_stray d with hrest | ⟨t, hne, -, hrest⟩
    · rw [hrest]
      rfl
    · rw [hrest]
      exact headerFields_stray le_rfl hne
  have hrefused : ∀ kvs, ¬ (c.scanned (d.length + 4)).Passes (d ++ stray) kvs := by
    intro kvs hp
    rw [hp.fields] at hfields
    cases hfields
  obtain ⟨c', -, hno⟩ := decodeHeader_refusal hrefused
  rw [tryDecode_some hi (by omega), htake, hno]

theorem tryDecode_leading {d : Bytes} (h : getHeader d = some 0) (w : ℕ) (c : HttpCodec) (e : Bytes) :
    (tryDecode w c (d ++ e)).1 = 0 := by
  simp only [tryDecode, getHeader_append h e, if_true]

/-- Where the codec asks for more bytes, an answer can still come just when the header block is not
empty and does not make it wait for 2^32 bytes or more. The number of bytes is a `UINT`. -/
theorem exists_answer_iff_completable {w : ℕ} {d : Bytes} (hd : d.length + 8 < 2 ^ 32)
    (h : (tryDecode w .new d).1 = 0) :
    (∃ e, (d ++ e).length < 2 ^ 32 ∧ (tryDecode w .new (d ++ e)).1 ≠ 0) ↔ Completable w d := by
  cases hi : getHeader d with
  | none =>
    refine ⟨fun _ i hno => ?_, fun _ => ⟨stray ++ crlfcrlf, ?_, ?_⟩⟩
    · rw [hi] at hno
      cases hno
    · rw [List.length_append]
      exact hd
    · rw [tryDecode_stray hi]
      decide
  | some i =>
    by_cases h0 : i = 0
    · subst h0
      refine ⟨?_, fun hno => absurd (hno 0 hi).1 (Nat.lt_irrefl 0)⟩
      rintro ⟨e, -, he⟩
      exact absurd (tryDecode_leading hi w .new e) he
    have hpos := Nat.pos_of_ne_zero h0
    have hle := getHeader_le hi
    have hgrow (e : Bytes) :
        tryDecode w .new (d ++ e) = decodeHeader w (new.scanned i) (d ++ e) (d.take i) := by
      rw [tryDecode_some (getHeader_append hi e) hpos, List.take_append_of_le_length (by omega)]
    have hnil := hgrow []
    rw [List.append_nil] at hnil
    rw [hnil] at h
    rcases decodeHeader_cases w (new.scanned i) (d.take i) with ⟨c', hno⟩ | ⟨kvs, hkvs, -, -, hfin⟩
    · rw [hno] at h
      cases h
    rw [hfin, finish_eq_zero_iff (by omega) (by omega)] at h
    constructor
    · rintro ⟨e, hlen, he⟩ j hj
      obtain rfl := Option.some.inj (hi.symm.trans hj)
      refine ⟨hpos, fun kvs' hkvs' => ?_⟩
      obtain rfl := Option.some.inj (hkvs.symm.trans hkvs')
      rw [hgrow, hfin, Ne, finish_eq_zero_iff (by rw [List.length_append]; omega) hlen] at he
      omega
    · intro hc
      have hlt := (hc i hi).2 kvs hkvs
      -- The awaited bytes, whatever they are.
      obtain ⟨n, hn⟩ : ∃ n : ℕ, awaited w ((new.scanned i).parsed (d.take i) kvs) = n :=
        ⟨_, (Int.toNat_of_nonneg (by omega)).symm⟩
      rw [hn] at h hlt
      have hlen : (d ++ List.replicate (n - d.length) (0 : UInt8)).length = n := by
        rw [List.length_append, List.length_replicate]
        omega
      refine ⟨List.replicate (n - d.length) 0, by omega, ?_⟩
      rw [hgrow, hfin, Ne, finish_eq_zero_iff (by omega) (by omega), hlen, hn]
      exact lt_irrefl _

/-- Two of five bytes of a body are still to come. -/
def cutBody : Bytes := ascii "GET / HTTP/1.1\r\nHost: a\r\ncontent-length: 5\r\n\r\nabc"

theorem exists_answer_iff_completable_cutBody :
    (tryDecode 64 .new cutBody).1 = 0 ∧
      ∃ e, (cutBody ++ e).length < 2 ^ 32 ∧ (tryDecode 64 .new (cutBody ++ e)).1 ≠ 0 := by
  have hzero : (tryDecode 64 .new cutBody).1 = 0 := by decide +kernel
  have hheader : getHeader cutBody = some 42 := by decide +kernel
  have hfields : headerFields (Slice.eatLine (cutBody.take 42)).2.length (Slice.eatLine (cutBody.take 42)).2 =
      some [(ascii "Host", ascii "a"), (ascii "content-length", ascii "5")] := by decide +kernel
  refine ⟨hzero, (exists_answer_iff_completable (by decide) hzero).mpr fun i hi => ?_⟩
  obtain rfl := Option.some.inj (hheader.symm.trans hi)
  refine ⟨by decide, fun kvs hkvs => ?_⟩
  obtain rfl := Option.some.inj (hfields.symm.trans hkvs)
  decide +kernel

theorem not_exists_answer_crlfcrlf : (tryDecode 64 .new crlfcrlf).1 = 0 ∧
    ¬ ∃ e, (tryDecode 64 .new (crlfcrlf ++ e)).1 ≠ 0 :=
  ⟨rfl, fun ⟨e, he⟩ => he (tryDecode_leading rfl 64 .new e)⟩

end HttpCodec
end NetDemo.Http
