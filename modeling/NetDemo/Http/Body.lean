import NetDemo.Http.Verdict
import NetDemo.Http.Request

/-! Where `HttpCodec::tryDecode` sees the body of a request. -/

namespace NetDemo.Http
open Foundation

/-- `m_pb` and `m_pe` of `m_body` when `m_inBuf` is at the address `data`. -/
def HttpRequest.bodyPointers (w data : ℕ) (r : HttpRequest) : ℤ × ℤ :=
  let m_pb := (data + r.m_body.1) % 2 ^ w
  (m_pb, (m_pb + r.m_body.2 % 2 ^ w) % 2 ^ w)

/-- The body lies between the header block and the end of the received bytes `d`. -/
structure BodyInside (w data : ℕ) (d : Bytes) (r : HttpRequest) : Prop where
  lower : (data : ℤ) + r.m_nHeaderLength ≤ (r.bodyPointers w data).1
  ordered : (r.bodyPointers w data).1 ≤ (r.bodyPointers w data).2
  upper : (r.bodyPointers w data).2 ≤ data + d.length

namespace HttpCodec

/-- The number in the field that the length check looks up. -/
def announced (c : HttpCodec) : ℤ := atoi (getHeaderField c.m_req.m_headers (ascii "content-length"))

theorem awaited_eq (w : ℕ) (c : HttpCodec) : awaited w c = (c.m_req.m_nHeaderLength + announced c) % 2 ^ w :=
  rfl

theorem finish_body (w : ℕ) (c : HttpCodec) (d : Bytes) : (finish w c d).2.m_req =
    if (d.length : ℤ) < awaited w c then c.m_req else c.bodied.m_req := by
  rw [finish_eq]
  split_ifs <;> rfl

/-- Below 2^31 bytes the wrapped comparison says whether the announced end is out of reach, but a sum
below zero, too, is out of reach. -/
theorem lt_awaited_iff {w : ℕ} (hw : w = 32 ∨ w = 64) {c : HttpCodec} {size : ℕ} (hsize : size < 2 ^ 31)
    (hle : c.m_req.m_nHeaderLength ≤ size) : (size : ℤ) < awaited w c ↔
      c.m_req.m_nHeaderLength + announced c < 0 ∨ size < c.m_req.m_nHeaderLength + announced c := by
  have hlo : -2 ^ 31 ≤ announced c := neg_le_atoi _
  have hhi : announced c < 2 ^ 31 := atoi_lt _
  rw [awaited_eq]
  rcases hw with rfl | rfl <;> omega

theorem bodied_inside_iff {w : ℕ} (hw : w = 32 ∨ w = 64) {data : ℕ} {d : Bytes}
    (hdata : data + d.length < 2 ^ w) {c : HttpCodec} (hle : c.m_req.m_nHeaderLength ≤ d.length)
    (hlo : 0 ≤ c.m_req.m_nHeaderLength + announced c)
    (hhi : c.m_req.m_nHeaderLength + announced c ≤ d.length) :
    BodyInside w data d c.bodied.m_req ↔ 0 ≤ announced c := by
  have hpb : (c.bodied.m_req.bodyPointers w data).1 = data + c.m_req.m_nHeaderLength := by
    show ((data : ℤ) + c.m_req.m_nHeaderLength) % 2 ^ w = _
    rcases hw with rfl | rfl <;> omega
  have hpe : (c.bodied.m_req.bodyPointers w data).2 =
      data + c.m_req.m_nHeaderLength + announced c := by
    show ((c.bodied.m_req.bodyPointers w data).1 + announced c % 2 ^ w) % 2 ^ w = _
    rw [hpb]
    rcases hw with rfl | rfl <;> omega
  constructor
  · intro h
    have hord := h.ordered
    rw [hpb, hpe] at hord
    omega
  · intro h
    refine ⟨le_of_eq hpb.symm, ?_, ?_⟩
    · rw [hpb, hpe]
      omega
    · rw [hpe]
      omega

/-! ### The body slice -/

/-- The body that a call assigns is inside of the received bytes, unless the header block passes with
a negative length that is not below the one of the block itself. -/
theorem body_inside_iff {w : ℕ} (hw : w = 32 ∨ w = 64) {c : HttpCodec} (hc : c.m_req.m_body = (0, 0))
    {data : ℕ} {d : Bytes} (hd : d.length < 2 ^ 31) (hdata : data + d.length < 2 ^ w) :
    ((tryDecode w c d).2.m_req.m_body ≠ (0, 0) → BodyInside w data d (tryDecode w c d).2.m_req) ↔
      ∀ i kvs, getHeader d = some i → (c.scanned i).Passes (d.take i) kvs →
        ¬ (-(i + 4 : ℤ) ≤ announced ((c.scanned i).parsed (d.take i) kvs) ∧
          announced ((c.scanned i).parsed (d.take i) kvs) < 0) := by
  rcases tryDecode_verdict w c d with ⟨hnone, -, hbody⟩ | ⟨i, hi, -, hno, -, hrefusal⟩ |
      ⟨i, kvs, hi, h0, hp, heq⟩
  · refine iff_of_true (fun h => absurd (hbody.trans hc) h) fun i kvs hi hp => ?_
    obtain rfl := hnone i hi
    exact absurd hp.length_pos (by simp)
  · refine iff_of_true (fun h => absurd (hrefusal.body.trans hc) h) fun j kvs hj hp => ?_
    obtain rfl := Option.some.inj (hi.symm.trans hj)
    exact absurd hp (hno kvs)
  · have hle := getHeader_le hi
    have hwait := lt_awaited_iff hw (c := (c.scanned i).parsed (d.take i) kvs) hd hle
    have hlen : ((c.scanned i).parsed (d.take i) kvs).m_req.m_nHeaderLength = i + 4 := rfl
    have hinside := bodied_inside_iff hw hdata (c := (c.scanned i).parsed (d.take i) kvs) hle
    rw [hlen] at hwait hinside
    push_cast at hwait hinside
    rw [heq, finish_body]
    constructor
    · rintro h j kvs' hj hp' ⟨hlo, hneg⟩
      obtain rfl := Option.some.inj (hi.symm.trans hj)
      obtain rfl := hp.unique hp'
      -- The sum is not negative, so the comparison does not see the sign.
      rw [if_neg (by rw [hwait]; omega)] at h
      have hbegin : ((c.scanned i).parsed (d.take i) kvs).bodied.m_req.m_body ≠ (0, 0) := by
        intro hzero
        have hfst : ((i + 4 : ℕ) : ℤ) = 0 := congrArg Prod.fst hzero
        omega
      have := (hinside (by omega) (by omega)).mp (h hbegin)
      omega
    · intro h hassigned
      have hin := h i kvs hi hp
      split_ifs at hassigned ⊢ with hfull
      · exact absurd hc hassigned
      · rw [hwait] at hfull
        exact (hinside (by omega) (by omega)).mpr (by omega)

/-- `GET / HTTP/1.1`, `Host: a` and a content length of -1. -/
def negativeLength : Bytes := ascii "GET / HTTP/1.1\r\nHost: a\r\ncontent-length: -1\r\n\r\n"

/-- The bodiless `GET` of a page. -/
def getIndex : Bytes := ascii "GET / HTTP/1.1\r\nHost: a\r\n\r\n"

theorem body_inside_index : (tryDecode 64 .new getIndex).2.m_req.m_body ≠ (0, 0) ∧
    BodyInside 64 4096 getIndex (tryDecode 64 .new getIndex).2.m_req := by
  have hassigned : (tryDecode 64 .new getIndex).2.m_req.m_body ≠ (0, 0) := by decide
  refine ⟨hassigned, (body_inside_iff (.inr rfl) rfl (by decide) (by decide)).mpr ?_ hassigned⟩
  intro i kvs hi hp
  obtain rfl := Option.some.inj ((show getHeader getIndex = some 23 from rfl).symm.trans hi)
  have hpasses : (new.scanned 23).Passes (getIndex.take 23) [(ascii "Host", ascii "a")] :=
    ⟨rfl, ⟨by decide, by decide, rfl⟩, ⟨fun h => absurd h (by decide), rfl⟩⟩
  obtain rfl := hpasses.unique hp
  decide

/-- With a length of -1 the body ends before it begins. -/
theorem body_not_inside_negativeLength : (tryDecode 64 .new negativeLength).2.m_req.m_body ≠ (0, 0) ∧
    ¬ BodyInside 64 4096 negativeLength (tryDecode 64 .new negativeLength).2.m_req := by
  refine ⟨by decide, fun h => ?_⟩
  exact absurd h.ordered (by decide)

/-! ### The length of the body -/

/-- One of the fields is called `content-length`, in any case, and has the decimal value `n`. -/
def CarriesLength (kvs : Headers) (n : ℕ) : Prop :=
  ∃ kv ∈ kvs, kv.1.map toLower = ascii "content-length" ∧ (∀ b ∈ kv.2, isDigit b) ∧ digits kv.2 = n

/-- However many bytes have come in behind the header block, the body is the first `n` of them, and
the codec waits for these. The number of bytes is a `UINT`. -/
def Framed (w : ℕ) (header : Bytes) (n : ℕ) : Prop :=
  ∀ body : Bytes, (header ++ crlfcrlf ++ body).length < 2 ^ 32 →
    (body.length < n → (tryDecode w .new (header ++ crlfcrlf ++ body)).1 = 0) ∧
    (n ≤ body.length →
      (tryDecode w .new (header ++ crlfcrlf ++ body)).2.m_req.m_body =
        (((header ++ crlfcrlf).length : ℤ), (n : ℤ)))

/-- The field that `parseHeader` requires. -/
def demandedField (c : HttpCodec) : Option (Bytes × Bytes) :=
  if ascii "POST" = c.m_req.m_method then
    (c.m_req.m_headers.lookup (ascii "Content-Length")).map (ascii "Content-Length", ·)
  else none

/-- The field that the length check reads. -/
def readField (c : HttpCodec) : Option (Bytes × Bytes) :=
  (c.m_req.m_headers.lookup (ascii "content-length")).map (ascii "content-length", ·)

def SameField (c : HttpCodec) : Prop := ∀ kv, demandedField c = some kv → readField c = some kv

/-- The number `a` that the code reads stands for the announced length `n`. Where `n` bytes cannot
come in behind a header block of `size` bytes, the code must wait for too many bytes as well. -/
def ReadsLength (w size : ℕ) (a : ℤ) (n : ℕ) : Prop :=
  if size + n < 2 ^ 32 then a = n else w = 64 ∧ (size + a < 0 ∨ 2 ^ 32 ≤ size + a)

theorem sameField_iff {c : HttpCodec} (hs : c.StartLineOk) (hh : c.HeaderOk) :
    SameField c ↔ c.m_req.m_method = ascii "GET" := by
  constructor
  · intro h
    by_contra hget
    have hpost : c.m_req.m_method = ascii "POST" := by
      have := hs.method
      simpa [hget] using this
    obtain ⟨v, hv⟩ := Option.isSome_iff_exists.mp (hh.length hpost)
    have hread := h (ascii "Content-Length", v) (by rw [demandedField, if_pos hpost.symm, hv]; rfl)
    obtain ⟨v', -, hkv⟩ := Option.map_eq_some_iff.mp hread
    -- The two names differ in their first letters.
    have hname : ascii "content-length" = ascii "Content-Length" := congrArg Prod.fst hkv
    exact absurd hname (by decide)
  · intro hget kv hkv
    rw [demandedField, hget, if_neg (by decide)] at hkv
    cases hkv

theorem finish_framed_iff {w : ℕ} {c : HttpCodec} (hc : c.m_req.m_body = (0, 0)) {d : Bytes} {n : ℕ}
    (h0 : 0 < c.m_req.m_nHeaderLength) :
    (finish w c d).2.m_req.m_body = ((c.m_req.m_nHeaderLength : ℤ), (n : ℤ)) ↔
      awaited w c ≤ d.length ∧ announced c = n := by
  rw [finish_body]
  split_ifs with hfull
  · rw [hc, Prod.mk.injEq]
    constructor
    · intro h
      omega
    · intro h
      omega
  · show (((c.m_req.m_nHeaderLength : ℤ), announced c) = (↑c.m_req.m_nHeaderLength, ↑n)) ↔ _
    rw [Prod.mk.injEq]
    constructor
    · intro h
      exact ⟨not_lt.mp hfull, h.2⟩
    · intro h
      exact ⟨rfl, h.2⟩

theorem forall_awaited_iff {w : ℕ} (hw : w = 32 ∨ w = 64) {c : HttpCodec} {n : ℕ}
    (hsize : c.m_req.m_nHeaderLength < 2 ^ 32) :
    (∀ k : ℕ, c.m_req.m_nHeaderLength + k < 2 ^ 32 →
      (k < n → ((c.m_req.m_nHeaderLength + k : ℕ) : ℤ) < awaited w c) ∧
      (n ≤ k → awaited w c ≤ (c.m_req.m_nHeaderLength + k : ℕ) ∧ announced c = n)) ↔
      ReadsLength w c.m_req.m_nHeaderLength (announced c) n := by
  have hlo : -2 ^ 31 ≤ announced c := neg_le_atoi _
  have hhi : announced c < 2 ^ 31 := atoi_lt _
  rw [awaited_eq]
  generalize announced c = a at hlo hhi ⊢
  generalize c.m_req.m_nHeaderLength = size at hsize ⊢
  unfold ReadsLength
  split_ifs with hshort
  · constructor
    · intro h
      exact ((h n hshort).2 le_rfl).2
    · rintro rfl k hk
      rcases hw with rfl | rfl <;> omega
  · constructor
    · intro h
      -- The largest number of bytes is still too small.
      have hmax := (h (2 ^ 32 - 1 - size) (by omega)).1 (by omega)
      rcases hw with rfl | rfl <;> omega
    · rintro ⟨rfl, h⟩ k hk
      omega

theorem framed_iff {w : ℕ} (hw : w = 32 ∨ w = 64) {header : Bytes}
    (hend : getHeader (header ++ crlfcrlf) = some header.length)
    (hsize : (header ++ crlfcrlf).length < 2 ^ 32) {kvs : Headers}
    (hp : (new.scanned header.length).Passes header kvs) (n : ℕ) :
    Framed w header n ↔ ReadsLength w (header ++ crlfcrlf).length
      (announced ((new.scanned header.length).parsed header kvs)) n := by
  have hlen : (header ++ crlfcrlf).length = header.length + 4 := by
    rw [List.length_append]
    rfl
  have hdecode (body : Bytes) : tryDecode w .new (header ++ crlfcrlf ++ body) =
      finish w ((new.scanned header.length).parsed header kvs) (header ++ crlfcrlf ++ body) := by
    rw [tryDecode_some (getHeader_append hend body) hp.length_pos, List.append_assoc, List.take_left,
      decodeHeader_of_passes hp]
  have hall := forall_awaited_iff hw (n := n)
    (c := (new.scanned header.length).parsed header kvs) (by rw [hlen] at hsize; exact hsize)
  have hnh : ((new.scanned header.length).parsed header kvs).m_req.m_nHeaderLength =
      (header ++ crlfcrlf).length := hlen.symm
  rw [hnh] at hall
  rw [← hall]
  have hpos : 0 < (header ++ crlfcrlf).length := by omega
  -- Of what comes behind the header block only the length matters.
  have hat (body : Bytes) (hb : (header ++ crlfcrlf ++ body).length < 2 ^ 32) :
      ((tryDecode w .new (header ++ crlfcrlf ++ body)).1 = 0 ↔
        (((header ++ crlfcrlf).length + body.length : ℕ) : ℤ) <
          awaited w ((new.scanned header.length).parsed header kvs)) ∧
      ((tryDecode w .new (header ++ crlfcrlf ++ body)).2.m_req.m_body =
          (((header ++ crlfcrlf).length : ℤ), (n : ℤ)) ↔
        awaited w ((new.scanned header.length).parsed header kvs) ≤
          ((header ++ crlfcrlf).length + body.length : ℕ) ∧
          announced ((new.scanned header.length).parsed header kvs) = n) := by
    have happ : (header ++ crlfcrlf ++ body).length = (header ++ crlfcrlf).length + body.length :=
      List.length_append
    have hframed := @finish_framed_iff w ((new.scanned header.length).parsed header kvs) rfl
      (header ++ crlfcrlf ++ body) n (by rw [hnh]; exact hpos)
    rw [hnh, happ] at hframed
    rw [hdecode, finish_eq_zero_iff (by omega) hb, happ]
    exact ⟨Iff.rfl, hframed⟩
  constructor
  · intro h k hk
    have hrep : (header ++ crlfcrlf ++ List.replicate k (0 : UInt8)).length < 2 ^ 32 := by
      rw [List.length_append, List.length_replicate]
      exact hk
    have hk' := h (List.replicate k 0) hrep
    rw [(hat _ hrep).1, (hat _ hrep).2, List.length_replicate] at hk'
    exact hk'
  · intro h body hb
    rw [(hat body hb).1, (hat body hb).2]
    exact h body.length (by rwa [List.length_append] at hb)

/-- A header block that passes frames the body by its content length just when the value that is
looked up under `content-length`, spelled so, says the same. It is the field that `parseHeader`
requires just when none is required. -/
theorem content_length_framing {w : ℕ} (hw : w = 32 ∨ w = 64) {header : Bytes}
    (hend : getHeader (header ++ crlfcrlf) = some header.length)
    (hsize : (header ++ crlfcrlf).length < 2 ^ 32) {kvs : Headers}
    (hp : (new.scanned header.length).Passes header kvs) {n : ℕ} (_ : CarriesLength kvs n) :
    (Framed w header n ↔ ReadsLength w (header ++ crlfcrlf).length
      (announced ((new.scanned header.length).parsed header kvs)) n) ∧
    (SameField ((new.scanned header.length).parsed header kvs) ↔
      (Slice.eatWord (firstLine header)).1 = ascii "GET") :=
  ⟨framed_iff hw hend hsize hp n, sameField_iff hp.startLine hp.checked⟩

/-- A `POST` of five bytes, with the spelling that `parseHeader` requires. -/
def postFive : Bytes := ascii "POST / HTTP/1.1\r\nHost: a\r\nContent-Length: 5"

/-- A `GET` with the spelling that the length check reads. -/
def getFive : Bytes := ascii "GET / HTTP/1.1\r\nHost: a\r\ncontent-length: 5"

theorem passes_postFive : (new.scanned postFive.length).Passes postFive
    [(ascii "Host", ascii "a"), (ascii "Content-Length", ascii "5")] :=
  ⟨rfl, ⟨by decide, by decide, rfl⟩, ⟨fun _ => rfl, rfl⟩⟩

theorem passes_getFive : (new.scanned getFive.length).Passes getFive
    [(ascii "Host", ascii "a"), (ascii "content-length", ascii "5")] :=
  ⟨rfl, ⟨by decide, by decide, rfl⟩, ⟨fun h => absurd h (by decide), rfl⟩⟩

theorem carriesLength_getFive :
    CarriesLength [(ascii "Host", ascii "a"), (ascii "content-length", ascii "5")] 5 :=
  ⟨_, List.mem_cons_of_mem _ List.mem_cons_self, rfl, by decide +kernel, rfl⟩

theorem content_length_framing_getFive :
    Framed 64 getFive 5 ∧ SameField ((new.scanned getFive.length).parsed getFive
      [(ascii "Host", ascii "a"), (ascii "content-length", ascii "5")]) := by
  have hw : (64 : ℕ) = 32 ∨ (64 : ℕ) = 64 := .inr rfl
  have hend : getHeader (getFive ++ crlfcrlf) = some getFive.length := rfl
  have h := content_length_framing hw hend (by decide) passes_getFive carriesLength_getFive
  refine ⟨h.1.mpr ?_, h.2.mpr rfl⟩
  rw [ReadsLength, if_pos (by decide)]
  rfl

theorem not_framed_postFive : CarriesLength
      [(ascii "Host", ascii "a"), (ascii "Content-Length", ascii "5")] 5 ∧
    (new.scanned postFive.length).Passes postFive
      [(ascii "Host", ascii "a"), (ascii "Content-Length", ascii "5")] ∧
    ¬ Framed 64 postFive 5 ∧ ¬ SameField ((new.scanned postFive.length).parsed postFive
      [(ascii "Host", ascii "a"), (ascii "Content-Length", ascii "5")]) := by
  refine ⟨⟨_, List.mem_cons_of_mem _ List.mem_cons_self, rfl, by decide +kernel, rfl⟩,
    passes_postFive, fun h => ?_, fun h => ?_⟩
  · have hwait := (h [] (by decide)).1 (by decide)
    exact absurd hwait (by decide)
  · exact absurd (h _ rfl) (by decide)

end HttpCodec
end NetDemo.Http
