import NetDemo.Linux.Language

/-! Where the parser sees the end of a header, for any bytes in any chunks. -/

namespace NetDemo.Linux
open Foundation Http
variable {d l rest : Bytes}

/-- A header line that begins with a NUL comes before every empty one. -/
def Imitated (d : Bytes) : Prop :=
  ∃ l rest, Head d (l ++ crlf ++ rest) ∧ 0x0d ∉ l ∧ l.head? = some 0

/-- An empty line ended the header: there are two CRLFs where the parser stopped. -/
def Framed (d : Bytes) (checkedIndex : ℕ) : Prop := crlfcrlf <:+ d.take checkedIndex

instance (d : Bytes) : DecidablePred (Framed d) := fun _ => inferInstanceAs (Decidable (_ <:+ _))

theorem crlf_suffix (r : Bytes) (hs : List Bytes) : crlf <:+ r ++ crlf ++ lines hs := by
  rcases List.eq_nil_or_concat hs with rfl | ⟨hs, h, rfl⟩
  · exact ⟨r, by simp [lines]⟩
  · exact ⟨r ++ crlf ++ lines hs ++ h, by simp [lines]⟩

theorem crlfcrlf_suffix_iff {x : Bytes} (hx : crlf <:+ x) (hl : 0x0d ∉ l) :
    crlfcrlf <:+ x ++ l ++ crlf ↔ l = [] := by
  obtain ⟨z, rfl⟩ := hx
  constructor
  · rintro ⟨y, hy⟩
    have hy' : y ++ [0x0d] ++ [0x0a] = z ++ crlf ++ l := by
      rw [← List.append_left_inj crlf]
      simpa using hy
    rcases List.eq_nil_or_concat l with rfl | ⟨l, b, rfl⟩
    · rfl
    rw [List.concat_eq_append, ← List.append_assoc] at hy'
    have hinit := List.append_inj_left' hy' rfl
    rcases List.eq_nil_or_concat l with rfl | ⟨l, c, rfl⟩
    · have hlast : y ++ [0x0d] = z ++ [0x0d] ++ [0x0a] := by simpa using hinit
      exact absurd (List.append_inj_right' hlast rfl) (by decide)
    · rw [List.concat_eq_append, ← List.append_assoc] at hinit
      obtain rfl := List.cons.inj (List.append_inj_right' hinit rfl) |>.1
      exact absurd (by simp) hl
  · rintro rfl
    exact ⟨z, by simp⟩

theorem framed_iff (hhead : Head d (l ++ crlf ++ rest)) (hl : 0x0d ∉ l) {n : ℕ}
    (hn : n + rest.length = d.length) : Framed d n ↔ l = [] := by
  obtain ⟨r, hs, -, -, -, rfl⟩ := hhead
  have htake : (r ++ crlf ++ (lines hs ++ (l ++ crlf ++ rest))).take n = r ++ crlf ++ lines hs ++ l ++ crlf := by
    rw [show r ++ crlf ++ (lines hs ++ (l ++ crlf ++ rest)) = r ++ crlf ++ lines hs ++ l ++ crlf ++ rest by simp]
    apply List.take_left'
    simp only [List.length_append] at hn ⊢
    omega
  rw [Framed, htake, crlfcrlf_suffix_iff (crlf_suffix r hs) hl]

/-- The parser takes no other bytes for the end of a header just when no header line imitates it. -/
theorem framed_iff_not_imitated (chunks : List Bytes) (hlen : chunks.flatten.length ≤ BUFFER_SIZE) :
    ((Parser.new.serve chunks).1 = .getRequest →
        Framed chunks.flatten (Parser.new.serve chunks).2.checkedIndex) ↔ ¬ Imitated chunks.flatten := by
  obtain ⟨left, hserve⟩ := Parser.serve_new chunks hlen
  have hfresh := Parser.Fresh.receive hlen
  have hcode := congrArg Prod.fst hserve
  have hchecked := congrArg (fun x => x.2.checkedIndex) hserve
  simp only at hcode hchecked
  rw [show ((Parser.new.serve chunks).2.receive left).checkedIndex = (Parser.new.serve chunks).2.checkedIndex from
    rfl] at hchecked
  rw [← hcode, ← hchecked]
  have hread : (Parser.new.receive chunks.flatten).readIndex = chunks.flatten.length := Nat.zero_add _
  constructor
  · -- The line ends the header with a NUL, and no CR stands there.
    rintro hframed ⟨l, rest, hhead, hl, hnul⟩
    have hends : Ends l := ends_iff.mpr (.inr hnul)
    obtain ⟨hget, hn⟩ := hfresh.get rfl hhead hl hends
    rw [(framed_iff hhead hl (hn.trans hread)).mp (hframed hget)] at hnul
    cases hnul
  · intro hno hget
    rcases split_text chunks.flatten with ⟨l, rest, hhead, hl, hends⟩ | hbad | hwaits
    · obtain ⟨-, hn⟩ := hfresh.get rfl hhead hl hends
      apply (framed_iff hhead hl (hn.trans hread)).mpr
      exact (ends_iff.mp hends).resolve_right fun hnul => hno ⟨l, rest, hhead, hl, hnul⟩
    · rw [hfresh.bad rfl hbad] at hget
      cases hget
    · rw [hfresh.no rfl hwaits] at hget
      cases hget

theorem framed_iff_not_imitated_blank :
    ((Parser.new.serve [ascii "GET / HTTP/1.1\r\n\r", ascii "\n"]).1 = .getRequest →
        Framed (ascii "GET / HTTP/1.1\r\n\r\n")
          (Parser.new.serve [ascii "GET / HTTP/1.1\r\n\r", ascii "\n"]).2.checkedIndex) ↔
      ¬ Imitated (ascii "GET / HTTP/1.1\r\n\r\n") :=
  framed_iff_not_imitated [ascii "GET / HTTP/1.1\r\n\r", ascii "\n"] (by decide)

/-- A header line that begins with a NUL ends the request. -/
theorem not_framed_nul : ∃ chunks : List Bytes, (∀ c ∈ chunks, c ≠ []) ∧ chunks.flatten.length ≤ BUFFER_SIZE ∧
    (Parser.new.serve chunks).1 = .getRequest ∧
      ¬ Framed chunks.flatten (Parser.new.serve chunks).2.checkedIndex :=
  ⟨[ascii "GET / HTTP/1.1\r\n", 0x00 :: ascii "Host: a\r\n"], by decide, by decide, by decide +kernel,
    by decide +kernel⟩

end NetDemo.Linux
