import NetDemo.Foundation.Span
import NetDemo.Http.Decode
import Mathlib.Data.List.Forall2

/-! The words of a line, and the lines of a header block. -/

namespace NetDemo.Http
open Foundation

theorem isEol_of_not_isspace {b : UInt8} (h : isspace b = false) : isEol b = false := by
  by_contra he
  simp only [isEol, Bool.not_eq_false, Bool.or_eq_true, beq_iff_eq] at he
  rcases he with rfl | rfl <;> exact absurd h (by decide)

theorem ne_cr_of_not_isEol {b : UInt8} (h : isEol b = false) : b ≠ 0x0d := by
  rintro rfl
  exact absurd h (by decide)

/-! ### Words -/

theorem eatWord_append {s word t : Bytes} (hs : ∀ b ∈ s, isspace b) (hne : word ≠ [])
    (hw : ∀ b ∈ word, isspace b = false) (ht : ∀ b ∈ t.head?, isspace b) :
    Slice.eatWord (s ++ word ++ t) = (word, t) := by
  obtain ⟨hword, hrest⟩ := span_between hs hne hw ht
  rw [Slice.eatWord, List.append_assoc, hword, hrest]

theorem eatWord_blank {s : Bytes} (hs : ∀ b ∈ s, isspace b) : Slice.eatWord s = ([], []) := by
  have hdrop : s.dropWhile isspace = [] := List.dropWhile_eq_nil_iff.mpr hs
  simp [Slice.eatWord, hdrop]

/-- The longest pieces without white space. -/
def words (l : Bytes) : List Bytes := (l.splitOnP isspace).filter (· ≠ [])

theorem words_cons_blank {b : UInt8} (hb : isspace b) (t : Bytes) : words (b :: t) = words t := by
  rw [words, List.splitOnP_cons_eq_if_modifyHead, if_pos hb]
  rfl

theorem words_blank_append {s : Bytes} (hs : ∀ b ∈ s, isspace b) (t : Bytes) :
    words (s ++ t) = words t := by
  induction s with
  | nil => rfl
  | cons a s ih =>
    rw [List.cons_append, words_cons_blank (hs a List.mem_cons_self),
      ih fun b hb => hs b (List.mem_cons_of_mem _ hb)]

theorem words_word_append {word t : Bytes} (hne : word ≠ []) (hw : ∀ b ∈ word, isspace b = false)
    (ht : ∀ b ∈ t.head?, isspace b) : words (word ++ t) = word :: words t := by
  cases t with
  | nil =>
    rw [List.append_nil, words, List.splitOnP_eq_singleton hw]
    simp [hne, words]
  | cons b t =>
    have hb := ht b rfl
    rw [words_cons_blank hb, words, List.splitOnP_append_cons_of_forall_mem hw b hb]
    simp [hne, words]

theorem ne_nil_of_mem_words {word l : Bytes} (h : word ∈ words l) : word ≠ [] := by
  simpa using (List.mem_filter.mp h).2

theorem head_eatWord (l : Bytes) : ∀ b ∈ (Slice.eatWord l).2.head?, isspace b := by
  intro b hb
  simpa using head?_dropWhile (p := fun c => !isspace c) hb

theorem words_eatWord {l : Bytes} (h : (Slice.eatWord l).1 ≠ []) :
    words l = (Slice.eatWord l).1 :: words (Slice.eatWord l).2 := by
  have hsplit : l = l.takeWhile isspace ++ ((Slice.eatWord l).1 ++ (Slice.eatWord l).2) := by
    simp only [Slice.eatWord, List.takeWhile_append_dropWhile]
  have hword : ∀ b ∈ (Slice.eatWord l).1, isspace b = false := fun b hb => by
    simpa using List.mem_takeWhile_imp hb
  conv_lhs => rw [hsplit]
  rw [words_blank_append fun b hb => List.mem_takeWhile_imp hb,
    words_word_append h hword (head_eatWord l)]

theorem words_of_eatWord_nil {l : Bytes} (h : (Slice.eatWord l).1 = []) : words l = [] := by
  have hblank : ∀ b ∈ l, isspace b := takeWhile_dropWhile_eq_nil_iff.1 h
  simpa [words] using words_blank_append hblank []

theorem head_words (l : Bytes) : (words l).head?.getD [] = (Slice.eatWord l).1 := by
  by_cases h : (Slice.eatWord l).1 = []
  · rw [words_of_eatWord_nil h, h]
    rfl
  · rw [words_eatWord h]
    rfl

theorem tail_words (l : Bytes) : (words l).tail = words (Slice.eatWord l).2 := by
  by_cases h : (Slice.eatWord l).1 = []
  · have hrest : (Slice.eatWord (Slice.eatWord l).2).1 = [] := by
      by_contra hne
      exact eatWord_ne_nil hne h
    rw [words_of_eatWord_nil h, words_of_eatWord_nil hrest]
    rfl
  · rw [words_eatWord h]
    rfl

/-! ### One header line -/

theorem sub_dropLast (key : Bytes) : Slice.sub key 0 (-1) = key.dropLast := by
  have hlen : ((key.length : ℤ) + -1).toNat = key.length - 1 := by omega
  rw [Slice.sub, hlen, List.dropLast_eq_take]
  rfl

theorem headerLine_eq (l : Bytes) : headerLine l =
    if (Slice.eatWord (Slice.eatWord l).2).1 ≠ [] ∧ (Slice.eatWord l).1 ≠ [] ∧
      (Slice.eatWord l).1.getLast? = some 0x3a then
        some ((Slice.eatWord l).1.dropLast, (Slice.eatWord (Slice.eatWord l).2).1) else none := by
  rw [← sub_dropLast]
  rfl

theorem headerLine_eq_some_iff {l : Bytes} {kv : Bytes × Bytes} :
    headerLine l = some kv ↔ ∃ key value rest, words l = key :: value :: rest ∧
      key.getLast? = some 0x3a ∧ kv = (key.dropLast, value) := by
  rw [headerLine_eq]
  constructor
  · intro h
    split_ifs at h with hok
    exact ⟨_, _, _, by rw [words_eatWord hok.2.1, words_eatWord hok.1], hok.2.2,
      (Option.some.inj h).symm⟩
  · rintro ⟨key, value, rest, hwords, hcolon, rfl⟩
    have hkey : (Slice.eatWord l).1 = key := by rw [← head_words, hwords]; rfl
    have hvalue : (Slice.eatWord (Slice.eatWord l).2).1 = value := by
      rw [← head_words, ← tail_words, hwords]
      rfl
    have hmem : key ∈ words l ∧ value ∈ words l := by simp [hwords]
    rw [hkey, hvalue, if_pos ⟨ne_nil_of_mem_words hmem.2, ne_nil_of_mem_words hmem.1, hcolon⟩]

theorem exists_of_forall₂ {hs : List Bytes} {kvs : Headers}
    (h : List.Forall₂ (fun l kv => headerLine l = some kv) hs kvs) {l : Bytes} (hl : l ∈ hs) :
    ∃ kv ∈ kvs, headerLine l = some kv := by
  induction h with
  | nil => cases hl
  | cons hkv _ ih =>
    rcases List.mem_cons.mp hl with rfl | hl
    · exact ⟨_, List.mem_cons_self, hkv⟩
    · obtain ⟨kv, hmem, hkv⟩ := ih hl
      exact ⟨kv, List.mem_cons_of_mem _ hmem, hkv⟩

/-! ### Many lines -/

theorem eatLine_append {l t : Bytes} (hl : ∀ b ∈ l, isEol b = false) (ht : ∀ b ∈ t.head?, isEol b) :
    Slice.eatLine (l ++ t) = (l, t) := by
  have hspan := @span_append _ (fun c => !isEol c) l t (fun b hb => by simp [hl b hb])
    fun b hb => by simp [ht b hb]
  rw [Slice.eatLine, hspan.1, hspan.2]

def lineBlock (hs : List Bytes) : Bytes := hs.flatMap fun l => crlf ++ l

theorem lineBlock_cons (l : Bytes) (hs : List Bytes) :
    lineBlock (l :: hs) = crlf ++ l ++ lineBlock hs := List.flatMap_cons ..

theorem head_lineBlock (hs : List Bytes) : ∀ b ∈ (lineBlock hs).head?, isEol b := by
  cases hs with
  | nil => simp [lineBlock]
  | cons l hs =>
    rintro b hb
    obtain rfl : 0x0d = b := by simpa [lineBlock_cons] using hb
    decide

theorem length_le_lineBlock (hs : List Bytes) : hs.length ≤ (lineBlock hs).length := by
  induction hs with
  | nil => exact Nat.zero_le _
  | cons l hs ih =>
    rw [lineBlock_cons]
    simp only [List.length_cons, List.length_append]
    omega

theorem eatLine_lineBlock {start : Bytes} (h : ∀ b ∈ start, isEol b = false) (hs : List Bytes) :
    Slice.eatLine (start ++ lineBlock hs) = (start, lineBlock hs) :=
  eatLine_append h (head_lineBlock hs)

theorem headerFields_lineBlock_cons {l : Bytes} (hl : ∀ b ∈ l, isEol b = false) (fuel : ℕ)
    (hs : List Bytes) : headerFields (fuel + 1) (lineBlock (l :: hs)) =
      match headerLine l with
      | none => none
      | some kv => (headerFields fuel (lineBlock hs)).map (kv :: ·) := by
  have hne : lineBlock (l :: hs) ≠ [] := by simp [lineBlock_cons]
  have hdrop : (lineBlock (l :: hs)).drop 2 = l ++ lineBlock hs := by simp [lineBlock_cons]
  have hline := eatLine_lineBlock hl hs
  cases hkv : headerLine l <;> simp only [headerFields, if_neg hne, hdrop, firstLine, hline, hkv]

theorem headerFields_lineBlock {hs : List Bytes} (hl : ∀ l ∈ hs, ∀ b ∈ l, isEol b = false) {fuel : ℕ}
    (hfuel : hs.length ≤ fuel) (kvs : Headers) : headerFields fuel (lineBlock hs) = some kvs ↔
      List.Forall₂ (fun l kv => headerLine l = some kv) hs kvs := by
  induction hs generalizing fuel kvs with
  | nil =>
    have hnil : headerFields fuel (lineBlock []) = some [] := by cases fuel <;> rfl
    rw [hnil, List.forall₂_nil_left_iff, Option.some.injEq]
    exact eq_comm
  | cons l hs ih =>
    obtain ⟨fuel, rfl⟩ := Nat.exists_eq_add_of_lt (Nat.lt_of_lt_of_le (Nat.zero_lt_succ hs.length) hfuel)
    rw [Nat.zero_add, headerFields_lineBlock_cons (hl l List.mem_cons_self), List.forall₂_cons_left_iff]
    cases headerLine l with
    | none => simp
    | some kv =>
      have hle : hs.length ≤ fuel := by simpa using hfuel
      have hrest := ih (fun l' hl' => hl l' (List.mem_cons_of_mem _ hl')) hle
      simp only [Option.map_eq_some_iff, hrest, Option.some.injEq]
      constructor
      · rintro ⟨kvs, hkvs, rfl⟩
        exact ⟨kv, kvs, rfl, hkvs, rfl⟩
      · rintro ⟨_, kvs, rfl, hkvs, rfl⟩
        exact ⟨kvs, hkvs, rfl⟩

theorem getHeader_lineBlock {hs : List Bytes} (hl : ∀ l ∈ hs, l ≠ [] ∧ ∀ b ∈ l, isEol b = false)
    (e : Bytes) : getHeader (lineBlock hs ++ (crlfcrlf ++ e)) = some (lineBlock hs).length := by
  induction hs with
  | nil => rfl
  | cons l hs ih =>
    obtain ⟨hne, hnoEol⟩ := hl l List.mem_cons_self
    have hcr : ∀ b ∈ l, b ≠ 0x0d := fun b hb => ne_cr_of_not_isEol (hnoEol b hb)
    have hline := getHeader_noCR_append hcr (lineBlock hs ++ (crlfcrlf ++ e))
    rw [ih fun l' hl' => hl l' (List.mem_cons_of_mem _ hl')] at hline
    obtain ⟨a, t, rfl⟩ := List.exists_cons_of_ne_nil hne
    rw [List.cons_append] at hline
    have hcons : lineBlock ((a :: t) :: hs) ++ (crlfcrlf ++ e) =
        crlf ++ a :: (t ++ (lineBlock hs ++ (crlfcrlf ++ e))) := by
      rw [lineBlock_cons]
      simp only [List.append_assoc, List.cons_append, List.nil_append]
    rw [hcons, getHeader_crlf_append (hcr a List.mem_cons_self), hline, lineBlock_cons]
    simp only [Option.map_some, List.length_append, Option.some.injEq, List.length_cons,
      List.length_nil]
    omega

theorem getHeader_block {start : Bytes} (hstart : ∀ b ∈ start, isEol b = false) {hs : List Bytes}
    (hl : ∀ l ∈ hs, l ≠ [] ∧ ∀ b ∈ l, isEol b = false) (e : Bytes) :
    getHeader (start ++ lineBlock hs ++ (crlfcrlf ++ e)) = some (start ++ lineBlock hs).length := by
  rw [List.append_assoc, getHeader_noCR_append fun b hb => ne_cr_of_not_isEol (hstart b hb),
    getHeader_lineBlock hl, Option.map_some, List.length_append, Nat.add_comm]

end NetDemo.Http
