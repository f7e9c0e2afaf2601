import NetDemo.Foundation.Arrays

/-! `strtok`, which cuts a C string into tokens one call at a time, over the tokens of a list. -/

namespace NetDemo.Foundation

section
variable {α : Type} {delim : α → Bool} {l lead token rest : List α}

/-- The first longest stretch without a delimiter. -/
def firstToken (delim : α → Bool) (l : List α) : List α :=
  (l.dropWhile delim).takeWhile fun a => !delim a

/-- What stands behind the delimiter that ends the first token. -/
def behindToken (delim : α → Bool) (l : List α) : List α :=
  ((l.dropWhile delim).dropWhile fun a => !delim a).tail

theorem firstToken_eq_nil_iff : firstToken delim l = [] ↔ ∀ a ∈ l, delim a :=
  takeWhile_dropWhile_eq_nil_iff

theorem notMem_firstToken : ∀ a ∈ firstToken delim l, delim a = false :=
  fun a ha => by simpa using List.mem_takeWhile_imp ha

theorem token_append (hlead : ∀ a ∈ lead, delim a) (htoken : ∀ a ∈ token, delim a = false) (hne : token ≠ [])
    (hrest : ∀ a ∈ rest.head?, delim a) :
    firstToken delim (lead ++ (token ++ rest)) = token ∧
    behindToken delim (lead ++ (token ++ rest)) = rest.tail := by
  obtain ⟨hfirst, hbehind⟩ := span_between hlead hne htoken hrest
  exact ⟨hfirst, congrArg List.tail hbehind⟩

theorem token_split (delim : α → Bool) (l : List α) :
    ∃ lead rest, l = lead ++ (firstToken delim l ++ rest) ∧ (∀ a ∈ lead, delim a) ∧
      (∀ a ∈ rest.head?, delim a) ∧ behindToken delim l = rest.tail := by
  refine ⟨l.takeWhile delim, (l.dropWhile delim).dropWhile fun a => !delim a, ?_, ?_, ?_, rfl⟩
  · rw [firstToken, List.takeWhile_append_dropWhile, List.takeWhile_append_dropWhile]
  · exact fun a => List.mem_takeWhile_imp
  · intro a ha
    simpa using head?_dropWhile ha

theorem second_token_iff : firstToken delim (behindToken delim l) ≠ [] ↔
    ∃ x d y, l = x ++ d :: y ∧ delim d ∧ (∃ a ∈ x, delim a = false) ∧ ∃ a ∈ y, delim a = false := by
  have hsome {t : List α} : firstToken delim t ≠ [] ↔ ∃ a ∈ t, delim a = false := by
    simp [firstToken_eq_nil_iff]
  constructor
  · intro hsecond
    have hfirst : firstToken delim l ≠ [] := by
      intro hnil
      rw [firstToken_eq_nil_iff] at hnil
      rw [behindToken, List.dropWhile_eq_nil_iff.2 hnil] at hsecond
      exact hsecond rfl
    obtain ⟨lead, rest, hl, -, hrest, hbehind⟩ := token_split delim l
    rw [hbehind] at hsecond
    cases rest with
    | nil => exact absurd rfl hsecond
    | cons d y =>
      obtain ⟨a, ha⟩ := List.exists_mem_of_ne_nil _ hfirst
      have hl' : l = lead ++ firstToken delim l ++ d :: y := by rw [List.append_assoc, ← hl]
      refine ⟨lead ++ firstToken delim l, d, y, hl', hrest d rfl, ?_, hsome.1 hsecond⟩
      exact ⟨a, List.mem_append_right lead ha, notMem_firstToken a ha⟩
  · rintro ⟨x, d, y, rfl, hd, ⟨a, hax, ha⟩, b, hby, hb⟩
    refine hsome.2 ⟨b, ?_, hb⟩
    have hlead : (x ++ d :: y).dropWhile delim = x.dropWhile delim ++ d :: y := by
      rw [List.dropWhile_append, if_neg]
      rw [List.isEmpty_iff, List.dropWhile_eq_nil_iff]
      exact fun hall => by simp [hall a hax] at ha
    -- The first token ends within `x` or with it, so `y` is behind it.
    rw [behindToken, hlead, List.dropWhile_append, List.dropWhile_cons_of_neg (by simp [hd])]
    split_ifs with hend
    · exact hby
    · obtain ⟨c, z, hz⟩ := List.exists_cons_of_ne_nil (mt List.isEmpty_iff.2 hend)
      rw [hz]
      exact List.mem_append_right z (List.mem_cons_of_mem d hby)

end

/-- What a call of `strtok` gives back, the memory behind it, and the pointer that it keeps. -/
structure Strtok where
  token : Option ℕ
  mem : List UInt8
  save_ptr : ℕ

def Strtok.cut (mem : List UInt8) (s : ℕ) (delim : List UInt8) : Strtok :=
  let s := s + strspn (cstr mem s) delim
  if cstr mem s = [] then ⟨none, mem, s⟩
  else
    let stop := s + strcspn (cstr mem s) delim
    if cstr mem stop = [] then ⟨some s, mem, stop⟩ else ⟨some s, mem.set stop 0, stop + 1⟩

/-- `s` is the argument, or the kept pointer where the argument is NULL. -/
def strtok (mem : List UInt8) (s : ℕ) (delim : List UInt8) : Except Fault Strtok :=
  if 0 ∉ mem.drop s then .error .beyond else .ok (Strtok.cut mem s delim)

/-- The call found the first token of the string `l`, if any, and keeps what is behind it. -/
structure Strtok.Cuts (t : Strtok) (delim l : List UInt8) : Prop where
  none_iff : t.token = none ↔ firstToken delim.contains l = []
  token : ∀ s ∈ t.token, 0 ∈ t.mem.drop s ∧ cstr t.mem s = firstToken delim.contains l
  kept : 0 ∈ t.mem.drop t.save_ptr ∧ cstr t.mem t.save_ptr = behindToken delim.contains l

section
variable {mem : List UInt8} {s : ℕ}

theorem zero_mem_drop_add {k : ℕ} (h : 0 ∈ mem.drop s) (hk : k ≤ (cstr mem s).length) :
    0 ∈ mem.drop (s + k) := by
  rw [zero_mem_drop_iff] at h ⊢
  rw [cstr_add hk, List.length_drop, Nat.add_assoc, Nat.add_sub_cancel' hk]
  exact h

theorem zero_mem_drop_set {i : ℕ} (h : 0 ∈ mem.drop s) : 0 ∈ (mem.set i 0).drop s := by
  rw [List.drop_set]
  split_ifs
  · exact h
  · obtain ⟨j, hj, hzero⟩ := List.mem_iff_getElem.1 h
    refine List.mem_iff_getElem.2 ⟨j, by simpa using hj, ?_⟩
    rw [List.getElem_set]
    split_ifs
    · rfl
    · exact hzero

theorem cuts_cut (h : 0 ∈ mem.drop s) (delim : List UInt8) :
    (Strtok.cut mem s delim).Cuts delim (cstr mem s) := by
  have hskip : cstr mem (s + strspn (cstr mem s) delim) = (cstr mem s).dropWhile delim.contains := by
    rw [cstr_add (strspn_le _ _)]
    exact drop_length_takeWhile _ _
  have h0 : 0 ∈ mem.drop (s + strspn (cstr mem s) delim) := zero_mem_drop_add h (strspn_le _ _)
  have hfirst : firstToken delim.contains (cstr mem s) =
      (cstr mem (s + strspn (cstr mem s) delim)).takeWhile fun b => !delim.contains b := by
    rw [firstToken, hskip]
  have hbehind : behindToken delim.contains (cstr mem s) =
      ((cstr mem (s + strspn (cstr mem s) delim)).dropWhile fun b => !delim.contains b).tail := by
    rw [behindToken, hskip]
  have hnil : firstToken delim.contains (cstr mem s) = [] ↔ cstr mem (s + strspn (cstr mem s) delim) = [] := by
    rw [firstToken_eq_nil_iff, hskip, List.dropWhile_eq_nil_iff]
  unfold Strtok.cut
  generalize s + strspn (cstr mem s) delim = p at *
  by_cases hp : cstr mem p = []
  · rw [if_pos hp]
    exact ⟨iff_of_true rfl (hnil.2 hp), nofun, h0, by rw [hbehind, hp]; rfl⟩
  have hstop : cstr mem (p + strcspn (cstr mem p) delim) =
      (cstr mem p).dropWhile fun b => !delim.contains b := by
    rw [cstr_add (strcspn_le _ _)]
    exact drop_length_takeWhile _ _
  have hsome (q : ℕ) : some q = none ↔ firstToken delim.contains (cstr mem s) = [] :=
    iff_of_false (Option.some_ne_none q) (mt hnil.1 hp)
  rw [if_neg hp]
  by_cases hend : cstr mem (p + strcspn (cstr mem p) delim) = []
  · rw [if_pos hend]
    refine ⟨hsome p, fun q hq => ?_, zero_mem_drop_add h0 (strcspn_le _ _), ?_⟩
    · obtain rfl := Option.some.inj hq
      refine ⟨h0, ?_⟩
      have happ := List.takeWhile_append_dropWhile (p := fun b => !delim.contains b) (l := cstr mem p)
      rwa [← hstop, hend, List.append_nil, ← hfirst, eq_comm] at happ
    · rw [hbehind, ← hstop, hend, List.tail_nil]
  · rw [if_neg hend]
    have hlt : strcspn (cstr mem p) delim < (cstr mem p).length := by
      rw [cstr_add (strcspn_le _ _), List.drop_eq_nil_iff, Nat.not_le] at hend
      exact hend
    refine ⟨hsome p, fun q hq => ?_, ?_, ?_⟩
    · obtain rfl := Option.some.inj hq
      refine ⟨zero_mem_drop_set h0, ?_⟩
      rw [cstr_set hlt, hfirst]
      exact take_length_takeWhile _ _
    · have hkept : 0 ∈ mem.drop (p + (strcspn (cstr mem p) delim + 1)) := zero_mem_drop_add h0 hlt
      exact zero_mem_drop_set hkept
    · rw [cstr_set_lt (Nat.lt_succ_self _), cstr_add (List.length_pos_iff.2 hend), List.drop_one, hstop,
        hbehind]

theorem yields_strtok {delim : List UInt8} {P : Strtok → Prop} (h : 0 ∈ mem.drop s) :
    Yields (strtok mem s delim) P ↔ P (Strtok.cut mem s delim) := by
  unfold strtok
  rw [if_neg (not_not.2 h)]
  exact yields_pure

theorem Strtok.Cuts.yields_strcpy {t : Strtok} {delim l : List UInt8} (ht : t.Cuts delim l) {n : ℕ}
    {dst : Block n} {P : Block n → Prop} {Q : List UInt8 → Prop}
    (hPQ : ∀ b : Block n, 0 ∈ b.mem → (P b ↔ Q (cstr b.mem 0))) :
    Yields (strcpy dst t.mem t.token) P ↔
      firstToken delim.contains l ≠ [] ∧ (firstToken delim.contains l).length < n ∧
      Q (firstToken delim.contains l) := by
  rw [Foundation.yields_strcpy hPQ]
  constructor
  · rintro ⟨s, hs, -, hlen, hQ⟩
    have htoken := (ht.token s hs).2
    rw [htoken] at hlen hQ
    refine ⟨fun hnil => ?_, hlen, hQ⟩
    rw [ht.none_iff.2 hnil] at hs
    cases hs
  · rintro ⟨hne, hlen, hQ⟩
    obtain ⟨s, hs⟩ := Option.ne_none_iff_exists'.1 (mt ht.none_iff.1 hne)
    obtain ⟨h0, htoken⟩ := ht.token s hs
    exact ⟨s, hs, h0, by rwa [htoken], by rwa [htoken]⟩

end
end NetDemo.Foundation
