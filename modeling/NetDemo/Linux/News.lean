import NetDemo.Foundation.Stdio

/-! The programs about the file `news.txt`: `stdcpy.c` copies it, `broadcast_sender.c` and
`multicast_sender.c` send it line by line, and their receivers print what comes. -/

namespace NetDemo.Linux.News
open Foundation

def stdcpy (fuel : ℕ) (news : List UInt8) (buf : Block 3) : Option (List UInt8) :=
  (InFile.getsWhile fuel (.fopen news) buf).map List.flatten

def BUF_SIZE : ℕ := 30

/-- `broadcast_sender.c` does not look at the answers of `sendto`; `ok` tells which calls succeed. -/
def broadcastSender (fuel : ℕ) (news : List UInt8) (buf : Block BUF_SIZE) (ok : ℕ → Bool) :
    Option (List (List UInt8)) :=
  (InFile.getsUntilEof fuel (.fopen news) buf).map fun strs =>
    (strs.zipIdx.filter fun p => ok p.2).map Prod.fst

/-- `multicast_sender.c` ends at the first call of `sendto` that fails. -/
def multicastSender (fuel : ℕ) (news : List UInt8) (buf : Block BUF_SIZE) (ok : ℕ → Bool) :
    Option (List (List UInt8)) :=
  (InFile.getsUntilEof fuel (.fopen news) buf).map fun strs =>
    (strs.zipIdx.takeWhile fun p => ok p.2).map Prod.fst

section
variable {n : ℕ}

/-- `recvfrom` takes `cap` bytes of a datagram at most, and a NUL is put behind them. -/
def receive (cap : ℕ) (buf : Block n) (datagram : List UInt8) : Except Fault (Block n) :=
  if h : (datagram.take cap).length < n then .ok (buf.write (datagram.take cap) h) else .error .overflow

def printAll (cap : ℕ) (buf : Block n) : List (List UInt8) → Except Fault (List UInt8)
  | [] => pure []
  | datagram :: datagrams => do
    let buf ← receive cap buf datagram
    let rest ← printAll cap buf datagrams
    return cstr buf.mem 0 ++ rest

end

def broadcastReceiver (buf : Block BUF_SIZE) : List (List UInt8) → Except Fault (List UInt8) :=
  printAll (BUF_SIZE - 1) buf

def MAX_SIZE : ℕ := 1024

/-- `multicast_receiver.c`, whose array has no place for the NUL behind a datagram of full length. -/
def multicastReceiver (recv_buf : Block MAX_SIZE) : List (List UInt8) → Except Fault (List UInt8) :=
  printAll MAX_SIZE recv_buf

/-! ### Copies -/

/-- The copy is right just when the file has no NUL in it. -/
theorem stdcpy_eq_iff {fuel : ℕ} {news : List UInt8} (hfuel : news.length < fuel) (buf : Block 3) :
    stdcpy fuel news buf = some news ↔ 0 ∉ news := by
  rw [stdcpy, InFile.fopen, InFile.getsWhile_eq (by decide) hfuel, Option.map_some, Option.some.injEq,
    flatten_shown_pieces_iff (by decide)]

theorem stdcpy_stops_at_nul : stdcpy 4 [0x61, 0, 0x62] default ≠ some [0x61, 0, 0x62] := by
  rw [ne_eq, stdcpy_eq_iff (by decide)]
  decide

/-! ### What the receivers print -/

section
variable {n cap : ℕ} {datagrams : List (List UInt8)}

theorem printAll_cons (buf : Block n) (d : List UInt8) (ds : List (List UInt8)) :
    printAll cap buf (d :: ds) = if h : (d.take cap).length < n then
      (printAll cap (buf.write (d.take cap) h) ds).map fun rest => shown (d.take cap) ++ rest
    else .error .overflow := by
  by_cases hd : (d.take cap).length < n
  · have hreceive : receive cap buf d = .ok (buf.write (d.take cap) hd) := dif_pos hd
    rw [dif_pos hd, printAll, hreceive]
    cases hrest : printAll cap (buf.write (d.take cap) hd) ds with
    | error e => simp [bind, Except.bind, hrest, Except.map]
    | ok rest =>
      simp only [bind, Except.bind, hrest, Except.map, pure, Except.pure, Block.cstr_write]
      rfl
  · have hreceive : receive cap buf d = .error .overflow := dif_neg hd
    rw [dif_neg hd, printAll, hreceive]
    rfl

theorem printAll_eq (h : ∀ d ∈ datagrams, (d.take cap).length < n) (buf : Block n) :
    printAll cap buf datagrams = .ok (datagrams.map fun d => shown (d.take cap)).flatten := by
  induction datagrams generalizing buf with
  | nil => rfl
  | cons d ds ih =>
    have hd := h d List.mem_cons_self
    rw [printAll_cons, dif_pos hd, ih (fun d hd => h d (List.mem_cons_of_mem _ hd))]
    rfl

theorem printAll_overflow (h : ¬ ∀ d ∈ datagrams, (d.take cap).length < n) (buf : Block n) :
    printAll cap buf datagrams = .error .overflow := by
  induction datagrams generalizing buf with
  | nil => exact absurd (by simp) h
  | cons d ds ih =>
    rw [printAll_cons]
    split_ifs with hd
    · rw [ih fun hds => h (List.forall_mem_cons.mpr ⟨hd, hds⟩)]
      rfl
    · rfl

theorem printAll_ok_iff (buf : Block n) {out : List UInt8} : printAll cap buf datagrams = .ok out ↔
    (∀ d ∈ datagrams, (d.take cap).length < n) ∧ out = (datagrams.map fun d => shown (d.take cap)).flatten := by
  by_cases h : ∀ d ∈ datagrams, (d.take cap).length < n
  · rw [printAll_eq h, Except.ok.injEq, and_iff_right h, eq_comm]
  · rw [printAll_overflow h]
    exact iff_of_false (by simp) fun hno => h hno.1

end

/-- A datagram that fills the array of `multicast_receiver.c` is one too many; shorter ones are printed up
to their first NUL. `broadcast_receiver.c` leaves a place for the NUL, and prints no more than fits. -/
theorem receivers_ok_iff (recv_buf : Block MAX_SIZE) (buf : Block BUF_SIZE)
    (datagrams : List (List UInt8)) :
    (∀ out, multicastReceiver recv_buf datagrams = .ok out ↔
      (∀ d ∈ datagrams, d.length < MAX_SIZE) ∧ out = (datagrams.map shown).flatten) ∧
    broadcastReceiver buf datagrams =
      .ok (datagrams.map fun d => shown (d.take (BUF_SIZE - 1))).flatten := by
  constructor
  · intro out
    have hfits : (∀ d ∈ datagrams, (d.take MAX_SIZE).length < MAX_SIZE) ↔
        ∀ d ∈ datagrams, d.length < MAX_SIZE := by
      refine forall₂_congr fun d _ => ?_
      rw [List.length_take]
      omega
    rw [multicastReceiver, printAll_ok_iff, hfits]
    refine and_congr_right fun hall => ?_
    rw [List.map_congr_left fun d hd => by rw [List.take_of_length_le (hall d hd).le]]
  · refine printAll_eq (fun d _ => ?_) buf
    rw [List.length_take]
    exact (Nat.min_le_left ..).trans_lt (by decide)

/-! ### From the sender to the receivers -/

/-- What the senders send of a file when every call succeeds. -/
def sentOf (news : List UInt8) (buf : Block BUF_SIZE) : List (List UInt8) :=
  (pieces BUF_SIZE news).map shown ++ InFile.again BUF_SIZE news buf

theorem senders_eq {fuel : ℕ} {news : List UInt8} (hfuel : news.length + 1 < fuel) (buf : Block BUF_SIZE) :
    broadcastSender fuel news buf (fun _ => true) = some (sentOf news buf) ∧
      multicastSender fuel news buf (fun _ => true) = some (sentOf news buf) := by
  have hloop := InFile.getsUntilEof_eq (n := BUF_SIZE) (by decide) hfuel buf
  constructor
  · rw [broadcastSender, InFile.fopen, hloop, Option.map_some, List.filter_eq_self.mpr (by simp),
      List.zipIdx_map_fst]
    rfl
  · rw [multicastSender, InFile.fopen, hloop, Option.map_some, List.takeWhile_eq_self_iff.mpr (by simp),
      List.zipIdx_map_fst]
    rfl

theorem exists_last {news : List UInt8} (hne : news ≠ []) :
    ∃ l piece, pieces BUF_SIZE news = l ++ [piece] := by
  rcases List.eq_nil_or_concat (pieces BUF_SIZE news) with hnil | ⟨l, piece, hl⟩
  · have hflat := flatten_pieces (n := BUF_SIZE) (by decide) news
    rw [hnil] at hflat
    exact absurd hflat.symm hne
  · exact ⟨l, piece, by rw [hl, List.concat_eq_append]⟩

theorem sentOf_eq {news : List UInt8} {l : List (List UInt8)} {piece : List UInt8}
    (hl : pieces BUF_SIZE news = l ++ [piece]) (buf : Block BUF_SIZE) :
    sentOf news buf =
      l.map shown ++ [shown piece] ++ if Unfinished BUF_SIZE piece then [] else [shown piece] := by
  rw [sentOf, InFile.again, hl, List.getLast?_append, List.map_append]
  rfl

theorem mem_sentOf {news d : List UInt8} (hne : news ≠ []) {buf : Block BUF_SIZE} (hd : d ∈ sentOf news buf) :
    ∃ piece ∈ pieces BUF_SIZE news, d = shown piece := by
  obtain ⟨l, piece, hl⟩ := exists_last hne
  rw [sentOf_eq hl] at hd
  rw [hl]
  have hmem : d = shown piece ∨ ∃ p ∈ l, shown p = d := by
    split_ifs at hd <;> simp at hd <;> tauto
  rcases hmem with rfl | ⟨p, hp, rfl⟩
  · exact ⟨piece, by simp, rfl⟩
  · exact ⟨p, by simp [hp], rfl⟩

theorem receivers_eq {datagrams : List (List UInt8)} (hlen : ∀ d ∈ datagrams, d.length < BUF_SIZE)
    (buf : Block BUF_SIZE) (recv_buf : Block MAX_SIZE) :
    broadcastReceiver buf datagrams = .ok (datagrams.map shown).flatten ∧
      multicastReceiver recv_buf datagrams = .ok (datagrams.map shown).flatten := by
  have hsizes : BUF_SIZE < MAX_SIZE := by decide
  have hbroad : ∀ d ∈ datagrams, d.take (BUF_SIZE - 1) = d := fun d hd =>
    List.take_of_length_le (Nat.le_pred_of_lt (hlen d hd))
  have hmulti : ∀ d ∈ datagrams, d.take MAX_SIZE = d := fun d hd =>
    List.take_of_length_le ((hlen d hd).le.trans hsizes.le)
  constructor
  · rw [broadcastReceiver, printAll_eq fun d hd => by rw [hbroad d hd]; exact hlen d hd]
    exact congrArg (fun l => Except.ok (List.flatten l)) (List.map_congr_left fun d hd => by rw [hbroad d hd])
  · rw [multicastReceiver, printAll_eq fun d hd => by rw [hmulti d hd]; exact (hlen d hd).trans hsizes]
    exact congrArg (fun l => Except.ok (List.flatten l)) (List.map_congr_left fun d hd => by rw [hmulti d hd])

/-- Without a loss the receivers print the file, and its last piece twice if that is finished. -/
theorem news_printed {fuel : ℕ} {news : List UInt8} (hfuel : news.length + 1 < fuel) (hne : news ≠ [])
    (buf buf' : Block BUF_SIZE) (recv_buf : Block MAX_SIZE) :
    ∃ datagrams out l piece, broadcastSender fuel news buf (fun _ => true) = some datagrams ∧
      multicastSender fuel news buf (fun _ => true) = some datagrams ∧
      broadcastReceiver buf' datagrams = .ok out ∧ multicastReceiver recv_buf datagrams = .ok out ∧
      pieces BUF_SIZE news = l ++ [piece] ∧
      out = ((l ++ [piece]).map shown).flatten ++ (if Unfinished BUF_SIZE piece then [] else shown piece) ∧
      (out = news ↔ 0 ∉ news ∧ Unfinished BUF_SIZE piece) := by
  obtain ⟨l, piece, hl⟩ := exists_last hne
  obtain ⟨hbroad, hmulti⟩ := senders_eq hfuel buf
  have hlen : ∀ d ∈ sentOf news buf, d.length < BUF_SIZE := fun d hd => by
    obtain ⟨p, hp, rfl⟩ := mem_sentOf hne hd
    exact (length_shown_le p).trans_lt (mem_pieces (by decide) news p hp).2
  obtain ⟨hbroad', hmulti'⟩ := receivers_eq hlen buf' recv_buf
  have hout : ((sentOf news buf).map shown).flatten = ((l ++ [piece]).map shown).flatten ++
      if Unfinished BUF_SIZE piece then [] else shown piece := by
    have hstrings : (sentOf news buf).map shown = sentOf news buf := by
      conv_rhs => rw [← List.map_id (sentOf news buf)]
      refine List.map_congr_left fun d hd => ?_
      obtain ⟨p, -, rfl⟩ := mem_sentOf hne hd
      exact shown_eq_self (zero_notMem_shown p)
    rw [hstrings, sentOf_eq hl]
    split_ifs <;> simp
  refine ⟨_, _, l, piece, hbroad, hmulti, hbroad', hmulti', hl, hout, ?_⟩
  have hflat := flatten_pieces (n := BUF_SIZE) (by decide) news
  rw [hl] at hflat
  have hkeep (h0 : 0 ∉ news) : (l ++ [piece]).map shown = l ++ [piece] :=
    map_shown_eq_self (by rwa [hflat])
  constructor
  · intro hnews
    have h0 : 0 ∉ news := by
      rw [← hnews]
      exact zero_notMem_flatten_shown _
    refine ⟨h0, ?_⟩
    by_contra hfinished
    rw [hout, hkeep h0, hflat, if_neg hfinished, List.append_right_eq_self] at hnews
    -- A piece that is shown empty begins with a NUL.
    have hpiece : piece ≠ [] := (mem_pieces (n := BUF_SIZE) (by decide) news piece (by rw [hl]; simp)).1
    have h0piece : 0 ∉ piece := fun h => h0 (by rw [← hflat]; simp [h])
    rw [shown_eq_self h0piece] at hnews
    exact hpiece hnews
  · rintro ⟨h0, hunfinished⟩
    rw [hout, hkeep h0, hflat, if_pos hunfinished, List.append_nil]

/-- Of a file of two lines the second one is printed twice. -/
theorem news_printed_lines : ∃ datagrams out,
    multicastSender 6 [0x61, 0x0a, 0x62, 0x0a] default (fun _ => true) = some datagrams ∧
      multicastReceiver default datagrams = .ok out ∧ out = [0x61, 0x0a, 0x62, 0x0a, 0x62, 0x0a] := by
  obtain ⟨datagrams, out, l, piece, -, hsent, -, hprinted, hl, hout, -⟩ :=
    @news_printed 6 [0x61, 0x0a, 0x62, 0x0a] (by decide) (by decide) default default default
  have hpieces : pieces BUF_SIZE [0x61, 0x0a, 0x62, 0x0a] = [[0x61, 0x0a]] ++ [[0x62, 0x0a]] := by
    have hfirst : firstLine BUF_SIZE [0x61, 0x0a, 0x62, 0x0a] = [0x61, 0x0a] := by decide
    have hsecond : firstLine BUF_SIZE [0x62, 0x0a] = [0x62, 0x0a] := by decide
    have hlast : pieces BUF_SIZE [0x62, 0x0a] = [[0x62, 0x0a]] := by
      rw [pieces_of_ne_nil (by decide) (by decide), hsecond]
      exact congrArg _ (pieces_nil _)
    rw [pieces_of_ne_nil (by decide) (by decide), hfirst]
    exact congrArg _ hlast
  obtain ⟨rfl, hpiece⟩ := List.append_inj' (hpieces.symm.trans hl) rfl
  obtain rfl := List.singleton_inj.mp hpiece
  refine ⟨datagrams, out, hsent, hprinted, ?_⟩
  rw [hout]
  decide

end NetDemo.Linux.News
