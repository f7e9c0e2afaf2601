import NetDemo.Echo.Iocp

/-! The bytes that go through the IOCP echo servers, while any number of threads takes packets in any
order. -/

namespace NetDemo.Echo
open Foundation

/-- What a PER_IO_DATA holds, and, for a PER_HANDLE_DATA, what its READs brought and what was given to
`WSASend`. -/
structure Stream where
  buffer : ℕ → List UInt8
  came : ℕ → List (List UInt8)
  went : ℕ → List (List UInt8)

def Stream.start : Stream := ⟨fun _ => [], fun _ => [], fun _ => []⟩

/-- `bytes` are what a READ brought. -/
def Stream.next (t : Stream) (bytes : List UInt8) : Event → Stream
  | .accept _ => t
  | .dequeue packet bytesTrans =>
    if packet.rwMode = .READ ∧ bytesTrans ≠ 0 then { t with
      buffer := Function.update t.buffer packet.ioInfo bytes
      came := Function.update t.came packet.handleInfo (t.came packet.handleInfo ++ [bytes]) }
    else t
  | .proceed w ok =>
    if w.stage = .sending ∧ ok then { t with
      went := Function.update t.went w.packet.handleInfo
        (t.went w.packet.handleInfo ++ [t.buffer w.packet.ioInfo]) }
    else t

/-- As many bytes came as the packet says. -/
def Fits (bytes : List UInt8) : Event → Prop
  | .dequeue _ bytesTrans => bytes.length = bytesTrans
  | _ => True

instance (bytes : List UInt8) : DecidablePred (Fits bytes)
  | .accept _ => .isTrue trivial
  | .dequeue _ _ => inferInstanceAs (Decidable (_ = _))
  | .proceed _ _ => .isTrue trivial

def echoStep (d : Demo) (s : State × Stream) (e : Event × List UInt8) : Option (State × Stream) :=
  if Fits e.2 e.1 then (s.1.step d e.1).map fun s' => (s', s.2.next e.2 e.1) else none

/-- The thread has bytes of the connection that it has not sent. -/
def Worker.Unsent (w : Worker) (handleInfo : ℕ) : Prop :=
  w.packet.handleInfo = handleInfo ∧ w.packet.rwMode = .READ ∧ w.bytesTrans ≠ 0 ∧
    (w.stage = .dequeued ∨ w.stage = .addressed ∨ w.stage = .sending)

/-- A `WSASend` of the event succeeds. -/
def SendOk : Event × List UInt8 → Prop
  | (.proceed w ok, _) => w.stage = .sending → ok
  | _ => True

instance : DecidablePred SendOk
  | (.proceed _ _, _) => inferInstanceAs (Decidable (_ → _))
  | (.accept _, _) => .isTrue trivial
  | (.dequeue _ _, _) => .isTrue trivial

def State.Idle (s : State) (handleInfo : ℕ) : Prop :=
  handleInfo ∉ s.outstanding.flatMap Packet.reads ∧ handleInfo ∉ s.workers.flatMap Worker.reads

/-- All bytes of a connection were sent, or all but those that a thread has or, where `failed` allows it and
no READ follows them, lost. -/
inductive Keeps (failed : Prop) (s : State) (t : Stream) (handleInfo : ℕ) : Prop
  | clean : t.came handleInfo = t.went handleInfo → (∀ w ∈ s.workers, ¬ w.Unsent handleInfo) →
      Keeps failed s t handleInfo
  | held (w : Worker) : w ∈ s.workers → w.Unsent handleInfo →
      t.came handleInfo = t.went handleInfo ++ [t.buffer w.packet.ioInfo] → Keeps failed s t handleInfo
  | lost (bytes : List UInt8) : failed → t.came handleInfo = t.went handleInfo ++ [bytes] →
      s.Idle handleInfo → Keeps failed s t handleInfo

/-- A thread gets to its `WSASend` with what a READ brought only. -/
def Sorted (w : Worker) : Prop :=
  (w.stage = .addressed → w.packet.rwMode = .READ) ∧
    (w.stage = .sending → w.packet.rwMode = .READ ∧ w.bytesTrans ≠ 0)

structure Ordered (failed : Prop) (s : State) (t : Stream) : Prop where
  tidy : s.Tidy
  sorted : ∀ w ∈ s.workers, Sorted w
  fresh : ∀ handleInfo, s.handles ≤ handleInfo → t.came handleInfo = t.went handleInfo
  keeps : ∀ handleInfo, Keeps failed s t handleInfo

variable {d : Demo} {s s' : State} {t : Stream} {failed : Prop}

theorem Worker.Unsent.reads {w : Worker} {handleInfo : ℕ} (h : w.Unsent handleInfo) :
    w.reads = [handleInfo] ∧ w.holds = [w.packet.ioInfo] := by
  obtain ⟨rfl, hmode, -, hstage | hstage | hstage⟩ := h <;>
    simp [Worker.reads, Worker.holds, Packet.reads, hstage, hmode]

theorem State.Tidy.alone (h : s.Tidy) {w : Worker} (hw : w ∈ s.workers) {handleInfo : ℕ}
    (hreads : w.reads = [handleInfo]) :
    handleInfo ∉ s.outstanding.flatMap Packet.reads ∧
      handleInfo ∉ (s.workers.erase w).flatMap Worker.reads := by
  have hx := h.handles handleInfo
  rw [count_flatMap_of_mem hw Worker.reads, hreads, List.count_singleton_self] at hx
  rw [← List.count_eq_zero, ← List.count_eq_zero]
  split_ifs at hx <;> omega

theorem not_unsent_of_notMem {l : List Worker} {handleInfo : ℕ} (h : handleInfo ∉ l.flatMap Worker.reads) :
    ∀ w ∈ l, ¬ w.Unsent handleInfo := fun w hw hun =>
  h (List.mem_flatMap.mpr ⟨w, hw, by rw [hun.reads.1]; exact List.mem_singleton_self _⟩)

theorem State.Tidy.none_unsent (h : s.Tidy) {p : Packet} (hp : p ∈ s.outstanding) (hmode : p.rwMode = .READ) :
    ¬ s.Idle p.handleInfo ∧ ∀ w ∈ s.workers, ¬ w.Unsent p.handleInfo := by
  have hreads : p.handleInfo ∈ s.outstanding.flatMap Packet.reads :=
    List.mem_flatMap.mpr ⟨p, hp, by simp [Packet.reads, hmode]⟩
  exact ⟨fun hidle => hidle.1 hreads, fun w hw hun => (h.alone hw hun.reads.1).1 hreads⟩

theorem State.Tidy.ioInfo_ne (h : s.Tidy) {p : Packet} (hp : p ∈ s.outstanding) {w : Worker}
    (hw : w ∈ s.workers) (hholds : w.holds = [w.packet.ioInfo]) : w.packet.ioInfo ≠ p.ioInfo := by
  intro heq
  have hx := h.ios p.ioInfo
  rw [count_flatMap_of_mem hp, count_flatMap_of_mem hw Worker.holds, hholds, heq,
    List.count_singleton_self] at hx
  split_ifs at hx <;> omega

theorem State.Tidy.lt_handles (h : s.Tidy) {handleInfo : ℕ}
    (hmem : handleInfo ∈ s.outstanding.flatMap Packet.reads ∨ handleInfo ∈ s.workers.flatMap Worker.reads) :
    handleInfo < s.handles := by
  have hx := h.handles handleInfo
  rw [← List.count_pos_iff, ← List.count_pos_iff] at hmem
  split_ifs at hx with hlt
  · exact hlt
  · omega

/-! ### One connection, as the threads go on -/

section
variable {handleInfo : ℕ} {w w' : Worker}

theorem Keeps.replace (h : Keeps failed s t handleInfo) (hw : w ∈ s.workers)
    (hworkers : s'.workers = w' :: s.workers.erase w) (hout : s'.outstanding = s.outstanding)
    (hreads : w'.reads ⊆ w.reads) (hpacket : w'.packet = w.packet)
    (hunsent : w'.Unsent handleInfo ↔ w.Unsent handleInfo) : Keeps failed s' t handleInfo := by
  cases h with
  | clean hcame hnone =>
    refine .clean hcame fun a ha => ?_
    rw [hworkers] at ha
    rcases List.mem_cons.mp ha with rfl | ha
    · exact mt hunsent.mp (hnone w hw)
    · exact hnone a (List.mem_of_mem_erase ha)
  | held a ha hun hcame =>
    by_cases haw : a = w
    · subst haw
      exact .held w' (by rw [hworkers]; exact List.mem_cons_self) (hunsent.mpr hun) (by rwa [hpacket])
    · refine .held a ?_ hun hcame
      rw [hworkers]
      exact List.mem_cons_of_mem _ ((List.mem_erase_of_ne haw).mpr ha)
  | lost bytes hfailed hcame hidle =>
    refine .lost bytes hfailed hcame ⟨by rw [hout]; exact hidle.1, fun hmem => hidle.2 ?_⟩
    rw [hworkers] at hmem
    obtain ⟨a, ha, hx⟩ := List.mem_flatMap.mp hmem
    rcases List.mem_cons.mp ha with rfl | ha
    · exact List.mem_flatMap.mpr ⟨w, hw, hreads hx⟩
    · exact List.mem_flatMap.mpr ⟨a, List.mem_of_mem_erase ha, hx⟩

theorem Keeps.drop (h : Keeps failed s t handleInfo) (hunsent : ¬ w.Unsent handleInfo)
    (hworkers : s'.workers = s.workers.erase w)
    (hout : handleInfo ∈ s'.outstanding.flatMap Packet.reads →
      handleInfo ∈ s.outstanding.flatMap Packet.reads ∨ handleInfo ∈ s.workers.flatMap Worker.reads) :
    Keeps failed s' t handleInfo := by
  cases h with
  | clean hcame hnone =>
    refine .clean hcame fun a ha => hnone a ?_
    rw [hworkers] at ha
    exact List.mem_of_mem_erase ha
  | held a ha hun hcame =>
    have haw : a ≠ w := fun haw => hunsent (haw ▸ hun)
    exact .held a (by rw [hworkers]; exact (List.mem_erase_of_ne haw).mpr ha) hun hcame
  | lost bytes hfailed hcame hidle =>
    refine .lost bytes hfailed hcame ⟨fun hmem => (hout hmem).elim hidle.1 hidle.2, fun hmem => hidle.2 ?_⟩
    rw [hworkers] at hmem
    obtain ⟨a, ha, hx⟩ := List.mem_flatMap.mp hmem
    exact List.mem_flatMap.mpr ⟨a, List.mem_of_mem_erase ha, hx⟩

theorem Keeps.of_unsent (h : Keeps failed s t handleInfo) (htidy : s.Tidy) (hw : w ∈ s.workers)
    (hunsent : w.Unsent handleInfo) :
    t.came handleInfo = t.went handleInfo ++ [t.buffer w.packet.ioInfo] := by
  cases h with
  | clean hcame hnone => exact absurd hunsent (hnone w hw)
  | held a ha hun hcame =>
    by_cases haw : a = w
    · rwa [haw] at hcame
    · have hrest := not_unsent_of_notMem (htidy.alone hw hunsent.reads.1).2
      exact absurd hun (hrest a ((List.mem_erase_of_ne haw).mpr ha))
  | lost bytes hfailed hcame hidle =>
    refine absurd (List.mem_flatMap.mpr ⟨w, hw, ?_⟩) hidle.2
    rw [hunsent.reads.1]
    exact List.mem_singleton_self _

theorem unsent_sort (hmode : w.stage = .dequeued) : (w.sort d).Unsent handleInfo ↔ w.Unsent handleInfo := by
  unfold Worker.sort Worker.branch
  cases hrw : w.packet.rwMode with
  | WRITE => simp [Worker.Unsent, hrw]
  | READ =>
    rw [if_neg (by decide)]
    by_cases hd : d = .IOCPDemo
    · simp [hd, Worker.Unsent, hmode]
    · by_cases hbytes : w.bytesTrans = 0
      · simp [hd, Worker.Unsent, hbytes]
      · simp [hd, Worker.Unsent, hmode, hbytes]

theorem unsent_branch (hmode : w.stage = .addressed) : w.branch.Unsent handleInfo ↔ w.Unsent handleInfo := by
  unfold Worker.branch
  by_cases hbytes : w.bytesTrans = 0
  · simp [Worker.Unsent, hbytes]
  · simp [Worker.Unsent, hmode, hbytes]

theorem sorted_branch (hread : w.packet.rwMode = .READ) : Sorted w.branch := by
  unfold Worker.branch
  by_cases hbytes : w.bytesTrans = 0
  · simp [Sorted, hbytes]
  · simp [Sorted, hbytes, hread]

theorem sorted_sort (d : Demo) (w : Worker) : Sorted (w.sort d) := by
  unfold Worker.sort
  cases hrw : w.packet.rwMode with
  | WRITE => simp [Sorted]
  | READ =>
    rw [if_neg (by decide)]
    split_ifs
    · simp [Sorted, hrw]
    · exact sorted_branch hrw

end

/-! ### The steps -/

theorem not_unsent_of_stage {w : Worker} (h : w.stage ≠ .dequeued ∧ w.stage ≠ .addressed ∧ w.stage ≠ .sending)
    (handleInfo : ℕ) : ¬ w.Unsent handleInfo := fun hun => by
  obtain ⟨-, -, -, hstage | hstage | hstage⟩ := hun
  · exact h.1 hstage
  · exact h.2.1 hstage
  · exact h.2.2 hstage

theorem Ordered.keeps_sent (h : Ordered failed s t) {w : Worker} (hw : w ∈ s.workers)
    (hstage : w.stage = .sending)
    (hworkers : s'.workers ⊆ { w with stage := .receiving } :: s.workers.erase w)
    (hkept : ∀ a ∈ s.workers, a ≠ w → a ∈ s'.workers)
    (hout : s'.outstanding.flatMap Packet.reads ⊆ s.outstanding.flatMap Packet.reads) (handleInfo : ℕ) :
    Keeps failed s' (t.next [] (.proceed w true)) handleInfo := by
  obtain ⟨hmode, hbytes⟩ := (h.sorted w hw).2 hstage
  have hunsent : w.Unsent w.packet.handleInfo := ⟨rfl, hmode, hbytes, .inr (.inr hstage)⟩
  have hdone : ∀ x, ¬ Worker.Unsent { w with stage := .receiving } x :=
    not_unsent_of_stage (by simp)
  simp only [Stream.next, hstage, and_self, if_true]
  by_cases hx : handleInfo = w.packet.handleInfo
  · subst hx
    have hcame := (h.keeps _).of_unsent h.tidy hw hunsent
    refine .clean (by simp only [Function.update_self]; exact hcame) fun a ha => ?_
    rcases List.mem_cons.mp (hworkers ha) with rfl | ha
    · exact hdone _
    · exact not_unsent_of_notMem (h.tidy.alone hw hunsent.reads.1).2 a ha
  · cases h.keeps handleInfo with
    | clean hcame hnone =>
      refine .clean (by simp only [Function.update_of_ne hx]; exact hcame) fun a ha => ?_
      rcases List.mem_cons.mp (hworkers ha) with rfl | ha
      · exact hdone _
      · exact hnone a (List.mem_of_mem_erase ha)
    | held a ha hun hcame =>
      have haw : a ≠ w := fun haw => hx (haw ▸ hun.1.symm)
      exact .held a (hkept a ha haw) hun (by simp only [Function.update_of_ne hx]; exact hcame)
    | lost bytes hfailed hcame hidle =>
      refine .lost bytes hfailed (by simp only [Function.update_of_ne hx]; exact hcame)
        ⟨fun hmem => hidle.1 (hout hmem), fun hmem => ?_⟩
      obtain ⟨a, ha, hxa⟩ := List.mem_flatMap.mp hmem
      rcases List.mem_cons.mp (hworkers ha) with rfl | ha
      · exact hx (List.mem_singleton.mp hxa)
      · exact hidle.2 (List.mem_flatMap.mpr ⟨a, List.mem_of_mem_erase ha, hxa⟩)

theorem Ordered.keeps_failed (h : Ordered failed s t) {w : Worker} (hw : w ∈ s.workers)
    (hstage : w.stage = .sending) (hfailed : failed) (hworkers : s'.workers = s.workers.erase w)
    (hout : s'.outstanding = s.outstanding)
    (handleInfo : ℕ) : Keeps failed s' t handleInfo := by
  obtain ⟨hmode, hbytes⟩ := (h.sorted w hw).2 hstage
  have hunsent : w.Unsent w.packet.handleInfo := ⟨rfl, hmode, hbytes, .inr (.inr hstage)⟩
  by_cases hx : handleInfo = w.packet.handleInfo
  · subst hx
    obtain ⟨hidle, hrest⟩ := h.tidy.alone hw hunsent.reads.1
    exact .lost _ hfailed ((h.keeps _).of_unsent h.tidy hw hunsent)
      ⟨by rw [hout]; exact hidle, by rw [hworkers]; exact hrest⟩
  · exact (h.keeps handleInfo).drop (fun hun => hx hun.1.symm) hworkers fun hmem =>
      .inl (by rwa [hout] at hmem)

theorem flatMap_reads_write (c : Prop) [Decidable c] (handleInfo ioInfo : ℕ) (l : List Packet) :
    (if c then ⟨handleInfo, ioInfo, .WRITE⟩ :: l else l).flatMap Packet.reads = l.flatMap Packet.reads := by
  split_ifs
  · rfl
  · rfl

theorem Ordered.keeps_proceed (h : Ordered failed s t) {w : Worker} (hw : w ∈ s.workers) {ok : Bool}
    (hsend : d = .IOCPDemo ∨ (w.stage = .sending → ok = true))
    (hfailed : ¬ (w.stage = .sending → ok = true) → failed) (handleInfo : ℕ) :
    Keeps failed ({ s with workers := s.workers.erase w }.proceed d w ok) (t.next [] (.proceed w ok))
      handleInfo := by
  have hk := h.keeps handleInfo
  by_cases hstage : w.stage = .sending
  · cases ok with
    | true =>
      refine h.keeps_sent hw hstage ?_ ?_ ?_ handleInfo
      · simp [State.proceed, hstage]
      · intro a ha haw
        simp only [State.proceed, hstage, true_or, if_true]
        exact List.mem_cons_of_mem _ ((List.mem_erase_of_ne haw).mpr ha)
      · simp only [State.proceed, hstage, flatMap_reads_write]
        exact List.Subset.refl _
    | false =>
      obtain rfl : d = .IOCPDemo := hsend.resolve_right fun hok => Bool.false_ne_true (hok hstage)
      have hnext : t.next [] (.proceed w false) = t := by simp [Stream.next]
      rw [hnext]
      exact h.keeps_failed hw hstage (hfailed fun hok => Bool.false_ne_true (hok hstage))
        (by simp [State.proceed, hstage]) (by simp [State.proceed, hstage]) handleInfo
  · have hnext : t.next [] (.proceed w ok) = t := by simp [Stream.next, hstage]
    rw [hnext]
    cases hs : w.stage <;> simp only [State.proceed, State.use, hs]
    case dequeued =>
      refine hk.replace hw rfl rfl ?_ (State.sort_packet d w) (unsent_sort hs)
      rw [State.reads_sort, Worker.reads, hs]
      exact List.Subset.refl _
    case addressed =>
      refine hk.replace hw rfl rfl ?_ rfl (unsent_branch hs)
      rw [State.reads_branch, Worker.reads, hs]
      exact List.Subset.refl _
    case closing =>
      exact hk.replace hw rfl rfl (List.nil_subset _) rfl (iff_of_false
        (not_unsent_of_stage (by simp) handleInfo) (not_unsent_of_stage (by simp [hs]) handleInfo))
    case freeing => exact hk.drop (not_unsent_of_stage (by simp [hs]) handleInfo) rfl .inl
    case sending => exact absurd hs hstage
    case receiving =>
      refine hk.drop (not_unsent_of_stage (by simp [hs]) handleInfo) rfl fun hmem => ?_
      obtain ⟨p, hp, hx⟩ := List.mem_flatMap.mp hmem
      rcases State.mem_ite_cons hp with rfl | hp
      · exact .inr (List.mem_flatMap.mpr ⟨w, hw, by simpa [Worker.reads, hs, Packet.reads] using hx⟩)
      · exact .inl (List.mem_flatMap.mpr ⟨p, hp, hx⟩)

theorem Ordered.sorted_proceed (h : Ordered failed s t) {w : Worker} (hw : w ∈ s.workers) (ok : Bool) :
    ∀ a ∈ ({ s with workers := s.workers.erase w }.proceed d w ok).workers, Sorted a := by
  have hrest : ∀ a ∈ s.workers.erase w, Sorted a := fun a ha => h.sorted a (List.mem_of_mem_erase ha)
  cases hs : w.stage <;> simp only [State.proceed, State.use, hs]
  case dequeued => exact List.forall_mem_cons.mpr ⟨sorted_sort d w, hrest⟩
  case addressed => exact List.forall_mem_cons.mpr ⟨sorted_branch ((h.sorted w hw).1 hs), hrest⟩
  case closing => exact List.forall_mem_cons.mpr ⟨by simp [Sorted], hrest⟩
  case freeing | receiving => exact hrest
  case sending =>
    intro a ha
    rcases State.mem_ite_cons ha with rfl | ha
    · simp [Sorted]
    · exact hrest a ha

theorem Ordered.proceed (h : Ordered failed s t) {w : Worker} (hw : w ∈ s.workers) {ok : Bool}
    (hsend : d = .IOCPDemo ∨ (w.stage = .sending → ok = true))
    (hfailed : ¬ (w.stage = .sending → ok = true) → failed) (bytes : List UInt8) :
    Ordered failed ({ s with workers := s.workers.erase w }.proceed d w ok)
      (t.next bytes (.proceed w ok)) where
  tidy := h.tidy.proceed ok hw
  sorted := h.sorted_proceed hw ok
  fresh handleInfo hle := by
    have hhandles : ({ s with workers := s.workers.erase w }.proceed d w ok).handles = s.handles := by
      cases hs : w.stage <;> simp [State.proceed, State.use, hs]
    rw [hhandles] at hle
    have hfresh := h.fresh handleInfo hle
    simp only [Stream.next]
    split_ifs with hc
    · have hne : handleInfo ≠ w.packet.handleInfo := by
        rintro rfl
        have hmem : w.packet.handleInfo ∈ s.workers.flatMap Worker.reads :=
          List.mem_flatMap.mpr ⟨w, hw, by simp [Worker.reads, hc.1]⟩
        exact absurd (h.tidy.lt_handles (.inr hmem)) (Nat.not_lt.mpr hle)
      simp only [Function.update_of_ne hne]
      exact hfresh
    · exact hfresh
  keeps := h.keeps_proceed hw hsend hfailed

theorem Ordered.keeps_dequeue (h : Ordered failed s t) {packet : Packet} (hp : packet ∈ s.outstanding)
    (bytesTrans : ℕ) (bytes : List UInt8) (idle handleInfo : ℕ) :
    Keeps failed { s with
      outstanding := s.outstanding.erase packet
      workers := ⟨packet, bytesTrans, .dequeued⟩ :: s.workers
      idle := idle } (t.next bytes (.dequeue packet bytesTrans)) handleInfo := by
  have hrest {x : ℕ} (hx : x ∈ (s.outstanding.erase packet).flatMap Packet.reads) :
      x ∈ s.outstanding.flatMap Packet.reads := by
    obtain ⟨p, hp, hx⟩ := List.mem_flatMap.mp hx
    exact List.mem_flatMap.mpr ⟨p, List.mem_of_mem_erase hp, hx⟩
  have hidle (hidle : s.Idle handleInfo) : State.Idle { s with
      outstanding := s.outstanding.erase packet
      workers := ⟨packet, bytesTrans, .dequeued⟩ :: s.workers
      idle := idle } handleInfo := by
    refine ⟨fun hmem => hidle.1 (hrest hmem), fun hmem => ?_⟩
    rw [List.flatMap_cons, List.mem_append] at hmem
    exact hmem.elim (fun hx => hidle.1 (List.mem_flatMap.mpr ⟨packet, hp, hx⟩)) hidle.2
  by_cases hread : packet.rwMode = .READ ∧ bytesTrans ≠ 0
  · obtain ⟨hmode, hbytes⟩ := hread
    obtain ⟨hbusy, hnone⟩ := h.tidy.none_unsent hp hmode
    simp only [Stream.next, hmode, hbytes, ne_eq, not_false_eq_true, and_self, if_true]
    by_cases hx : handleInfo = packet.handleInfo
    · subst hx
      cases h.keeps packet.handleInfo with
      | clean hcame hnone' =>
        refine .held ⟨packet, bytesTrans, .dequeued⟩ List.mem_cons_self ⟨rfl, hmode, hbytes, .inl rfl⟩ ?_
        simp only [Function.update_self, hcame]
      | held a ha hun hcame => exact absurd hun (hnone a ha)
      | lost bytes' hfailed hcame hidle' => exact absurd hidle' hbusy
    · have hnew : ¬ Worker.Unsent ⟨packet, bytesTrans, .dequeued⟩ handleInfo := fun hun => hx hun.1.symm
      cases h.keeps handleInfo with
      | clean hcame hnone' =>
        exact .clean (by simp only [Function.update_of_ne hx]; exact hcame)
          (List.forall_mem_cons.mpr ⟨hnew, hnone'⟩)
      | held a ha hun hcame =>
        refine .held a (List.mem_cons_of_mem _ ha) hun ?_
        simp only [Function.update_of_ne hx, Function.update_of_ne (h.tidy.ioInfo_ne hp ha hun.reads.2)]
        exact hcame
      | lost bytes' hfailed hcame hidle' =>
        exact .lost bytes' hfailed (by simp only [Function.update_of_ne hx]; exact hcame) (hidle hidle')
  · have hnext : t.next bytes (.dequeue packet bytesTrans) = t := if_neg hread
    have hnew : ¬ Worker.Unsent ⟨packet, bytesTrans, .dequeued⟩ handleInfo := fun hun =>
      hread ⟨hun.2.1, hun.2.2.1⟩
    rw [hnext]
    cases h.keeps handleInfo with
    | clean hcame hnone => exact .clean hcame (List.forall_mem_cons.mpr ⟨hnew, hnone⟩)
    | held a ha hun hcame => exact .held a (List.mem_cons_of_mem _ ha) hun hcame
    | lost bytes' hfailed hcame hidle' => exact .lost bytes' hfailed hcame (hidle hidle')

theorem Ordered.start (failed : Prop) (threads : ℕ) : Ordered failed (.start threads) .start where
  tidy := .start threads
  sorted _ hw := absurd hw List.not_mem_nil
  fresh _ _ := rfl
  keeps _ := .clean rfl fun _ hw => absurd hw List.not_mem_nil

theorem Ordered.accept (h : Ordered failed s t) {ok : Bool} (hs : s.step d (.accept ok) = some s') :
    Ordered failed s' t where
  tidy := h.tidy.step hs
  sorted := by
    obtain ⟨-, hs⟩ := Option.ite_none_right_eq_some.mp hs
    rw [← Option.some.inj hs]
    exact h.sorted
  fresh handleInfo hle := by
    obtain ⟨-, hs⟩ := Option.ite_none_right_eq_some.mp hs
    rw [← Option.some.inj hs] at hle
    exact h.fresh handleInfo (Nat.le_trans (Nat.le_succ _) hle)
  keeps handleInfo := by
    obtain ⟨-, hs⟩ := Option.ite_none_right_eq_some.mp hs
    obtain rfl := Option.some.inj hs
    cases h.keeps handleInfo with
    | clean hcame hnone => exact .clean hcame hnone
    | held a ha hun hcame => exact .held a ha hun hcame
    | lost bytes hfailed hcame hidle =>
      refine .lost bytes hfailed hcame ⟨fun hmem => ?_, hidle.2⟩
      obtain ⟨p, hp, hx⟩ := List.mem_flatMap.mp hmem
      rcases State.mem_ite_cons hp with rfl | hp
      · -- what was lost came to a connection that was there already
        obtain rfl : handleInfo = s.handles := by simpa [Packet.reads] using hx
        have hsame := h.fresh s.handles (Nat.le_refl _)
        rw [hcame] at hsame
        exact List.cons_ne_nil _ _ (List.append_right_eq_self.mp hsame)
      · exact hidle.1 (List.mem_flatMap.mpr ⟨p, hp, hx⟩)

theorem Ordered.dequeue (h : Ordered failed s t) {packet : Packet} {bytesTrans : ℕ} (bytes : List UInt8)
    (hs : s.step d (.dequeue packet bytesTrans) = some s') :
    Ordered failed s' (t.next bytes (.dequeue packet bytesTrans)) := by
  have htidy := h.tidy.step hs
  obtain ⟨⟨hp, -⟩, hs⟩ := Option.ite_none_right_eq_some.mp hs
  obtain rfl := Option.some.inj hs
  refine ⟨htidy, List.forall_mem_cons.mpr ⟨by simp [Sorted], h.sorted⟩, fun handleInfo hle => ?_,
    h.keeps_dequeue hp bytesTrans bytes _⟩
  have hfresh := h.fresh handleInfo hle
  simp only [Stream.next]
  split_ifs with hc
  · have hne : handleInfo ≠ packet.handleInfo := by
      rintro rfl
      have hmem : packet.handleInfo ∈ s.outstanding.flatMap Packet.reads :=
        List.mem_flatMap.mpr ⟨packet, hp, by simp [Packet.reads, hc.1]⟩
      exact absurd (h.tidy.lt_handles (.inl hmem)) (Nat.not_lt.mpr hle)
    simp only [Function.update_of_ne hne]
    exact hfresh
  · exact hfresh

theorem Ordered.step {x x' : State × Stream} {e : Event × List UInt8} (h : Ordered failed x.1 x.2)
    (hsend : d = .IOCPDemo ∨ SendOk e) (hfailed : ¬ SendOk e → failed) (hs : echoStep d x e = some x') :
    Ordered failed x'.1 x'.2 := by
  obtain ⟨-, hmap⟩ := Option.ite_none_right_eq_some.mp hs
  obtain ⟨s', hstep, rfl⟩ := Option.map_eq_some_iff.mp hmap
  obtain ⟨e, bytes⟩ := e
  cases e with
  | accept ok => exact h.accept hstep
  | dequeue packet bytesTrans => exact h.dequeue bytes hstep
  | proceed w ok =>
    obtain ⟨hw, hproceed⟩ := Option.ite_none_right_eq_some.mp hstep
    obtain rfl := Option.some.inj hproceed
    exact h.proceed hw hsend hfailed bytes

theorem Keeps.behind {handleInfo : ℕ} (h : Keeps failed s t handleInfo) :
    t.went handleInfo <+: t.came handleInfo ∧
    (t.came handleInfo).length ≤ (t.went handleInfo).length + 1 := by
  cases h with
  | clean hcame hnone =>
    rw [hcame]
    exact ⟨List.prefix_rfl, Nat.le_succ _⟩
  | held w hw hun hcame =>
    rw [hcame, List.length_append]
    exact ⟨List.prefix_append _ _, Nat.le_refl _⟩
  | lost bytes hfailed hcame hidle =>
    rw [hcame, List.length_append]
    exact ⟨List.prefix_append _ _, Nat.le_refl _⟩

/-- With any number of threads, and whatever fails, IOCPDemo sends to every client what came from it, in order
and with one READ missing at most; so does IOCPEchoServ as long as no `WSASend` fails. Without such a
failure nothing is missing once no thread has bytes of the client. -/
theorem echo_in_order {threads : ℕ} {events : List (Event × List UInt8)}
    (hsend : d = .IOCPDemo ∨ ∀ e ∈ events, SendOk e)
    (hrun : run (echoStep d) (.start threads, .start) events = some (s, t)) (handleInfo : ℕ) :
    (t.went handleInfo <+: t.came handleInfo ∧ (t.came handleInfo).length ≤ (t.went handleInfo).length + 1) ∧
      ((∀ e ∈ events, SendOk e) → (∀ w ∈ s.workers, ¬ w.Unsent handleInfo) →
        t.came handleInfo = t.went handleInfo) := by
  have hmeets : Meets (echoStep d) (fun _ e => (d = .IOCPDemo ∨ SendOk e) ∧
      (¬ SendOk e → ∃ e ∈ events, ¬ SendOk e)) (.start threads, .start) events :=
    meets_of_forall_mem (fun e he => ⟨hsend.imp_right fun hall => hall e he, fun hno => ⟨e, he, hno⟩⟩) _
  have hordered := run_invariant (fun x : State × Stream => Ordered (∃ e ∈ events, ¬ SendOk e) x.1 x.2)
    (.start _ threads) (fun _ _ _ h hok hs => h.step hok.1 hok.2 hs) hmeets hrun
  refine ⟨(hordered.keeps handleInfo).behind, fun hall hnone => ?_⟩
  cases hordered.keeps handleInfo with
  | clean hcame _ => exact hcame
  | held w hw hun _ => exact absurd hun (hnone w hw)
  | lost bytes hfailed _ _ =>
    obtain ⟨e, he, hno⟩ := hfailed
    exact absurd (hall e he) hno

theorem echo_in_order_twice : ∃ s t, run (echoStep .IOCPDemo) (.start 2, .start)
    (((Event.accept true :: State.handle .IOCPDemo ⟨0, 0, .READ⟩ 1).map (·, [0x61])) ++
      (State.handle .IOCPDemo ⟨0, 1, .READ⟩ 1).map (·, [0x62])) = some (s, t) ∧
    t.went 0 <+: t.came 0 ∧ t.came 0 = [[0x61], [0x62]] :=
  ⟨_, _, rfl, (@echo_in_order .IOCPDemo _ _ 2
    (((Event.accept true :: State.handle .IOCPDemo ⟨0, 0, .READ⟩ 1).map (·, [0x61])) ++
      (State.handle .IOCPDemo ⟨0, 1, .READ⟩ 1).map (·, [0x62])) (.inl rfl) rfl 0).1.1, rfl⟩

/-- IOCPEchoServ goes on behind a `WSASend` that failed. -/
theorem not_in_order_failed : ∃ s t, run (echoStep .IOCPEchoServ) (.start 1, .start)
    (([.accept true, .dequeue ⟨0, 0, .READ⟩ 1, .proceed ⟨⟨0, 0, .READ⟩, 1, .dequeued⟩ true,
        .proceed ⟨⟨0, 0, .READ⟩, 1, .sending⟩ false,
        .proceed ⟨⟨0, 0, .READ⟩, 1, .receiving⟩ true].map (·, [0x61])) ++
      (State.handle .IOCPEchoServ ⟨0, 1, .READ⟩ 1).map (·, [0x62])) = some (s, t) ∧
    t.came 0 = [[0x61], [0x62]] ∧ t.went 0 = [[0x62]] :=
  ⟨_, _, rfl, rfl, rfl⟩

end NetDemo.Echo
