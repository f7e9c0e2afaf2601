import NetDemo.Foundation.Arrays
import NetDemo.Foundation.Transition
import Mathlib.Data.List.TakeDrop

/-! The echo server with completion routines: one thread that accepts connections and, while it sleeps, runs
the routines of all of them in any order. -/

namespace NetDemo.Echo.CmplRou
open Foundation

def BUF_SIZE : ℕ := 1024

inductive Op
  | recv
  | send
  deriving DecidableEq

/-- A PER_IO_DATA with its WSAOVERLAPPED, which are freed together. -/
structure PerIoData where
  buf : List UInt8
  /-- `wsaBuf.len` -/
  len : ℕ
  /-- The operation that the system has in hand. -/
  pending : Option Op
  /-- How often the two were freed, and `hClntSock` was closed. -/
  freed : ℕ
  closed : ℕ
  /-- A routine was called with what was freed. -/
  late : Bool
  /-- What came from the client, one entry for every read, and what went to it. -/
  reads : List (List UInt8)
  sent : List UInt8

/-- What `malloc` gives in `main`; `posted` tells whether `WSARecv` succeeds, which nobody looks at. -/
def PerIoData.new (buf : Block BUF_SIZE) (posted : Bool) : PerIoData :=
  ⟨buf.mem, BUF_SIZE, if posted then some .recv else none, 0, 0, false, [], []⟩

/-- `dwError` is not looked at: an error comes with no bytes. -/
def ReadCompRoutine (hbInfo : PerIoData) (data : List UInt8) (posted : Bool) : PerIoData :=
  let hbInfo := { hbInfo with
    buf := data ++ hbInfo.buf.drop data.length
    late := hbInfo.late || decide (0 < hbInfo.freed) }
  if data.length = 0 then { hbInfo with
    pending := none
    closed := hbInfo.closed + 1
    freed := hbInfo.freed + 1 }
  else { hbInfo with
    len := data.length
    pending := if posted then some .send else none
    reads := hbInfo.reads ++ [data] }

/-- `szSendBytes` is not looked at, and `wsaBuf` is taken as it is. -/
def WriteCompRoutine (hbInfo : PerIoData) (szSendBytes : ℕ) (posted : Bool) : PerIoData := { hbInfo with
  late := hbInfo.late || decide (0 < hbInfo.freed)
  pending := if posted then some .recv else none
  sent := hbInfo.sent ++ (hbInfo.buf.take hbInfo.len).take szSendBytes }

/-- What the system did, and whether the next operation can be posted. -/
inductive Completion
  | read (data : List UInt8) (posted : Bool)
  | write (szSendBytes : ℕ) (posted : Bool)

def PerIoData.complete (hbInfo : PerIoData) : Completion → Option PerIoData
  | .read data posted =>
    if hbInfo.pending = some .recv ∧ data.length ≤ hbInfo.len then some (ReadCompRoutine hbInfo data posted)
    else none
  | .write szSendBytes posted =>
    if hbInfo.pending = some .send ∧ szSendBytes ≤ hbInfo.len then
      some (WriteCompRoutine hbInfo szSendBytes posted)
    else none

inductive Event
  | accept (buf : Block BUF_SIZE) (posted : Bool)
  | completed (i : ℕ) (c : Completion)

def step (s : List PerIoData) : Event → Option (List PerIoData)
  | .accept buf posted => some (s ++ [.new buf posted])
  | .completed i c => s[i]?.bind fun hbInfo => (hbInfo.complete c).map fun hbInfo => s.set i hbInfo

/-! ### What is said of the server -/

def PerIoData.underway (hbInfo : PerIoData) : List UInt8 :=
  if hbInfo.pending = some .send then hbInfo.buf.take hbInfo.len else []

/-- Everything that came from a client went back to it, or is on its way. -/
def Echoed (s : List PerIoData) : Prop := ∀ hbInfo ∈ s, hbInfo.reads.flatten = hbInfo.sent ++ hbInfo.underway

/-- A send can be posted, and takes all bytes. -/
def Full (s : List PerIoData) : Event → Prop
  | .accept .. => True
  | .completed _ (.read data posted) => data ≠ [] → posted
  | .completed i (.write szSendBytes _) => ∀ hbInfo ∈ s[i]?, hbInfo.len ≤ szSendBytes

/-- Every connection is waited for, or it was closed and freed. -/
def Attended (s : List PerIoData) : Prop := ∀ hbInfo ∈ s, hbInfo.pending.isSome ∨ hbInfo.freed = 1

def Posted (_ : List PerIoData) : Event → Prop
  | .accept _ posted => posted
  | .completed _ (.read data posted) => data ≠ [] → posted
  | .completed _ (.write _ posted) => posted

/-- What holds of every connection: nothing is freed twice, or used when it is freed, and no read was shorter
than the one that is asked for now. -/
structure Valid (hbInfo : PerIoData) : Prop where
  buf : hbInfo.buf.length = BUF_SIZE
  len : hbInfo.len ≤ BUF_SIZE
  late : hbInfo.late = false
  closed : hbInfo.closed = hbInfo.freed
  freed : hbInfo.freed ≤ 1
  pending : hbInfo.pending.isSome → hbInfo.freed = 0
  reads : hbInfo.reads.Pairwise fun a b => b.length ≤ a.length
  least : ∀ data ∈ hbInfo.reads, hbInfo.len ≤ data.length

variable {s s' : List PerIoData} {hbInfo hbInfo' : PerIoData}

theorem Valid.new (buf : Block BUF_SIZE) (posted : Bool) : Valid (.new buf posted) :=
  ⟨buf.length_eq, le_rfl, rfl, rfl, Nat.zero_le 1, fun _ => rfl, .nil, fun _ h => absurd h List.not_mem_nil⟩

theorem complete_cases {c : Completion} (h : hbInfo.complete c = some hbInfo') :
    (∃ data posted, c = .read data posted ∧ hbInfo.pending = some .recv ∧ data.length ≤ hbInfo.len ∧
        hbInfo' = ReadCompRoutine hbInfo data posted) ∨
      ∃ szSendBytes posted, c = .write szSendBytes posted ∧ hbInfo.pending = some .send ∧
        szSendBytes ≤ hbInfo.len ∧ hbInfo' = WriteCompRoutine hbInfo szSendBytes posted := by
  cases c with
  | read data posted =>
    obtain ⟨hc, heq⟩ := Option.ite_none_right_eq_some.mp h
    exact .inl ⟨data, posted, rfl, hc.1, hc.2, (Option.some.inj heq).symm⟩
  | write szSendBytes posted =>
    obtain ⟨hc, heq⟩ := Option.ite_none_right_eq_some.mp h
    exact .inr ⟨szSendBytes, posted, rfl, hc.1, hc.2, (Option.some.inj heq).symm⟩

theorem step_cases {e : Event} (h : step s e = some s') :
    (∃ buf posted, e = .accept buf posted ∧ s' = s ++ [.new buf posted]) ∨
      ∃ i c hbInfo hbInfo', e = .completed i c ∧ s[i]? = some hbInfo ∧ hbInfo.complete c = some hbInfo' ∧
        s' = s.set i hbInfo' := by
  cases e with
  | accept buf posted => exact .inl ⟨buf, posted, rfl, (Option.some.inj h).symm⟩
  | completed i c =>
    obtain ⟨hbInfo, hi, h⟩ := Option.bind_eq_some_iff.mp h
    obtain ⟨hbInfo', hc, rfl⟩ := Option.map_eq_some_iff.mp h
    exact .inr ⟨i, c, hbInfo, hbInfo', rfl, hi, hc, rfl⟩

theorem Valid.read (h : Valid hbInfo) (hpending : hbInfo.pending = some .recv) {data : List UInt8}
    (hlen : data.length ≤ hbInfo.len) (posted : Bool) : Valid (ReadCompRoutine hbInfo data posted) := by
  have hfreed := h.pending (by rw [hpending]; rfl)
  have hlate : (hbInfo.late || decide (0 < hbInfo.freed)) = false := by rw [h.late, hfreed]; rfl
  have hbuf : (data ++ hbInfo.buf.drop data.length).length = BUF_SIZE := by
    have hle := h.len
    rw [List.length_append, List.length_drop, h.buf]
    omega
  by_cases hzero : data.length = 0
  · simp only [ReadCompRoutine, if_pos hzero]
    exact ⟨hbuf, h.len, hlate, by simp only [h.closed], by simp only [hfreed]; exact le_rfl,
      fun hsome => absurd hsome Bool.false_ne_true, h.reads, h.least⟩
  · simp only [ReadCompRoutine, if_neg hzero]
    refine ⟨hbuf, hlen.trans h.len, hlate, h.closed, h.freed, fun _ => hfreed, ?_, ?_⟩
    · refine List.pairwise_append.mpr ⟨h.reads, List.pairwise_singleton _ _, fun a ha b hb => ?_⟩
      rw [List.mem_singleton.mp hb]
      exact hlen.trans (h.least a ha)
    · intro a ha
      rcases List.mem_append.mp ha with ha | ha
      · exact hlen.trans (h.least a ha)
      · rw [List.mem_singleton.mp ha]

theorem Valid.write (h : Valid hbInfo) (hpending : hbInfo.pending = some .send) (szSendBytes : ℕ)
    (posted : Bool) : Valid (WriteCompRoutine hbInfo szSendBytes posted) := by
  have hfreed := h.pending (by rw [hpending]; rfl)
  have hlate : (hbInfo.late || decide (0 < hbInfo.freed)) = false := by rw [h.late, hfreed]; rfl
  exact ⟨h.buf, h.len, hlate, h.closed, h.freed, fun _ => hfreed, h.reads, h.least⟩

theorem Valid.complete (h : Valid hbInfo) {c : Completion} (hc : hbInfo.complete c = some hbInfo') :
    Valid hbInfo' := by
  obtain ⟨data, posted, -, hpending, hlen, rfl⟩ |
    ⟨szSendBytes, posted, -, hpending, -, rfl⟩ := complete_cases hc
  · exact h.read hpending hlen posted
  · exact h.write hpending szSendBytes posted

theorem forall_step {P : PerIoData → Prop} {e : Event} (hs : ∀ hbInfo ∈ s, P hbInfo) (h : step s e = some s')
    (hnew : ∀ buf posted, e = .accept buf posted → P (.new buf posted))
    (hcomplete : ∀ i c hbInfo hbInfo', e = .completed i c → s[i]? = some hbInfo → P hbInfo →
      hbInfo.complete c = some hbInfo' → P hbInfo') : ∀ hbInfo ∈ s', P hbInfo := by
  obtain ⟨buf, posted, rfl, rfl⟩ | ⟨i, c, hbInfo, hbInfo', rfl, hi, hc, rfl⟩ := step_cases h
  · intro a ha
    rcases List.mem_append.mp ha with ha | ha
    · exact hs a ha
    · rw [List.mem_singleton.mp ha]
      exact hnew buf posted rfl
  · intro a ha
    rcases List.mem_or_eq_of_mem_set ha with ha | rfl
    · exact hs a ha
    · exact hcomplete i c hbInfo a rfl hi (hs hbInfo (List.mem_of_getElem? hi)) hc

theorem valid_step {e : Event} (hs : ∀ hbInfo ∈ s, Valid hbInfo) (h : step s e = some s') :
    ∀ hbInfo ∈ s', Valid hbInfo :=
  forall_step hs h (fun buf posted _ => .new buf posted) fun _ _ _ _ _ _ hvalid hc => hvalid.complete hc

theorem valid_run {events : List Event} (h : run step [] events = some s) : ∀ hbInfo ∈ s, Valid hbInfo :=
  run_preserves (fun s => ∀ hbInfo ∈ s, Valid hbInfo) (fun _ h => absurd h List.not_mem_nil)
    (fun _ _ _ hs hstep => valid_step hs hstep) h

/-! ### The bytes -/

theorem read_echoed (h : hbInfo.reads.flatten = hbInfo.sent ++ hbInfo.underway)
    (hpending : hbInfo.pending = some .recv) (data : List UInt8) (posted : Bool) :
    (ReadCompRoutine hbInfo data posted).reads.flatten =
        (ReadCompRoutine hbInfo data posted).sent ++ (ReadCompRoutine hbInfo data posted).underway ↔
      (data ≠ [] → posted) := by
  have hnone : hbInfo.underway = [] := by simp [PerIoData.underway, hpending]
  rw [hnone, List.append_nil] at h
  by_cases hzero : data.length = 0
  · simp only [ReadCompRoutine, if_pos hzero]
    refine iff_of_true ?_ fun hne => absurd (List.length_eq_zero_iff.mp hzero) hne
    simp [PerIoData.underway, h]
  · have hne : data ≠ [] := fun heq => hzero (by rw [heq]; rfl)
    simp only [ReadCompRoutine, if_neg hzero]
    cases posted with
    | true => simp [PerIoData.underway, h]
    | false => simp [PerIoData.underway, h, hne]

theorem write_echoed (hvalid : Valid hbInfo) (h : hbInfo.reads.flatten = hbInfo.sent ++ hbInfo.underway)
    (hpending : hbInfo.pending = some .send) (szSendBytes : ℕ) (posted : Bool) :
    (WriteCompRoutine hbInfo szSendBytes posted).reads.flatten =
        (WriteCompRoutine hbInfo szSendBytes posted).sent ++
          (WriteCompRoutine hbInfo szSendBytes posted).underway ↔
      hbInfo.len ≤ szSendBytes := by
  have hsend : hbInfo.underway = hbInfo.buf.take hbInfo.len := if_pos hpending
  have hdone : (WriteCompRoutine hbInfo szSendBytes posted).underway = [] := by
    cases posted <;> simp [PerIoData.underway, WriteCompRoutine]
  have hlen : (hbInfo.buf.take hbInfo.len).length = hbInfo.len := by
    rw [List.length_take, hvalid.buf]
    exact Nat.min_eq_left hvalid.len
  rw [hdone, List.append_nil]
  simp only [WriteCompRoutine]
  rw [h, hsend, List.append_cancel_left_eq, eq_comm, List.take_eq_self_iff, hlen]

theorem echoed_step {e : Event} (hs : ∀ hbInfo ∈ s, Valid hbInfo) (h : Echoed s)
    (hstep : step s e = some s') : Echoed s' ↔ Full s e := by
  constructor
  · intro h'
    obtain ⟨buf, posted, rfl, -⟩ | ⟨i, c, hbInfo, hbInfo', rfl, hi, hc, rfl⟩ := step_cases hstep
    · exact trivial
    · obtain ⟨hlt, -⟩ := List.getElem?_eq_some_iff.mp hi
      have hmem := List.mem_of_getElem? hi
      have hthis := h' hbInfo' (List.mem_of_getElem? (List.getElem?_set_self hlt))
      obtain ⟨data, posted, rfl, hpending, -, rfl⟩ |
    ⟨szSendBytes, posted, rfl, hpending, -, rfl⟩ := complete_cases hc
      · exact (read_echoed (h hbInfo hmem) hpending data posted).mp hthis
      · intro a ha
        obtain rfl := Option.some.inj (hi.symm.trans ha)
        exact (write_echoed (hs _ hmem) (h _ hmem) hpending szSendBytes posted).mp hthis
  · intro hfull
    suffices hall : ∀ a ∈ s', Valid a ∧ a.reads.flatten = a.sent ++ a.underway from fun a ha => (hall a ha).2
    refine forall_step (fun a ha => ⟨hs a ha, h a ha⟩) hstep (fun buf posted _ => ⟨.new buf posted, ?_⟩)
      fun i c a a' he hi ha hc => ⟨ha.1.complete hc, ?_⟩
    · cases posted <;> simp [PerIoData.new, PerIoData.underway]
    · subst he
      obtain ⟨data, posted, rfl, hpending, -, rfl⟩ |
    ⟨szSendBytes, posted, rfl, hpending, -, rfl⟩ := complete_cases hc
      · exact (read_echoed ha.2 hpending data posted).mpr hfull
      · exact (write_echoed ha.1 ha.2 hpending szSendBytes posted).mpr (hfull a hi)

/-- In any run with any number of clients: what comes from a client goes back to it, always, if and only if
every send can be posted and takes all bytes. -/
theorem echoed_iff {events : List Event} (hrun : run step [] events = some s) :
    Always step Echoed [] events ↔ Meets step Full [] events :=
  always_iff_meets_of_run (fun s => (∀ hbInfo ∈ s, Valid hbInfo) ∧ Echoed s) (fun _ h => h.2)
    (fun _ _ _ h hok hstep => ⟨valid_step h.1 hstep, (echoed_step h.1 h.2 hstep).mpr hok⟩)
    (fun _ _ _ h hno hstep => mt (echoed_step h.1 h.2 hstep).mp hno)
    ⟨fun _ h => absurd h List.not_mem_nil, fun _ h => absurd h List.not_mem_nil⟩ hrun

/-- A send of two bytes that takes one. -/
theorem not_echoed_partial : ∃ s, run step []
    [.accept default true, .completed 0 (.read [0x68, 0x69] true), .completed 0 (.write 1 true)] = some s ∧
    ¬ Always step Echoed []
      [.accept default true, .completed 0 (.read [0x68, 0x69] true), .completed 0 (.write 1 true)] := by
  refine ⟨_, rfl, ?_⟩
  rw [@echoed_iff _
    [.accept default true, .completed 0 (.read [0x68, 0x69] true), .completed 0 (.write 1 true)] rfl]
  rintro ⟨-, hfull⟩
  have hlen := ((hfull _ rfl).2 _ rfl).1 _ rfl
  exact absurd hlen (by decide)

/-! ### The reads -/

/-- `wsaBuf.len` is never set back: no read of a client is longer than any read before it. -/
theorem reads_shrink {events : List Event} (hrun : run step [] events = some s) :
    ∀ hbInfo ∈ s, hbInfo.reads.Pairwise (fun a b => b.length ≤ a.length) ∧
      ∀ data ∈ hbInfo.reads, hbInfo.len ≤ data.length := fun hbInfo hmem =>
  ⟨(valid_run hrun hbInfo hmem).reads, (valid_run hrun hbInfo hmem).least⟩

/-- After a read of one byte the next message comes byte by byte. -/
theorem reads_shrink_to_one : ∃ s, run step [] [.accept default true, .completed 0 (.read [0x68, 0x69] true),
      .completed 0 (.write 2 true), .completed 0 (.read [0x6a] true), .completed 0 (.write 1 true)] = some s ∧
    (∀ hbInfo ∈ s, hbInfo.reads = [[0x68, 0x69], [0x6a]] ∧ hbInfo.len = 1) ∧
    ∀ hbInfo ∈ s, hbInfo.reads.Pairwise (fun a b => b.length ≤ a.length) ∧
      ∀ data ∈ hbInfo.reads, hbInfo.len ≤ data.length :=
  ⟨_, rfl, by decide, @reads_shrink _ [.accept default true, .completed 0 (.read [0x68, 0x69] true),
    .completed 0 (.write 2 true), .completed 0 (.read [0x6a] true), .completed 0 (.write 1 true)] rfl⟩

/-! ### The connections -/

theorem attended_read (hvalid : Valid hbInfo) (hpending : hbInfo.pending = some .recv) (data : List UInt8)
    (posted : Bool) :
    ((ReadCompRoutine hbInfo data posted).pending.isSome ∨ (ReadCompRoutine hbInfo data posted).freed = 1) ↔
      (data ≠ [] → posted) := by
  have hfreed := hvalid.pending (by rw [hpending]; rfl)
  by_cases hzero : data.length = 0
  · simp only [ReadCompRoutine, if_pos hzero, hfreed]
    exact iff_of_true (.inr trivial) fun hne => absurd (List.length_eq_zero_iff.mp hzero) hne
  · have hne : data ≠ [] := fun heq => hzero (by rw [heq]; rfl)
    simp only [ReadCompRoutine, if_neg hzero, hfreed]
    cases posted <;> simp [hne]

theorem attended_write (hvalid : Valid hbInfo) (hpending : hbInfo.pending = some .send) (szSendBytes : ℕ)
    (posted : Bool) :
    ((WriteCompRoutine hbInfo szSendBytes posted).pending.isSome ∨
      (WriteCompRoutine hbInfo szSendBytes posted).freed = 1) ↔ posted := by
  have hfreed := hvalid.pending (by rw [hpending]; rfl)
  simp only [WriteCompRoutine, hfreed]
  cases posted <;> simp

theorem attended_step {e : Event} (hs : ∀ hbInfo ∈ s, Valid hbInfo) (h : Attended s)
    (hstep : step s e = some s') : Attended s' ↔ Posted s e := by
  constructor
  · intro h'
    obtain ⟨buf, posted, rfl, rfl⟩ | ⟨i, c, hbInfo, hbInfo', rfl, hi, hc, rfl⟩ := step_cases hstep
    · have hnew := h' (.new buf posted) (List.mem_append_right s (List.mem_singleton_self _))
      cases posted <;> simp_all [PerIoData.new, Posted]
    · obtain ⟨hlt, -⟩ := List.getElem?_eq_some_iff.mp hi
      have hthis := h' hbInfo' (List.mem_of_getElem? (List.getElem?_set_self hlt))
      have hvalid := hs hbInfo (List.mem_of_getElem? hi)
      obtain ⟨data, posted, rfl, hpending, -, rfl⟩ |
    ⟨szSendBytes, posted, rfl, hpending, -, rfl⟩ := complete_cases hc
      · exact (attended_read hvalid hpending data posted).mp hthis
      · exact (attended_write hvalid hpending szSendBytes posted).mp hthis
  · intro hposted
    suffices hall : ∀ a ∈ s', Valid a ∧ (a.pending.isSome ∨ a.freed = 1) from fun a ha => (hall a ha).2
    refine forall_step (fun a ha => ⟨hs a ha, h a ha⟩) hstep (fun buf posted he => ⟨.new buf posted, ?_⟩)
      fun i c a a' he hi ha hc => ⟨ha.1.complete hc, ?_⟩
    · subst he
      obtain rfl : posted = true := hposted
      exact .inl rfl
    · subst he
      obtain ⟨data, posted, rfl, hpending, -, rfl⟩ |
    ⟨szSendBytes, posted, rfl, hpending, -, rfl⟩ := complete_cases hc
      · exact (attended_read ha.1 hpending data posted).mpr hposted
      · exact (attended_write ha.1 hpending szSendBytes posted).mpr hposted

/-- No connection is closed or freed twice, or used when it is freed; and every one is waited for or freed,
always, if and only if every operation can be posted. -/
theorem attended_iff {events : List Event} (hrun : run step [] events = some s) :
    (∀ hbInfo ∈ s, hbInfo.late = false ∧ hbInfo.closed = hbInfo.freed ∧ hbInfo.freed ≤ 1) ∧
      (Always step Attended [] events ↔ Meets step Posted [] events) := by
  refine ⟨fun hbInfo hmem => ?_, ?_⟩
  · have hvalid := valid_run hrun hbInfo hmem
    exact ⟨hvalid.late, hvalid.closed, hvalid.freed⟩
  · exact always_iff_meets_of_run (fun s => (∀ hbInfo ∈ s, Valid hbInfo) ∧ Attended s) (fun _ h => h.2)
      (fun _ _ _ h hok hstep => ⟨valid_step h.1 hstep, (attended_step h.1 h.2 hstep).mpr hok⟩)
      (fun _ _ _ h hno hstep => mt (attended_step h.1 h.2 hstep).mp hno)
      ⟨fun _ h => absurd h List.not_mem_nil, fun _ h => absurd h List.not_mem_nil⟩ hrun

/-- A client is forgotten when the `WSARecv` behind its answer fails. -/
theorem not_attended_failed : ∃ s, run step []
    [.accept default true, .completed 0 (.read [0x68] true), .completed 0 (.write 1 false)] = some s ∧
    ¬ Always step Attended []
      [.accept default true, .completed 0 (.read [0x68] true), .completed 0 (.write 1 false)] := by
  refine ⟨_, rfl, ?_⟩
  rw [(@attended_iff _
    [.accept default true, .completed 0 (.read [0x68] true), .completed 0 (.write 1 false)] rfl).2]
  rintro ⟨-, hposted⟩
  exact Bool.false_ne_true ((hposted _ rfl).2 _ rfl).1

end NetDemo.Echo.CmplRou
