import NetDemo.Foundation.Arrays
import NetDemo.Foundation.Progress
import Mathlib.Data.Finset.Card

/-! `nbc.cpp`: connects to all addresses of some hosts, none of which blocks, and the loop around `select`
that waits for them. Every descriptor has a number of its own; 0, 1 and 2 are the standard streams. -/

namespace NetDemo.Linux.Nbc
open Foundation

def TIMEOUT : ℕ := 10

def MAX_SOCKETS : ℕ := 10

/-- What `connect` answers: it is through, `errno` is `EINPROGRESS`, or `errno` is something else. -/
inductive Connect
  | connected
  | inProgress
  | refused
  deriving DecidableEq

/-- An address of a host; `inet` tells whether its family is one of the two, and `socket` whether there is
a socket for it. -/
structure Addr where
  inet : Bool
  socket : Bool
  connect : Connect

structure Host where
  sockets : List ℤ
  numsock : ℕ

structure State where
  hosts : List Host
  wrfds : Finset ℕ
  wrfds_orig : Finset ℕ
  n : ℕ
  num_sockets : ℕ
  timeouts : ℕ
  /-- The connects whose outcome was printed, and whose sockets were closed then. -/
  reported : List ℕ
  /-- `FD_ISSET` was asked for the descriptor -1. -/
  fault : Bool
  /-- The next descriptor of the system. -/
  issued : ℕ

/-- An entry of `hosts`: the initializer has a -1 for the first three sockets only. -/
def Host.new : Host := ⟨[-1, -1, -1, 0, 0, 0, 0, 0, 0, 0], 0⟩

/-- A new socket, behind its `connect`. An `fcntl` that fails ends the process. -/
def State.opened (s : State) (connect : Connect) : State := { s with
  wrfds := if connect = .inProgress then insert s.issued s.wrfds else s.wrfds
  n := if connect = .inProgress then s.n else s.n + 1
  num_sockets := s.num_sockets + 1
  issued := s.issued + 1 }

/-- A host with its `i`th address. -/
def connectTo (i : ℕ) (hostp : Host) (s : State) (res : Addr) : Except Fault (Host × State) :=
  if res.inet = false then .ok (hostp, s)
  else if MAX_SOCKETS ≤ i then .error .overflow
  else if res.socket = false then .ok ({ hostp with sockets := hostp.sockets.set i (-1) }, s)
  else .ok (⟨hostp.sockets.set i s.issued, hostp.numsock + 1⟩, s.opened res.connect)

def connectFrom (i : ℕ) (hostp : Host) (s : State) : List Addr → Except Fault State
  | [] => .ok { s with hosts := s.hosts ++ [hostp] }
  | res :: rest => do
    let (hostp, s) ← connectTo i hostp s res
    connectFrom (i + 1) hostp s rest

def connectHosts (s : State) : List (List Addr) → Except Fault State
  | [] => .ok { s with wrfds_orig := s.wrfds }
  | addrs :: rest => do
    let s ← connectFrom 0 .new s addrs
    connectHosts s rest

/-- The first cycle of `main`, over what `getaddrinfo` finds for the hosts. -/
def connectAll (hosts : List (List Addr)) : Except Fault State :=
  connectHosts ⟨[], ∅, ∅, 0, 0, 0, [], false, 3⟩ hosts

namespace State

/-- The descriptors that the two loops ask for. -/
def checked (s : State) : List ℤ := s.hosts.flatMap fun hostp => hostp.sockets.take hostp.numsock

def report (s : State) (fd : ℤ) : State :=
  if s.fault then s
  else if fd < 0 then { s with fault := true }
  else if fd.toNat ∈ s.wrfds then { s with
    wrfds_orig := s.wrfds_orig.erase fd.toNat
    n := s.n + 1
    reported := s.reported ++ [fd.toNat] }
  else s

/-- One round of the loop; `ready` are the descriptors that `select` finds writable within its second. It
leaves nothing in its set when that is over. -/
def step (s : State) (ready : Finset ℕ) : Option State :=
  if s.n = s.num_sockets ∨ s.timeouts = TIMEOUT ∨ s.fault then none
  else if s.wrfds ∩ ready = ∅ then some { s with wrfds := ∅, timeouts := s.timeouts + 1 }
  else
    let s := s.checked.foldl report { s with wrfds := s.wrfds ∩ ready }
    some { s with wrfds := s.wrfds_orig }

/-- After a timeout no connect that is still under way comes to its end. -/
def Timely (s : State) (ready : Finset ℕ) : Prop := 0 < s.timeouts → Disjoint s.wrfds_orig ready

instance (s : State) : DecidablePred s.Timely := fun _ => inferInstanceAs (Decidable (_ → _))

/-! ### What the first cycle leaves -/

/-- Every descriptor above the standard streams stands in one slot at most, and what is not finished is
waited for. -/
structure Fresh (s : State) (slots : List ℤ) : Prop where
  once : ∀ fd : ℕ, 3 ≤ fd → slots.count (fd : ℤ) ≤ 1
  free : ∀ fd : ℕ, s.issued ≤ fd → slots.count (fd : ℤ) = 0
  issued : 3 ≤ s.issued
  wrfds : ∀ fd ∈ s.wrfds, 3 ≤ fd ∧ fd < s.issued
  num_sockets : s.n + s.wrfds.card = s.num_sockets
  start : s.timeouts = 0 ∧ s.reported = [] ∧ s.fault = false

end State

open State
variable {s s' : State}

theorem count_set_le (l : List ℤ) (i : ℕ) (v a : ℤ) :
    (l.set i v).count a ≤ l.count a + if v = a then 1 else 0 := by
  rw [List.set_eq_take_append_cons_drop]
  split_ifs with hi hv
  · have hrest : (l.drop (i + 1)).count a ≤ (l.drop i).count a :=
      (List.drop_sublist_drop_left l (Nat.le_succ i)).count_le a
    have hsplit : (l.take i).count a + (l.drop i).count a = l.count a := by
      rw [← List.count_append, List.take_append_drop]
    rw [List.count_append, List.count_cons, if_pos (beq_iff_eq.mpr hv)]
    omega
  · have hrest : (l.drop (i + 1)).count a ≤ (l.drop i).count a :=
      (List.drop_sublist_drop_left l (Nat.le_succ i)).count_le a
    have hsplit : (l.take i).count a + (l.drop i).count a = l.count a := by
      rw [← List.count_append, List.take_append_drop]
    rw [List.count_append, List.count_cons, if_neg (by simpa using hv)]
    omega
  · exact Nat.le_add_right ..
  · exact Nat.le_refl _

theorem State.Fresh.opened {pre sockets : List ℤ} (h : Fresh s (pre ++ sockets)) (i : ℕ) (connect : Connect) :
    Fresh (s.opened connect) (pre ++ sockets.set i s.issued) where
  once fd hfd := by
    have hset := count_set_le sockets i s.issued fd
    have hone := h.once fd hfd
    have hfree := h.free s.issued le_rfl
    rw [List.count_append] at hone hfree ⊢
    split_ifs at hset with heq
    · obtain rfl : s.issued = fd := by exact_mod_cast heq
      omega
    · omega
  free fd hfd := by
    have hset := count_set_le sockets i s.issued fd
    have hfree := h.free fd ((Nat.le_succ _).trans hfd)
    have hne : (s.issued : ℤ) ≠ fd := by
      simp only [State.opened] at hfd
      omega
    rw [if_neg hne] at hset
    rw [List.count_append] at hfree ⊢
    omega
  issued := h.issued.trans (Nat.le_succ _)
  wrfds fd hfd := by
    have hissued := h.issued
    simp only [State.opened] at hfd ⊢
    split_ifs at hfd
    · rcases Finset.mem_insert.mp hfd with rfl | hfd
      · exact ⟨hissued, Nat.lt_succ_self _⟩
      · exact ⟨(h.wrfds fd hfd).1, (h.wrfds fd hfd).2.trans (Nat.lt_succ_self _)⟩
    · exact ⟨(h.wrfds fd hfd).1, (h.wrfds fd hfd).2.trans (Nat.lt_succ_self _)⟩
  num_sockets := by
    have hnum := h.num_sockets
    have hnew : s.issued ∉ s.wrfds := fun hmem => Nat.lt_irrefl _ (h.wrfds _ hmem).2
    simp only [State.opened]
    split_ifs
    · rw [Finset.card_insert_of_notMem hnew]
      omega
    · omega
  start := h.start

theorem State.Fresh.connectTo {pre : List ℤ} {hostp hostp' : Host} (h : Fresh s (pre ++ hostp.sockets))
    {i : ℕ} {res : Addr} (hok : connectTo i hostp s res = .ok (hostp', s')) :
    Fresh s' (pre ++ hostp'.sockets) ∧ s'.hosts = s.hosts := by
  unfold Nbc.connectTo at hok
  split_ifs at hok with hinet hmax hsocket
  · obtain ⟨rfl, rfl⟩ := Prod.mk.inj (Except.ok.inj hok)
    exact ⟨h, rfl⟩
  · obtain ⟨rfl, rfl⟩ := Prod.mk.inj (Except.ok.inj hok)
    refine ⟨⟨fun fd hfd => ?_, fun fd hfd => ?_, h.issued, h.wrfds, h.num_sockets, h.start⟩, rfl⟩
    · have hset := count_set_le hostp.sockets i (-1) fd
      have hone := h.once fd hfd
      rw [if_neg (by omega)] at hset
      rw [List.count_append] at hone ⊢
      simp only
      omega
    · have hset := count_set_le hostp.sockets i (-1) fd
      have hfree := h.free fd hfd
      rw [if_neg (by omega)] at hset
      rw [List.count_append] at hfree ⊢
      simp only
      omega
  · obtain ⟨rfl, rfl⟩ := Prod.mk.inj (Except.ok.inj hok)
    exact ⟨h.opened i res.connect, rfl⟩

theorem State.Fresh.connectFrom {hostp : Host} (h : Fresh s (s.hosts.flatMap Host.sockets ++ hostp.sockets))
    {i : ℕ} {addrs : List Addr} (hok : connectFrom i hostp s addrs = .ok s') :
    Fresh s' (s'.hosts.flatMap Host.sockets) := by
  induction addrs generalizing i hostp s with
  | nil =>
    obtain rfl := Except.ok.inj hok
    simp only [List.flatMap_append, List.flatMap_cons, List.flatMap_nil, List.append_nil]
    exact ⟨h.once, h.free, h.issued, h.wrfds, h.num_sockets, h.start⟩
  | cons res rest ih =>
    rw [Nbc.connectFrom] at hok
    cases hto : Nbc.connectTo i hostp s res with
    | error e => rw [hto] at hok; cases hok
    | ok p =>
      obtain ⟨hostp', s₁⟩ := p
      rw [hto] at hok
      obtain ⟨hfresh, hhosts⟩ := h.connectTo hto
      rw [← hhosts] at hfresh
      exact ih hfresh hok

theorem State.Fresh.connectHosts (h : Fresh s (s.hosts.flatMap Host.sockets)) {hosts : List (List Addr)}
    (hok : connectHosts s hosts = .ok s') :
    Fresh s' (s'.hosts.flatMap Host.sockets) ∧ s'.wrfds_orig = s'.wrfds := by
  induction hosts generalizing s with
  | nil =>
    obtain rfl := Except.ok.inj hok
    exact ⟨⟨h.once, h.free, h.issued, h.wrfds, h.num_sockets, h.start⟩, rfl⟩
  | cons addrs rest ih =>
    rw [Nbc.connectHosts] at hok
    cases hfrom : Nbc.connectFrom 0 .new s addrs with
    | error e => rw [hfrom] at hok; cases hok
    | ok s₁ =>
      rw [hfrom] at hok
      have hnew (fd : ℕ) (hfd : 3 ≤ fd) : Host.new.sockets.count (fd : ℤ) = 0 := by
        rw [List.count_eq_zero]
        intro hmem
        have hle : ∀ v ∈ Host.new.sockets, v ≤ 0 := by decide
        have hpos := hle _ hmem
        omega
      refine ih (State.Fresh.connectFrom ⟨fun fd hfd => ?_, fun fd hfd => ?_, h.issued, h.wrfds,
        h.num_sockets, h.start⟩ hfrom) hok
      · rw [List.count_append, hnew fd hfd]
        exact h.once fd hfd
      · rw [List.count_append, hnew fd (h.issued.trans hfd), h.free fd hfd]

theorem connectAll_fresh {hosts : List (List Addr)} (hok : connectAll hosts = .ok s) :
    Fresh s (s.hosts.flatMap Host.sockets) ∧ s.wrfds_orig = s.wrfds := by
  refine State.Fresh.connectHosts (s := ⟨[], ∅, ∅, 0, 0, 0, [], false, 3⟩)
    ⟨fun fd _ => Nat.zero_le _, fun fd _ => rfl, le_rfl, fun fd hfd => ?_, rfl, rfl, rfl, rfl⟩ hok
  exact absurd hfd (Finset.notMem_empty fd)

/-! ### One round -/

/-- The descriptors of `list` that `FD_ISSET` finds in `fds`, up to the first that is none. -/
def hits (list : List ℤ) (fds : Finset ℕ) : List ℕ :=
  ((list.takeWhile fun fd => 0 ≤ fd).map Int.toNat).filter (· ∈ fds)

theorem foldl_report_of_fault (h : s.fault = true) (list : List ℤ) : list.foldl report s = s := by
  induction list with
  | nil => rfl
  | cons fd list ih =>
    have hreport : s.report fd = s := if_pos h
    rw [List.foldl_cons, hreport, ih]

theorem foldl_report (h : s.fault = false) (list : List ℤ) : list.foldl report s = { s with
    wrfds_orig := s.wrfds_orig \ (hits list s.wrfds).toFinset
    n := s.n + (hits list s.wrfds).length
    reported := s.reported ++ hits list s.wrfds
    fault := list.any (· < 0) } := by
  induction list generalizing s with
  | nil => simp [hits, ← h]
  | cons fd list ih =>
    rw [List.foldl_cons]
    by_cases hneg : fd < 0
    · have hreport : s.report fd = { s with fault := true } := by simp [report, h, hneg]
      rw [hreport, foldl_report_of_fault rfl]
      simp [hits, hneg]
    · have hpos : 0 ≤ fd := Int.not_lt.mp hneg
      by_cases hmem : fd.toNat ∈ s.wrfds
      · have hreport : s.report fd = { s with
            wrfds_orig := s.wrfds_orig.erase fd.toNat
            n := s.n + 1
            reported := s.reported ++ [fd.toNat] } := by simp [report, h, hneg, hmem]
        have hhits : hits (fd :: list) s.wrfds = fd.toNat :: hits list s.wrfds := by simp [hits, hpos, hmem]
        have herase : s.wrfds_orig.erase fd.toNat \ (hits list s.wrfds).toFinset =
            s.wrfds_orig \ insert fd.toNat (hits list s.wrfds).toFinset := by
          rw [Finset.sdiff_insert, Finset.erase_sdiff_comm]
        have hrest := @ih { s with
            wrfds_orig := s.wrfds_orig.erase fd.toNat
            n := s.n + 1
            reported := s.reported ++ [fd.toNat] } h
        rw [hreport, hrest, hhits, List.toFinset_cons, ← herase, List.length_cons, List.append_assoc,
          List.singleton_append, List.any_cons, decide_eq_false hneg, Bool.false_or]
        simp only [State.mk.injEq, true_and, and_true]
        omega
      · have hreport : s.report fd = s := by simp [report, h, hneg, hmem]
        have hhits : hits (fd :: list) s.wrfds = hits list s.wrfds := by simp [hits, hpos, hmem]
        rw [hreport, ih h, hhits, List.any_cons, decide_eq_false hneg, Bool.false_or]

theorem step_cases {ready : Finset ℕ} (h : s.step ready = some s') :
    s.n ≠ s.num_sockets ∧ s.timeouts ≠ TIMEOUT ∧ s.fault = false ∧
      (s.wrfds ∩ ready = ∅ ∧ s' = { s with wrfds := ∅, timeouts := s.timeouts + 1 } ∨
        s.wrfds ∩ ready ≠ ∅ ∧ s' = { s with
          wrfds := s.wrfds_orig \ (hits s.checked (s.wrfds ∩ ready)).toFinset
          wrfds_orig := s.wrfds_orig \ (hits s.checked (s.wrfds ∩ ready)).toFinset
          n := s.n + (hits s.checked (s.wrfds ∩ ready)).length
          reported := s.reported ++ hits s.checked (s.wrfds ∩ ready)
          fault := s.checked.any (· < 0) }) := by
  unfold step at h
  split_ifs at h with hover hempty
  · rw [not_or, not_or, Bool.not_eq_true] at hover
    exact ⟨hover.1, hover.2.1, hover.2.2, .inl ⟨hempty, (Option.some.inj h).symm⟩⟩
  · rw [not_or, not_or, Bool.not_eq_true] at hover
    refine ⟨hover.1, hover.2.1, hover.2.2, .inr ⟨hempty, ?_⟩⟩
    have hround := foldl_report (s := { s with wrfds := s.wrfds ∩ ready }) hover.2.2 s.checked
    rw [← Option.some.inj h, hround]

theorem mem_hits {list : List ℤ} {fds : Finset ℕ} {fd : ℕ} (h : fd ∈ hits list fds) :
    fd ∈ fds ∧ (fd : ℤ) ∈ list := by
  obtain ⟨hmem, hfds⟩ := List.mem_filter.mp h
  obtain ⟨v, hv, rfl⟩ := List.mem_map.mp hmem
  have hpos : 0 ≤ v := by simpa using List.mem_takeWhile_imp hv
  rw [Int.toNat_of_nonneg hpos]
  exact ⟨of_decide_eq_true hfds, (List.takeWhile_prefix _).subset hv⟩

theorem mem_hits_iff {list : List ℤ} (hlist : ∀ v ∈ list, 0 ≤ v) {fds : Finset ℕ} {fd : ℕ} :
    fd ∈ hits list fds ↔ fd ∈ fds ∧ (fd : ℤ) ∈ list := by
  refine ⟨mem_hits, fun ⟨hfds, hmem⟩ => ?_⟩
  have hall : (list.takeWhile fun v => decide (0 ≤ v)) = list :=
    List.takeWhile_eq_self_iff.mpr fun v hv => decide_eq_true (hlist v hv)
  rw [hits, hall]
  exact List.mem_filter.mpr ⟨List.mem_map.mpr ⟨fd, hmem, Int.toNat_natCast fd⟩, decide_eq_true hfds⟩

theorem count_map_toNat {list : List ℤ} (hlist : ∀ v ∈ list, 0 ≤ v) (fd : ℕ) :
    (list.map Int.toNat).count fd = list.count (fd : ℤ) := by
  induction list with
  | nil => rfl
  | cons v list ih =>
    have hv := hlist v List.mem_cons_self
    have hiff : v.toNat = fd ↔ v = fd := by omega
    rw [List.map_cons, List.count_cons, List.count_cons, ih fun w hw => hlist w (List.mem_cons_of_mem v hw)]
    simp only [beq_iff_eq, hiff]

theorem nodup_hits {list : List ℤ} {fds : Finset ℕ} (h : ∀ fd ∈ fds, list.count (fd : ℤ) ≤ 1) :
    (hits list fds).Nodup := by
  rw [List.nodup_iff_count_le_one]
  intro fd
  by_cases hfd : fd ∈ fds
  · have hpos : ∀ v ∈ list.takeWhile fun v => decide (0 ≤ v), 0 ≤ v := fun v hv => by
      simpa using List.mem_takeWhile_imp hv
    calc (hits list fds).count fd
        ≤ ((list.takeWhile fun v => decide (0 ≤ v)).map Int.toNat).count fd :=
          (List.filter_sublist (p := (· ∈ fds))).count_le fd
      _ = (list.takeWhile fun v => decide (0 ≤ v)).count (fd : ℤ) := count_map_toNat hpos fd
      _ ≤ list.count (fd : ℤ) := (List.takeWhile_prefix _).sublist.count_le _
      _ ≤ 1 := h fd hfd
  · rw [List.count_eq_zero_of_not_mem fun hmem => hfd (mem_hits hmem).1]
    exact Nat.zero_le 1

/-! ### Rounds -/

/-- Between the rounds, for the connects `fds` that were under way at first: the loop remembers what it has
not reported, and asks `select` for that until the first timeout. -/
structure Waits (fds : Finset ℕ) (list : List ℤ) (s : State) : Prop where
  checked : s.checked = list
  subset : s.wrfds_orig ⊆ fds
  wrfds : s.wrfds = if s.timeouts = 0 then s.wrfds_orig else ∅
  num_sockets : s.n + s.wrfds_orig.card = s.num_sockets
  timeouts : s.timeouts ≤ TIMEOUT
  reported : s.reported.Nodup ∧ s.reported.toFinset = fds \ s.wrfds_orig

theorem checked_sublist (s : State) : s.checked.Sublist (s.hosts.flatMap Host.sockets) := by
  unfold State.checked
  induction s.hosts with
  | nil => exact .refl _
  | cons hostp hosts ih =>
    rw [List.flatMap_cons, List.flatMap_cons]
    exact (List.take_sublist ..).append ih

theorem connectAll_waits {hosts : List (List Addr)} (hok : connectAll hosts = .ok s) :
    Waits s.wrfds s.checked s ∧ s.fault = false ∧ s.timeouts = 0 ∧
      ∀ fd ∈ s.wrfds, s.checked.count (fd : ℤ) ≤ 1 := by
  obtain ⟨h, horig⟩ := connectAll_fresh hok
  obtain ⟨htimeouts, hreported, hfault⟩ := h.start
  refine ⟨⟨rfl, horig.subset, by rw [if_pos htimeouts, horig], by rw [horig]; exact h.num_sockets,
    by rw [htimeouts]; exact Nat.zero_le _, ?_⟩, hfault, htimeouts, fun fd hfd => ?_⟩
  · rw [hreported, horig, Finset.sdiff_self]
    exact ⟨List.nodup_nil, rfl⟩
  · exact ((checked_sublist s).count_le _).trans (h.once fd (h.wrfds fd hfd).1)

section
variable {fds ready : Finset ℕ} {list : List ℤ}

theorem Waits.inter_subset (h : Waits fds list s) (ready : Finset ℕ) : s.wrfds ∩ ready ⊆ s.wrfds_orig := by
  have hwrfds := h.wrfds
  split_ifs at hwrfds
  · rw [hwrfds]
    exact Finset.inter_subset_left
  · rw [hwrfds, Finset.empty_inter]
    exact Finset.empty_subset _

theorem Waits.timeouts_of_ready (h : Waits fds list s) (hready : s.wrfds ∩ ready ≠ ∅) : s.timeouts = 0 := by
  have hwrfds := h.wrfds
  split_ifs at hwrfds with htimeouts
  · exact htimeouts
  · rw [hwrfds, Finset.empty_inter] at hready
    exact absurd rfl hready

theorem Waits.of_step (h : Waits fds list s) (hlist : ∀ fd ∈ fds, list.count (fd : ℤ) ≤ 1)
    (hstep : s.step ready = some s') : Waits fds list s' := by
  obtain ⟨-, htimeouts, -, ⟨hready, rfl⟩ | ⟨hready, rfl⟩⟩ := step_cases hstep
  · have hle := h.timeouts
    exact ⟨h.checked, h.subset, by rw [if_neg (Nat.succ_ne_zero _)], h.num_sockets, by simp only; omega,
      h.reported⟩
  · have hzero := h.timeouts_of_ready hready
    have hsub := h.inter_subset ready
    rw [h.checked]
    have hnodup : (hits list (s.wrfds ∩ ready)).Nodup :=
      nodup_hits fun fd hfd => hlist fd (h.subset (hsub hfd))
    have hmem : (hits list (s.wrfds ∩ ready)).toFinset ⊆ s.wrfds_orig := fun fd hfd =>
      hsub (mem_hits (List.mem_toFinset.mp hfd)).1
    refine ⟨h.checked, Finset.sdiff_subset.trans h.subset, by rw [if_pos hzero], ?_, h.timeouts, ?_, ?_⟩
    · have hcard := Finset.card_sdiff_add_card_eq_card hmem
      have hnum := h.num_sockets
      rw [List.toFinset_card_of_nodup hnodup] at hcard
      simp only
      omega
    · refine h.reported.1.append hnodup fun fd hfd hhit => ?_
      have hgone : fd ∈ s.reported.toFinset := List.mem_toFinset.mpr hfd
      rw [h.reported.2] at hgone
      exact (Finset.mem_sdiff.mp hgone).2 (hmem (List.mem_toFinset.mpr hhit))
    · rw [List.toFinset_append, h.reported.2, Finset.sdiff_sdiff_eq_sdiff_union (hmem.trans h.subset)]

/-- Every descriptor that is asked for is one, and every connect under way is asked for. -/
def Complete (fds : Finset ℕ) (list : List ℤ) : Prop := (∀ v ∈ list, 0 ≤ v) ∧ ∀ fd ∈ fds, (fd : ℤ) ∈ list

theorem Complete.hits_eq (h : Complete fds list) {found : Finset ℕ} (hfound : found ⊆ fds) :
    (hits list found).toFinset = found := by
  ext fd
  rw [List.mem_toFinset, mem_hits_iff h.1]
  exact and_iff_left_of_imp fun hfd => h.2 fd (hfound hfd)

theorem Waits.step_cases (h : Waits fds list s) (hall : Complete fds list) (hstep : s.step ready = some s') :
    s'.fault = false ∧
      (s.wrfds ∩ ready = ∅ ∧ s'.timeouts = s.timeouts + 1 ∧ s'.wrfds_orig = s.wrfds_orig ∨
        (s.wrfds_orig ∩ ready).Nonempty ∧ s.timeouts = 0 ∧ s'.timeouts = 0 ∧
          s'.wrfds_orig = s.wrfds_orig \ ready) := by
  obtain ⟨-, -, hfault, ⟨hready, rfl⟩ | ⟨hready, rfl⟩⟩ := Nbc.step_cases hstep
  · exact ⟨hfault, .inl ⟨hready, rfl, rfl⟩⟩
  · have hzero := h.timeouts_of_ready hready
    have hwrfds := h.wrfds
    rw [if_pos hzero] at hwrfds
    rw [h.checked, hwrfds, hall.hits_eq (Finset.inter_subset_left.trans h.subset)]
    refine ⟨?_, .inr ⟨?_, hzero, hzero, Finset.sdiff_inter_self_left _ _⟩⟩
    · simpa using hall.1
    · rw [hwrfds] at hready
      exact Finset.nonempty_iff_ne_empty.mpr hready

theorem decreases (hlist : ∀ fd ∈ fds, list.count (fd : ℤ) ≤ 1) (hall : Complete fds list) :
    Decreases step (fun s => Waits fds list s ∧ s.fault = false)
      fun s => s.wrfds_orig.card + (TIMEOUT - s.timeouts) where
  keeps s ready s' h hstep := ⟨h.1.of_step hlist hstep, (h.1.step_cases hall hstep).1⟩
  lt s ready s' h hstep := by
    have htimeouts := (h.1.of_step hlist hstep).timeouts
    obtain ⟨-, ⟨-, hmore, horig⟩ | ⟨hready, hzero, hzero', horig⟩⟩ := h.1.step_cases hall hstep
    · simp only [horig]
      omega
    · have hlt : (s.wrfds_orig \ ready).card < s.wrfds_orig.card := by
        refine Finset.card_lt_card (Finset.ssubset_iff_subset_ne.mpr ⟨Finset.sdiff_subset, fun heq => ?_⟩)
        obtain ⟨fd, hfd⟩ := hready
        rw [Finset.mem_inter, ← heq, Finset.mem_sdiff] at hfd
        exact hfd.1.2 hfd.2
      simp only [horig, hzero, hzero']
      omega

theorem Waits.not_over (h : Waits fds list s) (hfault : s.fault = false) (hzero : s.timeouts = 0)
    (hne : s.wrfds_orig.Nonempty) : ¬ (s.n = s.num_sockets ∨ s.timeouts = TIMEOUT ∨ s.fault = true) := by
  have hnum := h.num_sockets
  have hcard := Finset.card_pos.mpr hne
  simp only [hfault, hzero, TIMEOUT, Bool.false_eq_true, or_false]
  omega

/-- A connect that is never asked for keeps `select` from waiting. -/
theorem spins (h : Waits fds list s) (hfault : s.fault = false) (hzero : s.timeouts = 0)
    (hneg : ∀ v ∈ list, 0 ≤ v) {fd : ℕ} (hfd : fd ∈ s.wrfds_orig) (hout : (fd : ℤ) ∉ list) :
    s.step {fd} = some s := by
  have hwrfds := h.wrfds
  rw [if_pos hzero] at hwrfds
  have hfound : s.wrfds ∩ {fd} = {fd} := Finset.inter_singleton_of_mem (by rwa [hwrfds])
  have hnone : hits list ({fd} : Finset ℕ) = [] := by
    refine List.eq_nil_iff_forall_not_mem.mpr fun a ha => ?_
    obtain ⟨hmem, hin⟩ := mem_hits ha
    rw [Finset.mem_singleton.mp hmem] at hin
    exact hout hin
  have hany : list.any (fun v => decide (v < 0)) = false := by simpa using hneg
  have hround := foldl_report (s := { s with wrfds := s.wrfds ∩ {fd} }) hfault s.checked
  have hne : s.wrfds ∩ {fd} ≠ ∅ := by
    rw [hfound]
    exact Finset.singleton_ne_empty fd
  unfold step
  rw [if_neg (h.not_over hfault hzero ⟨fd, hfd⟩), if_neg hne, hround, h.checked, hfound, hnone, hany]
  obtain ⟨⟩ := s
  simp only at hfault hwrfds ⊢
  simp [hfault, hwrfds]

end

theorem ends_of_complete {hosts : List (List Addr)} (hok : connectAll hosts = .ok s)
    (hall : Complete s.wrfds s.checked) {rounds : List (Finset ℕ)} (hrun : run step s rounds = some s') :
    s'.fault = false ∧ rounds.length ≤ s.wrfds.card + TIMEOUT := by
  obtain ⟨h, hfault, hzero, hlist⟩ := connectAll_waits hok
  have hd := decreases hlist hall
  have hle := hd.length_le ⟨h, hfault⟩ hrun
  refine ⟨(hd.run_keeps ⟨h, hfault⟩ hrun).2, ?_⟩
  simp only [(connectAll_fresh hok).2, hzero] at hle
  omega

/-- The loop comes to its end whatever `select` finds, without asking for the descriptor -1, if and only if
nothing is waited for, or every descriptor that it asks for is one and every connect is asked for. -/
theorem select_ends_iff {hosts : List (List Addr)} (hok : connectAll hosts = .ok s) :
    (∀ rounds s', run step s rounds = some s' →
        s'.fault = false ∧ rounds.length ≤ s.wrfds.card + TIMEOUT) ↔
      s.wrfds = ∅ ∨ Complete s.wrfds s.checked := by
  obtain ⟨h, hfault, hzero, hlist⟩ := connectAll_waits hok
  have horig : s.wrfds_orig = s.wrfds := (connectAll_fresh hok).2
  constructor
  · intro hends
    by_contra! hno
    obtain ⟨hne, hbad⟩ := hno
    by_cases hneg : ∀ v ∈ s.checked, 0 ≤ v
    · -- `select` finds this connect again and again, and nobody takes it out of the set.
      obtain ⟨fd, hfd, hout⟩ : ∃ fd ∈ s.wrfds, (fd : ℤ) ∉ s.checked := by
        by_contra! hin
        exact hbad ⟨hneg, hin⟩
      have hspin := spins h hfault hzero hneg (by rwa [horig]) hout
      have hrun (k : ℕ) : run step s (List.replicate k {fd}) = some s := by
        induction k with
        | zero => rfl
        | succ k ih => rw [List.replicate_succ, run_cons, hspin, Option.bind_some, ih]
      have hle := (hends _ s (hrun (s.wrfds.card + TIMEOUT + 1))).2
      rw [List.length_replicate] at hle
      exact Nat.lt_irrefl _ hle
    · -- When everything is found at once, the descriptor -1 is asked for.
      have hover := h.not_over hfault hzero (by rwa [horig])
      have hstep : ∃ s', s.step s.wrfds = some s' ∧ s'.fault = true := by
        have hround := foldl_report (s := { s with wrfds := s.wrfds ∩ s.wrfds }) hfault s.checked
        have hfound : s.wrfds ∩ s.wrfds ≠ ∅ := by
          rw [Finset.inter_self]
          exact hne.ne_empty
        refine ⟨_, by unfold step; rw [if_neg hover, if_neg hfound], ?_⟩
        simp only [hround]
        simpa using hneg
      obtain ⟨s', hs', hfaults⟩ := hstep
      have hrun : run step s [s.wrfds] = some s' := by rw [run_cons, hs']; rfl
      rw [(hends _ s' hrun).1] at hfaults
      exact Bool.false_ne_true hfaults
  · rintro (hempty | hall) rounds s' hrun
    · have hnum := h.num_sockets
      rw [horig, hempty, Finset.card_empty, Nat.add_zero] at hnum
      cases rounds with
      | nil =>
        obtain rfl := Option.some.inj hrun
        exact ⟨hfault, Nat.zero_le _⟩
      | cons ready rounds =>
        have hnone : s.step ready = none := if_pos (.inl hnum)
        rw [run_cons, hnone] at hrun
        cases hrun
    · exact ends_of_complete hok hall hrun

/-- Behind an address without a socket the last connect is never asked for. -/
theorem not_ends_of_hole : ∃ s,
    connectAll [[⟨false, false, .refused⟩, ⟨true, true, .inProgress⟩]] = .ok s ∧
    ¬ ∀ rounds s', run step s rounds = some s' →
      s'.fault = false ∧ rounds.length ≤ s.wrfds.card + TIMEOUT := by
  refine ⟨_, rfl, ?_⟩
  rw [@select_ends_iff _ [[⟨false, false, .refused⟩, ⟨true, true, .inProgress⟩]] rfl]
  rintro (hempty | hall)
  · exact absurd hempty (by decide)
  · exact absurd (hall.2 3 (by decide)) (by decide)

/-! ### Hosts whose addresses all get a socket -/

/-- No address is skipped, and there are not too many of them. -/
def Plain (addrs : List Addr) : Prop := addrs.length ≤ MAX_SOCKETS ∧ ∀ res ∈ addrs, res.inet ∧ res.socket

instance : DecidablePred Plain := fun _ => inferInstanceAs (Decidable (_ ∧ _))

/-- What is asked for of the hosts so far, with the host that is being worked on. -/
def State.asked (s : State) (hostp : Host) : List ℤ := s.checked ++ hostp.sockets.take hostp.numsock

theorem take_set_succ {l : List ℤ} {i : ℕ} (hi : i < l.length) (v : ℤ) :
    (l.set i v).take (i + 1) = l.take i ++ [v] := by
  rw [List.set_eq_take_append_cons_drop, if_pos hi, List.take_append, List.length_take, Nat.min_eq_left hi.le,
    Nat.add_sub_cancel_left, List.take_succ_cons, List.take_zero, List.take_of_length_le (by simp)]

theorem Complete.connectFrom {hostp : Host} {addrs : List Addr} (h : Complete s.wrfds (s.asked hostp))
    (hlen : hostp.sockets.length = MAX_SOCKETS) (hroom : hostp.numsock + addrs.length ≤ MAX_SOCKETS)
    (hplain : ∀ res ∈ addrs, res.inet ∧ res.socket) :
    ∃ s', connectFrom hostp.numsock hostp s addrs = .ok s' ∧ Complete s'.wrfds s'.checked := by
  induction addrs generalizing s hostp with
  | nil =>
    refine ⟨_, rfl, ?_⟩
    simpa [State.asked, State.checked] using h
  | cons res rest ih =>
    rw [List.length_cons] at hroom
    obtain ⟨hinet, hsocket⟩ := hplain res List.mem_cons_self
    have hto : connectTo hostp.numsock hostp s res =
        .ok (⟨hostp.sockets.set hostp.numsock s.issued, hostp.numsock + 1⟩, s.opened res.connect) := by
      unfold connectTo
      rw [if_neg (by simp [hinet]), if_neg (by omega), if_neg (by simp [hsocket])]
    have hasked : (s.opened res.connect).asked ⟨hostp.sockets.set hostp.numsock s.issued, hostp.numsock + 1⟩ =
        s.asked hostp ++ [(s.issued : ℤ)] := by
      rw [State.asked, take_set_succ (by omega), State.asked, List.append_assoc]
      rfl
    rw [Nbc.connectFrom, hto]
    have hcomplete : Complete (s.opened res.connect).wrfds
        ((s.opened res.connect).asked ⟨hostp.sockets.set hostp.numsock s.issued, hostp.numsock + 1⟩) := by
      rw [hasked]
      refine ⟨fun v hv => ?_, fun fd hfd => ?_⟩
      · rcases List.mem_append.mp hv with hv | hv
        · exact h.1 v hv
        · rw [List.mem_singleton.mp hv]
          exact Int.natCast_nonneg _
      · rw [List.mem_append, List.mem_singleton]
        simp only [State.opened] at hfd
        split_ifs at hfd
        · rcases Finset.mem_insert.mp hfd with rfl | hfd
          · exact .inr rfl
          · exact .inl (h.2 fd hfd)
        · exact .inl (h.2 fd hfd)
    exact ih hcomplete (by rw [List.length_set, hlen]) (by simp only; omega)
      fun a ha => hplain a (List.mem_cons_of_mem _ ha)

theorem Complete.connectHosts {hosts : List (List Addr)} (h : Complete s.wrfds s.checked)
    (hplain : ∀ addrs ∈ hosts, Plain addrs) :
    ∃ s', connectHosts s hosts = .ok s' ∧ Complete s'.wrfds s'.checked := by
  induction hosts generalizing s with
  | nil => exact ⟨_, rfl, h⟩
  | cons addrs rest ih =>
    obtain ⟨hlen, hall⟩ := hplain addrs List.mem_cons_self
    have hnew : Complete s.wrfds (s.asked .new) := by
      rw [State.asked, Host.new, List.take_zero, List.append_nil]
      exact h
    obtain ⟨s₁, hs₁, h₁⟩ := hnew.connectFrom rfl (by rw [Host.new, Nat.zero_add]; exact hlen) hall
    obtain ⟨s', hs', h'⟩ := ih h₁ fun a ha => hplain a (List.mem_cons_of_mem _ ha)
    refine ⟨s', ?_, h'⟩
    rw [Nbc.connectHosts]
    exact (congrArg (fun r => Except.bind r fun s => Nbc.connectHosts s rest) hs₁).trans hs'

theorem plain_complete {hosts : List (List Addr)} (hplain : ∀ addrs ∈ hosts, Plain addrs) :
    ∃ s, connectAll hosts = .ok s ∧ Complete s.wrfds s.checked :=
  Complete.connectHosts ⟨fun _ hv => absurd hv List.not_mem_nil,
    fun fd hfd => absurd hfd (Finset.notMem_empty fd)⟩ hplain

theorem ends_of_plain {hosts : List (List Addr)} (hplain : ∀ addrs ∈ hosts, Plain addrs) :
    ∃ s, connectAll hosts = .ok s ∧ ∀ rounds s', run step s rounds = some s' →
      s'.fault = false ∧ rounds.length ≤ s.wrfds.card + TIMEOUT := by
  obtain ⟨s, hok, hall⟩ := plain_complete hplain
  exact ⟨s, hok, fun _ _ hrun => ends_of_complete hok hall hrun⟩

/-! ### What is said of the connects -/

section
variable {fds ready : Finset ℕ} {list : List ℤ} {rounds : List (Finset ℕ)}

/-- After a timeout nothing is found any more. -/
theorem Waits.step_late (h : Waits fds list s) (hlate : 0 < s.timeouts) (hstep : s.step ready = some s') :
    0 < s'.timeouts ∧ s'.wrfds_orig = s.wrfds_orig := by
  have hwrfds := h.wrfds
  rw [if_neg (by omega)] at hwrfds
  obtain ⟨-, -, -, ⟨-, rfl⟩ | ⟨hready, -⟩⟩ := Nbc.step_cases hstep
  · exact ⟨Nat.succ_pos _, rfl⟩
  · rw [hwrfds, Finset.empty_inter] at hready
    exact absurd rfl hready

theorem Waits.run_late (h : Waits fds list s) (hlist : ∀ fd ∈ fds, list.count (fd : ℤ) ≤ 1)
    (hlate : 0 < s.timeouts) (hrun : run step s rounds = some s') : s'.wrfds_orig = s.wrfds_orig :=
  (run_preserves (fun t => Waits fds list t ∧ 0 < t.timeouts ∧ t.wrfds_orig = s.wrfds_orig) ⟨h, hlate, rfl⟩
    (fun _ _ _ ht hstep => ⟨ht.1.of_step hlist hstep, (ht.1.step_late ht.2.1 hstep).1,
      (ht.1.step_late ht.2.1 hstep).2.trans ht.2.2⟩) hrun).2.2

theorem Waits.run_subset (h : Waits fds list s) (hlist : ∀ fd ∈ fds, list.count (fd : ℤ) ≤ 1)
    (hrun : run step s rounds = some s') : s'.wrfds_orig ⊆ s.wrfds_orig := by
  refine (run_preserves (fun t => Waits fds list t ∧ t.wrfds_orig ⊆ s.wrfds_orig) ⟨h, Finset.Subset.refl _⟩
    (fun t ready t' ht hstep => ⟨ht.1.of_step hlist hstep, ?_⟩) hrun).2
  obtain ⟨-, -, -, ⟨-, rfl⟩ | ⟨-, rfl⟩⟩ := Nbc.step_cases hstep
  · exact ht.2
  · exact Finset.sdiff_subset.trans ht.2

theorem Waits.timed_out (h : Waits fds list s) (hlist : ∀ fd ∈ fds, list.count (fd : ℤ) ≤ 1)
    (hall : Complete fds list) (hrun : run step s rounds = some s') :
    (∀ fd ∈ s.wrfds_orig, fd ∈ s'.wrfds_orig ↔ ∀ ready ∈ rounds, fd ∉ ready) ↔
      Meets step Timely s rounds := by
  induction rounds generalizing s with
  | nil =>
    obtain rfl := Option.some.inj hrun
    exact iff_of_true (fun fd hfd => iff_of_true hfd (by simp)) trivial
  | cons ready rounds ih =>
    rw [run_cons, Option.bind_eq_some_iff] at hrun
    obtain ⟨s₁, hs₁, hrun⟩ := hrun
    have h₁ := h.of_step hlist hs₁
    have hih := ih h₁ hrun
    rw [meets_cons_iff hs₁, ← hih]
    simp only [List.forall_mem_cons]
    obtain ⟨-, ⟨hready, hmore, horig⟩ | ⟨-, hzero, -, horig⟩⟩ := h.step_cases hall hs₁
    · rw [horig]
      have hkept : s'.wrfds_orig = s.wrfds_orig := (h₁.run_late hlist (by omega) hrun).trans horig
      rw [hkept]
      constructor
      · intro hall'
        refine ⟨fun _ => Finset.disjoint_left.mpr fun fd hfd => ((hall' fd hfd).mp hfd).1, fun fd hfd => ?_⟩
        exact iff_of_true hfd ((hall' fd hfd).mp hfd).2
      · rintro ⟨htimely, hall'⟩ fd hfd
        refine iff_of_true hfd ⟨?_, (hall' fd hfd).mp hfd⟩
        by_cases hzero : s.timeouts = 0
        · have hwrfds := h.wrfds
          rw [if_pos hzero] at hwrfds
          intro hmem
          have hfound : fd ∈ s.wrfds ∩ ready := Finset.mem_inter.mpr ⟨by rwa [hwrfds], hmem⟩
          rw [hready] at hfound
          exact Finset.notMem_empty fd hfound
        · exact Finset.disjoint_left.mp (htimely (by omega)) hfd
    · rw [horig]
      have htimely : Timely s ready := fun hpos => absurd hzero (by omega)
      rw [and_iff_right htimely]
      refine forall_congr' fun fd => ?_
      by_cases hmem : fd ∈ ready
      · have hgone : fd ∉ s'.wrfds_orig := fun hfd => by
          have hfd₁ := h₁.run_subset hlist hrun hfd
          rw [horig] at hfd₁
          exact (Finset.mem_sdiff.mp hfd₁).2 hmem
        simp [hmem, hgone]
      · simp [hmem]

end

/-- When nothing is missing, the connects that the program calls timed out are those that never came to
their end, as long as none of them comes to its end after the first timeout: the set of `select` is not
restored behind a timeout. -/
theorem timed_out_iff {hosts : List (List Addr)} (hok : connectAll hosts = .ok s)
    (hall : Complete s.wrfds s.checked) {rounds : List (Finset ℕ)} (hrun : run step s rounds = some s') :
    (∀ fd ∈ s.wrfds, fd ∈ s'.wrfds_orig ↔ ∀ ready ∈ rounds, fd ∉ ready) ↔ Meets step Timely s rounds := by
  obtain ⟨h, -, -, hlist⟩ := connectAll_waits hok
  have horig := (connectAll_fresh hok).2
  rw [← h.timed_out hlist hall hrun, horig]

/-- One timeout, and a connect that comes to its end in the next second is called timed out. -/
theorem timed_out_after_timeout : ∃ s s', connectAll [[⟨true, true, .inProgress⟩]] = .ok s ∧
    run step s [∅, {3}] = some s' ∧
    ¬ ∀ fd ∈ s.wrfds, fd ∈ s'.wrfds_orig ↔ ∀ ready ∈ ([∅, {3}] : List (Finset ℕ)), fd ∉ ready := by
  refine ⟨_, _, rfl, rfl, ?_⟩
  rw [@timed_out_iff _ _ [[⟨true, true, .inProgress⟩]] rfl (by unfold Complete; decide) [∅, {3}] rfl]
  decide

/-- Whatever is missing: no connect is reported twice, and those called timed out are the others. -/
theorem reported_once {hosts : List (List Addr)} (hok : connectAll hosts = .ok s) {rounds : List (Finset ℕ)}
    (hrun : run step s rounds = some s') :
    s'.reported.Nodup ∧ s'.wrfds_orig ⊆ s.wrfds ∧ s'.reported.toFinset = s.wrfds \ s'.wrfds_orig := by
  obtain ⟨h, -, -, hlist⟩ := connectAll_waits hok
  have h' := run_preserves (Waits s.wrfds s.checked) h (fun _ _ _ ht hstep => ht.of_step hlist hstep) hrun
  exact ⟨h'.reported.1, h'.subset, h'.reported.2⟩

theorem reported_once_of_two : ∃ s s',
    connectAll [[⟨true, true, .inProgress⟩, ⟨true, true, .inProgress⟩]] = .ok s ∧
    run step s [{4}, {3, 4}] = some s' ∧ s'.reported.Nodup ∧ s'.wrfds_orig ⊆ s.wrfds ∧
    s'.reported.toFinset = s.wrfds \ s'.wrfds_orig :=
  ⟨_, _, rfl, rfl,
    @reported_once _ _ [[⟨true, true, .inProgress⟩, ⟨true, true, .inProgress⟩]] rfl [{4}, {3, 4}] rfl⟩

end NetDemo.Linux.Nbc
